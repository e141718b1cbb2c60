import Fluxion.Proofs.Scalar.Forward
import Fluxion.Proofs.Scalar.Pairing

/-!
# Reverse sweeps

A reverse sweep over expressions runs the tape, records what each operation worked on, and goes back
over the records with several directions at once. In each direction it is read as the way back
without effects (`pullBack`): a contribution that is left out is read as adding zero.

## Main definitions

* `ScalarTape.Recorded` — a record is read as the record of a run over dual numbers
* `ScalarTape.Opposes` — a direction is read as an adjoint without effects

## Main results

* `ScalarTape.yields_recordStep`, `ScalarTape.yields_reverseStep` — one instruction forth and back
* `ScalarTape.yields_reverse` — **a reverse sweep is read as the way back without effects**
-/

namespace Fluxion

open ScalarBuilder

variable {V : Type} [CommRing V] {I : Interpretation V} {ρ : ScalarId → V}

namespace ScalarTape

variable {g h : ScalarGraph} {zero : ScalarId}

/-! ### Records -/

/-- What an instruction worked on, with the instruction, is read as a record of values. -/
structure Recorded (g : ScalarGraph) (I : Interpretation V) (ρ : ScalarId → V)
    (entry : ScalarInstr × Record ScalarId) (values : ScalarInstr × Record V) : Prop where
  instr : entry.1 = values.1
  x : g.Reads I ρ entry.2.x values.2.x
  y : g.Reads I ρ entry.2.y values.2.y
  f : g.Reads I ρ entry.2.f values.2.f

theorem Recorded.grow {entry : ScalarInstr × Record ScalarId} {values : ScalarInstr × Record V}
    (hentry : Recorded g I ρ entry values) (hgrow : g.Grows h) :
    Recorded h I ρ entry values :=
  ⟨hentry.instr, hentry.x.grow hgrow, hentry.y.grow hgrow, hentry.f.grow hgrow⟩

/-- The state of the run forth is read as a run over dual numbers, and its records as the records
of that run. -/
structure Recording (g : ScalarGraph) (I : Interpretation V) (ρ : ScalarId → V) (zero : ScalarId)
    (inputs : Grid ScalarId) (free : Array ScalarId) (dual : Grid (DualNumber V))
    (freeDual : Array (DualNumber V)) (state : Run ScalarId × List (ScalarInstr × Record ScalarId))
    (pure : Run (DualNumber V) × List (ScalarInstr × Record V)) : Prop where
  readsZero : g.Reads I ρ zero 0
  input : ∀ i k, g.Reads I ρ (inputs.read zero i k) (dual.read 0 i k).fst
  free : ∀ k, g.Reads I ρ (free.getD k zero) (freeDual.getD k 0).fst
  value : Run.Related (fun e (x : DualNumber V) => g.Reads I ρ e x.fst) zero 0 state.1 pure.1
  records : List.Forall₂ (Recorded g I ρ) state.2 pure.2

variable {inputs : Grid ScalarId} {free : Array ScalarId} {dual : Grid (DualNumber V)}
  {freeDual : Array (DualNumber V)}

theorem Recording.grow {state : Run ScalarId × List (ScalarInstr × Record ScalarId)}
    {pure : Run (DualNumber V) × List (ScalarInstr × Record V)}
    (hstate : Recording g I ρ zero inputs free dual freeDual state pure) (hgrow : g.Grows h) :
    Recording h I ρ zero inputs free dual freeDual state pure :=
  ⟨hstate.readsZero.grow hgrow, fun i k => (hstate.input i k).grow hgrow,
    fun k => (hstate.free k).grow hgrow, hstate.value.imp fun _ _ hv => hv.grow hgrow,
    hstate.records.imp fun _ _ hentry => hentry.grow hgrow⟩

/-- One instruction of the run forth, with its record. -/
def recordPure (A : Algebra Id V) (dual : Grid (DualNumber V)) (freeDual : Array (DualNumber V))
    (state : Run (DualNumber V) × List (ScalarInstr × Record V)) (instr : ScalarInstr) :
    Run (DualNumber V) × List (ScalarInstr × Record V) :=
  (dualStep A dual freeDual state.1 instr, (instr, recordOf A state.1 instr) :: state.2)

theorem yields_recordStep {state : Run ScalarId × List (ScalarInstr × Record ScalarId)}
    {pure : Run (DualNumber V) × List (ScalarInstr × Record V)}
    (hstate : Recording g I ρ zero inputs free dual freeDual state pure) (instr : ScalarInstr) :
    Yields (recordStep scalarAlgebra zero inputs free state instr) g fun state' h =>
      Recording h I ρ zero inputs free dual freeDual state'
        (recordPure I.algebra dual freeDual pure instr) := by
  obtain ⟨r, records⟩ := state
  obtain ⟨q, values⟩ := pure
  have hplain : ∀ {k : ScalarGraph}, g.Grows k →
      recordOf I.algebra q instr = ⟨0, 0, 0⟩ →
      Recorded k I ρ (instr, ⟨zero, zero, zero⟩) (instr, recordOf I.algebra q instr) := by
    intro k hgk hrecord
    have hzero := hstate.readsZero.grow hgk
    rw [hrecord]
    exact ⟨rfl, hzero, hzero, hzero⟩
  have hnow := hplain (.refl g)
  cases instr with
  | input i k result =>
    exact yields_pure ⟨hstate.readsZero, hstate.input, hstate.free,
      hstate.value.write (hstate.input i k) result, .cons (hnow rfl) hstate.records⟩
  | output i k a =>
    exact yields_pure ⟨hstate.readsZero, hstate.input, hstate.free,
      hstate.value.store (hstate.value.read a) i k, .cons (hnow rfl) hstate.records⟩
  | free k result =>
    exact yields_pure ⟨hstate.readsZero, hstate.input, hstate.free,
      hstate.value.write (hstate.free k) result, .cons (hnow rfl) hstate.records⟩
  | constant v result =>
    have hexec : Yields (exec scalarAlgebra zero inputs free r (.constant v result)) g fun r' k =>
        ∃ e, r' = r.write result e ∧ k.Reads I ρ e (I.literal v) :=
      (yields_literal v).bind fun e k _ he => yields_pure ⟨e, rfl, he⟩
    refine hexec.bind fun r' h hgh hr' => ?_
    obtain ⟨e, rfl, he⟩ := hr'
    have hstate' := hstate.grow hgh
    exact yields_pure ⟨hstate'.readsZero, hstate'.input, hstate'.free,
      hstate'.value.write (w := I.algebra.dual.constant v) he result,
      .cons (hplain hgh rfl) hstate'.records⟩
  | unary op a result =>
    have hx := hstate.value.read a
    refine (yields_unary (I := I) (ρ := ρ) op hx.has).bind fun f h hgh hf => ?_
    have hstate' := hstate.grow hgh
    have hresult := hf.2 _ hx
    refine yields_pure ⟨hstate'.readsZero, hstate'.input, hstate'.free, ?_, ?_⟩
    · refine hstate'.value.write (w := I.algebra.dual.unary op (q.read 0 a)) ?_ result
      exact hresult
    · exact .cons ⟨rfl, hx.grow hgh, hstate'.readsZero, hresult⟩ hstate'.records
  | binary op a b result =>
    have hx := hstate.value.read a
    have hy := hstate.value.read b
    refine (yields_binary (I := I) (ρ := ρ) op hx.has hy.has).bind fun f h hgh hf => ?_
    have hstate' := hstate.grow hgh
    have hresult := hf.2 _ _ hx hy
    refine yields_pure ⟨hstate'.readsZero, hstate'.input, hstate'.free, ?_, ?_⟩
    · refine hstate'.value.write (w := I.algebra.dual.binary op (q.read 0 a) (q.read 0 b)) ?_ result
      exact hresult
    · exact .cons ⟨rfl, hx.grow hgh, hy.grow hgh, hresult⟩ hstate'.records

/-! ### Adjoints -/

/-- A direction of the way back is read as an adjoint. -/
structure Opposes (g : ScalarGraph) (I : Interpretation V) (ρ : ScalarId → V) (zero : ScalarId)
    (d : Adjoint ScalarId) (δ : Adjoint V) : Prop where
  seed : ∀ i k, g.Reads I ρ (d.seed.read zero i k) (δ.seed.read 0 i k)
  run : Run.Related (g.Reads I ρ) zero 0 d.run δ.run

variable {d : Adjoint ScalarId} {δ : Adjoint V}

theorem Opposes.grow (hd : Opposes g I ρ zero d δ) (hgrow : g.Grows h) :
    Opposes h I ρ zero d δ :=
  ⟨fun i k => (hd.seed i k).grow hgrow, hd.run.imp fun _ _ hv => hv.grow hgrow⟩

theorem Opposes.write (hd : Opposes g I ρ zero d δ) {e : ScalarId} {v : V}
    (he : g.Reads I ρ e v) (slot : Nat) :
    Opposes g I ρ zero (d.write slot e) (δ.write slot v) :=
  ⟨hd.seed, hd.run.write he slot⟩

/-- Adding zero is not seen. -/
theorem Opposes.increase_zero (hd : Opposes g I ρ zero d δ) {term : V}
    (hterm : I.Exact g → term = 0) (slot : Nat) :
    Opposes g I ρ zero d (increase δ slot term) := by
  refine ⟨hd.seed, hd.run.write_right ((hd.run.read slot).congr fun hexact => ?_)⟩
  rw [hterm hexact, add_zero]
  rfl

theorem yields_add (hd : Opposes g I ρ zero d δ) {term : ScalarId} {v : V}
    (hterm : g.Reads I ρ term v) (slot : Nat) :
    Yields (d.add scalarAlgebra zero slot term) g fun d' h =>
      Opposes h I ρ zero d' (increase δ slot v) := by
  refine (yields_binary (I := I) (ρ := ρ) .add (hd.run.read slot).has hterm.has).bind
    fun e h hgh he => ?_
  exact yields_pure ((hd.grow hgh).write (he.2 _ _ (hd.run.read slot) hterm) slot)

theorem yields_giveBack {P : V → Prop} {partialOf : ScalarBuilder ScalarId}
    {made : Option ScalarId} {s : ScalarId} {p σ : V} (slot : Nat)
    (hpartial : Yields partialOf g fun e h => h.Denotes I ρ P e)
    (hmade : ∀ p ∈ made, g.Denotes I ρ P p) (hp : P p) (hs : g.Reads I ρ s σ)
    (hd : Opposes g I ρ zero d δ) :
    Yields (giveBack scalarAlgebra zero partialOf made s slot d) g fun res h =>
      (∀ p ∈ res.1, h.Denotes I ρ P p) ∧ Opposes h I ρ zero res.2 (increase δ slot (p * σ)) := by
  refine (yields_onDemand hpartial hmade).bind fun e h hgh he => ?_
  refine (yields_binary (I := I) (ρ := ρ) .mul he.1 (hs.has.grow hgh)).bind
    fun term k hhk hterm => ?_
  have hread := hterm.2 _ _ (he.2 p hp) (hs.grow hgh)
  refine (yields_add ((hd.grow hgh).grow hhk) hread slot).bind fun d' l hkl hd' => ?_
  refine yields_pure ⟨fun q hq => ?_, hd'⟩
  rw [← Option.mem_some_iff.mp hq]
  exact (he.grow hhk).grow hkl

theorem yields_pullUnary (op : UnaryOp) {record : Record ScalarId} {values : Record V}
    {a result : Nat} {made : Option ScalarId} (hgrow : g.Grows h)
    (hzero : g.Reads I ρ zero 0)
    (hrecord : Recorded g I ρ (.unary op a result, record) (.unary op a result, values))
    (hmade : ∀ p ∈ made, h.Denotes I ρ (UnaryPartials g I ρ op record.x record.f) p)
    (hd : Opposes h I ρ zero d δ) :
    Yields (pullUnary scalarAlgebra zero op record a result made d) h fun res k =>
      (∀ p ∈ res.1, k.Denotes I ρ (UnaryPartials g I ρ op record.x record.f) p) ∧
      Opposes k I ρ zero res.2 (pull I.algebra δ (.unary op a result, values)) := by
  have hs := hd.run.read result
  have hclear := hd.write (hzero.grow hgrow) result
  intro hh
  rw [pullUnary]
  by_cases hskip : scalarAlgebra.isZero (d.read zero result) = true
  · rw [if_pos hskip]
    refine yields_pure ⟨hmade, hclear.increase_zero (fun hexact => ?_) a⟩ hh
    have hσ : δ.read 0 result = 0 := eq_zero_of_isZero hh hs hskip hexact
    rw [hσ, mul_zero]
  · rw [if_neg hskip]
    exact yields_giveBack a (yields_unaryPartials op hrecord.x.has hrecord.f.has hgrow) hmade
      ⟨_, _, hrecord.x, hrecord.f, rfl⟩ hs hclear hh

theorem yields_pullBinary (op : BinaryOp) {record : Record ScalarId} {values : Record V}
    {a b result : Nat} {made : Option ScalarId × Option ScalarId} (hgrow : g.Grows h)
    (hzero : g.Reads I ρ zero 0)
    (hrecord : Recorded g I ρ (.binary op a b result, record) (.binary op a b result, values))
    (hleft : ∀ p ∈ made.1, h.Denotes I ρ
      (BinaryPartials g I ρ op .left record.x record.y record.f) p)
    (hright : ∀ p ∈ made.2, h.Denotes I ρ
      (BinaryPartials g I ρ op .right record.x record.y record.f) p)
    (hd : Opposes h I ρ zero d δ) :
    Yields (pullBinary scalarAlgebra zero op record a b result made d) h fun res k =>
      ((∀ p ∈ res.1.1, k.Denotes I ρ
        (BinaryPartials g I ρ op .left record.x record.y record.f) p) ∧
      (∀ p ∈ res.1.2, k.Denotes I ρ
        (BinaryPartials g I ρ op .right record.x record.y record.f) p)) ∧
      Opposes k I ρ zero res.2 (pull I.algebra δ (.binary op a b result, values)) := by
  have hs := hd.run.read result
  have hclear := hd.write (hzero.grow hgrow) result
  obtain ⟨-, hx, hy, hf⟩ := hrecord
  intro hh
  rw [pullBinary]
  by_cases hskip : scalarAlgebra.isZero (d.read zero result) = true
  · have hσ : I.Exact h → δ.read 0 result = 0 := eq_zero_of_isZero hh hs hskip
    rw [if_pos hskip]
    refine yields_pure ⟨⟨hleft, hright⟩, ?_⟩ hh
    refine (hclear.increase_zero (fun hexact => ?_) a).increase_zero (fun hexact => ?_) b
    · rw [hσ hexact, mul_zero]
    · rw [hσ hexact, mul_zero]
  · rw [if_neg hskip]
    refine (yields_giveBack a (yields_binaryPartials op .left hx.has hy.has hf.has hgrow) hleft
      ⟨_, _, _, hx, hy, hf, rfl⟩ hs hclear).bind (fun res k hhk hres => ?_) hh
    have hgk := hgrow.trans hhk
    refine (yields_giveBack b (yields_binaryPartials op .right hx.has hy.has hf.has hgk)
      (fun p hp => (hright p hp).grow hhk) ⟨_, _, _, hx, hy, hf, rfl⟩ (hs.grow hhk) hres.2).bind
        fun res' l hkl hres' => ?_
    exact yields_pure ⟨⟨fun p hp => (hres.1 p hp).grow hkl, hres'.1⟩, hres'.2⟩

/-! ### Sweeps -/

/-- The directions of a sweep are read as adjoints. -/
structure Opposed (g : ScalarGraph) (I : Interpretation V) (ρ : ScalarId → V) (zero : ScalarId)
    (adjoints : List (Adjoint ScalarId)) (δs : List (Adjoint V)) : Prop where
  readsZero : g.Reads I ρ zero 0
  opposes : List.Forall₂ (Opposes g I ρ zero) adjoints δs

/-- **One instruction back** in all directions. -/
theorem yields_reverseStep {adjoints : List (Adjoint ScalarId)} {δs : List (Adjoint V)}
    (hstate : Opposed g I ρ zero adjoints δs) {entry : ScalarInstr × Record ScalarId}
    {values : ScalarInstr × Record V} (hentry : Recorded g I ρ entry values) :
    Yields (reverseStep scalarAlgebra zero adjoints entry) g fun adjoints' h =>
      Opposed h I ρ zero adjoints' (δs.map (pull I.algebra · values)) := by
  obtain ⟨hzero, hds⟩ := hstate
  obtain ⟨instr, record⟩ := entry
  obtain ⟨instr', values⟩ := values
  obtain rfl : instr = instr' := hentry.instr
  have hkeep : ∀ d (δ : Adjoint V) (k l : ScalarGraph), k.Grows l →
      Opposes k I ρ zero d δ → Opposes l I ρ zero d δ := fun _ _ _ _ hkl hd => hd.grow hkl
  -- loads and constants make no requests, so the graph stays as it is
  have hmap : ∀ f : Adjoint ScalarId → Adjoint ScalarId,
      (∀ d δ, Opposes g I ρ zero d δ → Opposes g I ρ zero (f d) (pull I.algebra δ (instr, values))) →
      Opposed g I ρ zero (adjoints.map f) (δs.map (pull I.algebra · (instr, values))) := by
    intro f hf
    refine ⟨hzero, ?_⟩
    rw [List.forall₂_map_left_iff, List.forall₂_map_right_iff]
    exact hds.imp hf
  -- the other instructions treat directions one after another
  have hfinish : ∀ {step : ScalarBuilder (List (Adjoint ScalarId))},
      (Yields step g fun ds k =>
        List.Forall₂ (Opposes k I ρ zero) ds (δs.map (pull I.algebra · (instr, values)))) →
      Yields step g fun ds k => Opposed k I ρ zero ds (δs.map (pull I.algebra · (instr, values))) :=
    fun hstep => hstep.imp fun ds k hgk _ hds' => ⟨hzero.grow hgk, hds'⟩
  cases instr with
  | input i k result =>
    refine yields_pure (hmap _ fun d δ hd => ⟨hd.seed, ?_⟩)
    exact (hd.run.store (hd.run.read result) i k).write hzero result
  | constant v result => exact yields_pure (hmap _ fun d δ hd => hd.write hzero result)
  | free k result => exact yields_pure (hmap _ fun d δ hd => hd.write hzero result)
  | output i k a =>
    refine hfinish (Yields.mapM (R := fun d δ k => Opposes k I ρ zero d δ)
      (S := fun d δ k => Opposes k I ρ zero d δ) hkeep hkeep (fun d δ h hd => ?_) hds)
    intro hh
    have hs := hd.seed i k
    by_cases hskip : scalarAlgebra.isZero (d.seed.read zero i k) = true
    · refine ⟨d, h, by simp only [hskip]; rfl, .refl h, ?_⟩
      exact hd.increase_zero (eq_zero_of_isZero hh hs hskip) a
    · obtain ⟨d', k', hrun, hgrow, hd'⟩ := yields_add hd hs a hh
      exact ⟨d', k', by simp only [hskip]; exact hrun, hgrow, hd'⟩
  | unary op a result =>
    exact hfinish (Yields.inTurn
      (M := fun made k => ∀ p ∈ made, k.Denotes I ρ (UnaryPartials g I ρ op record.x record.f) p)
      (R := fun d δ k => Opposes k I ρ zero d δ) (S := fun d δ k => Opposes k I ρ zero d δ)
      hkeep hkeep (fun made d δ h hgh hmade hd => yields_pullUnary op hgh hzero hentry hmade hd)
      (by simp) hds)
  | binary op a b result =>
    exact hfinish (Yields.inTurn
      (M := fun made k =>
        (∀ p ∈ made.1, k.Denotes I ρ
          (BinaryPartials g I ρ op .left record.x record.y record.f) p) ∧
        (∀ p ∈ made.2, k.Denotes I ρ
          (BinaryPartials g I ρ op .right record.x record.y record.f) p))
      (R := fun d δ k => Opposes k I ρ zero d δ) (S := fun d δ k => Opposes k I ρ zero d δ)
      hkeep hkeep (fun made d δ h hgh hmade hd =>
        yields_pullBinary op hgh hzero hentry hmade.1 hmade.2 hd)
      (by simp) hds)

theorem foldl_map_pull {A : Algebra Id V} (entries : List (ScalarInstr × Record V)) (δs : List (Adjoint V)) :
    entries.foldl (fun δs entry => δs.map (pull A · entry)) δs
      = δs.map fun δ => entries.foldl (pull A) δ := by
  induction entries generalizing δs with
  | nil => simp
  | cons entry rest ih =>
    rw [List.foldl_cons, ih, List.map_map]
    rfl

/-- Going back over the records is going back over the instructions. -/
theorem foldl_pull_records {A : Algebra Id V} (instrs : List ScalarInstr) (q : Run (DualNumber V))
    (records : List (ScalarInstr × Record V)) (δ : Adjoint V) :
    (instrs.foldl (recordPure A dual freeDual) (q, records)).2.foldl (pull A) δ
      = records.foldl (pull A) (pullBack A dual freeDual q instrs δ) := by
  induction instrs generalizing q records with
  | nil => rfl
  | cons instr rest ih =>
    rw [List.foldl_cons, recordPure, ih, List.foldl_cons, pullBack]

/-- **Reverse sweeps.** For each direction the derivatives in the inputs are read as the adjoints
that the way back without effects has. -/
theorem yields_reverse (tape : ScalarTape) {inputs : Bundle ScalarId} {free : List ScalarId}
    {seeds : List (Bundle ScalarId)} {dual : Bundle (DualNumber V)}
    {freeDual : List (DualNumber V)} {weights : List (Bundle V)} (inCounts outCounts : List Nat)
    (hinputs : Bundle.Related (fun e (x : DualNumber V) => g.Reads I ρ e x.fst) inputs dual)
    (hfree : FreeReads g I ρ free freeDual)
    (hseeds : List.Forall₂ (Bundle.Related (g.Reads I ρ)) seeds weights) :
    Yields (tape.reverse scalarAlgebra inputs free seeds inCounts outCounts) g fun res h =>
      List.Forall₂ (fun adjoint weight =>
        Bundle.Related (h.Reads I ρ) adjoint
          (pullBack I.algebra (.ofBundle dual) freeDual.toArray (.start 0 tape.workSize outCounts)
            tape.instrs ⟨.ofBundle weight, .start 0 tape.workSize inCounts⟩).run.outputs.toBundle)
        res.2 weights := by
  refine (yields_literal (I := I) (ρ := ρ) 0.0).bind fun zero h hgh hliteral => ?_
  have hzero : h.Reads I ρ zero 0 := hliteral.congr fun _ => I.literal_zero
  have hstart : Recording h I ρ zero (.ofBundle inputs) free.toArray (.ofBundle dual)
      freeDual.toArray (.start zero tape.workSize outCounts, [])
      (.start 0 tape.workSize outCounts, []) := by
    refine ⟨hzero, fun i k => ?_, fun k => ?_, .start (by exact hzero) _ _, .nil⟩
    · rw [Grid.read_ofBundle, Grid.read_ofBundle]
      exact (hinputs.imp fun _ _ he => he.grow hgh).getD hzero i k
    · simpa using (hfree.grow hgh).getD hzero k |>.1
  refine (Yields.foldlM (E := fun i j (_ : ScalarGraph) => i = j)
    (R := fun state pure k =>
      Recording k I ρ zero (.ofBundle inputs) free.toArray (.ofBundle dual) freeDual.toArray
        state pure)
    (fun _ _ _ _ _ hij => hij)
    (fun i j state pure k hij hstate => by subst hij; exact yields_recordStep hstate i)
    (List.forall₂_same.mpr fun (i : ScalarInstr) (_ : i ∈ tape.instrs) => rfl) hstart).bind
      fun state k hhk hrecording => ?_
  have hopposed : Opposed k I ρ zero
      (seeds.map fun seed => ⟨.ofBundle seed, .start zero tape.workSize inCounts⟩)
      (weights.map fun weight => ⟨.ofBundle weight, .start 0 tape.workSize inCounts⟩) := by
    refine ⟨hzero.grow hhk, ?_⟩
    rw [List.forall₂_map_left_iff, List.forall₂_map_right_iff]
    refine hseeds.imp fun seed weight hseed => ⟨fun i j => ?_, .start (hzero.grow hhk) _ _⟩
    rw [Grid.read_ofBundle, Grid.read_ofBundle]
    exact (hseed.imp fun _ _ he => he.grow (hgh.trans hhk)).getD (hzero.grow hhk) i j
  refine (Yields.foldlM (E := fun entry values l => Recorded l I ρ entry values)
    (R := fun ds δs l => Opposed l I ρ zero ds δs)
    (fun _ _ _ _ hlm hentry => hentry.grow hlm)
    (fun entry values ds δs l hentry hds => yields_reverseStep hds hentry)
    hrecording.records hopposed).bind fun adjoints l hkl hend => yields_pure ?_
  rw [foldl_map_pull, List.map_map] at hend
  have hopposes := hend.opposes
  rw [List.forall₂_map_right_iff] at hopposes
  rw [List.forall₂_map_left_iff]
  refine hopposes.imp fun d weight hd => ?_
  rw [Function.comp_apply, foldl_pull_records] at hd
  exact .of_grids hd.run.width hd.run.stored

end ScalarTape

end Fluxion
