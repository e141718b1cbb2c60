import Fluxion.Proofs.Scalar.Reading
import Fluxion.Proofs.Scalar.Runs

/-!
# Forward sweeps

A forward sweep over expressions carries several directions at once, leaves out what is known to be
zero, and hands partial derivatives on from one direction to the next. None of this shows in what is
read: in each direction the sweep is read as a run of the tape over dual numbers, values beside
derivatives.

A partial derivative that has been made serves all directions, though it is read in each of them
separately. So what is said of it is said for every value that it has to be read as.

## Main definitions

* `ScalarGraph.Denotes` — an expression is read as each of several values
* `ScalarTape.Follows` — a direction of a sweep is read as a run over dual numbers

## Main results

* `ScalarTape.yields_contribute` — one operand's part in a derivative
* `ScalarTape.yields_forwardStep` — one instruction
* `ScalarTape.yields_forward` — **a forward sweep is read as runs over dual numbers**
-/

namespace Fluxion

open ScalarBuilder

variable {V : Type} [CommRing V] {I : Interpretation V} {ρ : ScalarId → V}

/-- The expression is read as each of the values in `P`. -/
def ScalarGraph.Denotes (g : ScalarGraph) (I : Interpretation V) (ρ : ScalarId → V) (P : V → Prop)
    (e : ScalarId) : Prop :=
  g.Has e ∧ ∀ v, P v → g.Reads I ρ e v

theorem ScalarGraph.Denotes.grow {g h : ScalarGraph} {P : V → Prop} {e : ScalarId}
    (he : g.Denotes I ρ P e) (hgrow : g.Grows h) : h.Denotes I ρ P e :=
  ⟨he.1.grow hgrow, fun v hv => (he.2 v hv).grow hgrow⟩

namespace ScalarTape

variable {g : ScalarGraph} {zero : ScalarId}

/-! ### Contributions -/

theorem yields_onDemand {P : V → Prop} {partialOf : ScalarBuilder ScalarId} {made : Option ScalarId}
    (hpartial : Yields partialOf g fun e h => h.Denotes I ρ P e)
    (hmade : ∀ p ∈ made, g.Denotes I ρ P p) :
    Yields (onDemand made partialOf) g fun e h => h.Denotes I ρ P e := by
  cases made with
  | none => exact hpartial
  | some p => exact yields_pure (hmade p rfl)

/-- What is skipped is read as zero. -/
theorem eq_zero_of_isZero (hg : g.Founded) {e : ScalarId} {v : V} (he : g.Reads I ρ e v)
    (hskip : scalarAlgebra.isZero e = true) (hexact : I.Exact g) : v = 0 := by
  have hsame : e = .zero := by simpa [scalarAlgebra] using hskip
  rw [← he.2 hexact, hsame]
  exact hg.reads_zero.2 hexact

/-- **Contributions.** Whether or not it is left out, the contribution of an operand is read as the
product of the partial derivative and the derivative of the operand. -/
theorem yields_contribute {P : V → Prop} {partialOf : ScalarBuilder ScalarId}
    {made sum : Option ScalarId} {t : ScalarId} {p x s : V}
    (hzero : g.Reads I ρ zero 0)
    (hpartial : Yields partialOf g fun e h => h.Denotes I ρ P e)
    (hmade : ∀ p ∈ made, g.Denotes I ρ P p) (hp : P p) (ht : g.Reads I ρ t x)
    (hsum : g.Reads I ρ (sum.getD zero) s) :
    Yields (contribute scalarAlgebra partialOf made t sum) g fun r h =>
      (∀ p ∈ r.1, h.Denotes I ρ P p) ∧ h.Reads I ρ (r.2.getD zero) (s + p * x) := by
  intro hg
  rw [contribute]
  by_cases hskip : scalarAlgebra.isZero t = true
  · rw [if_pos hskip]
    refine yields_pure ⟨hmade, hsum.congr fun hexact => ?_⟩ hg
    rw [eq_zero_of_isZero hg ht hskip hexact, mul_zero, add_zero]
  · rw [if_neg hskip]
    refine (yields_onDemand hpartial hmade).bind (fun e h hgh he => ?_) hg
    refine (yields_binary (I := I) (ρ := ρ) .mul he.1 (ht.has.grow hgh)).bind
      fun term k hhk hterm => ?_
    have hread := hterm.2 _ _ (he.2 p hp) (ht.grow hgh)
    have hgk := hgh.trans hhk
    have hdone : ∀ q ∈ some e, k.Denotes I ρ P q := by
      intro q hq
      rw [← Option.mem_some_iff.mp hq]
      exact he.grow hhk
    cases sum with
    | none =>
      refine yields_pure ⟨hdone, hread.congr fun hexact => ?_⟩
      have hs : s = 0 := by
        rw [← (hsum.grow hgk).2 hexact, ← (hzero.grow hgk).2 hexact]
        rfl
      rw [hs, zero_add]
      rfl
    | some e' =>
      refine (yields_binary (I := I) (ρ := ρ) .add (hsum.has.grow hgk) hterm.1).bind
        fun total l hkl htotal => ?_
      refine yields_pure ⟨fun q hq => (hdone q hq).grow hkl, ?_⟩
      exact htotal.2 _ _ (hsum.grow hgk) hread

/-- What the partial derivative of an operation on one operand has to be read as: whatever follows
from readings of the operand and the result. -/
def UnaryPartials (g : ScalarGraph) (I : Interpretation V) (ρ : ScalarId → V) (op : UnaryOp)
    (a f : ScalarId) (p : V) : Prop :=
  ∃ x w, g.Reads I ρ a x ∧ g.Reads I ρ f w ∧ I.unaryPartial op x w = p

/-- The same for an operation on two operands. -/
def BinaryPartials (g : ScalarGraph) (I : Interpretation V) (ρ : ScalarId → V) (op : BinaryOp)
    (side : Side) (a b f : ScalarId) (p : V) : Prop :=
  ∃ x y w, g.Reads I ρ a x ∧ g.Reads I ρ b y ∧ g.Reads I ρ f w ∧
    I.binaryPartial op side x y w = p

theorem yields_unaryPartials (op : UnaryOp) {a f : ScalarId} (ha : g.Has a) (hf : g.Has f)
    {h : ScalarGraph} (hgrow : g.Grows h) :
    Yields (unaryPartial scalarAlgebra op a f) h fun e k =>
      k.Denotes I ρ (UnaryPartials g I ρ op a f) e := by
  refine (yields_unaryPartial (I := I) (ρ := ρ) op (ha.grow hgrow) (hf.grow hgrow)).imp fun e k _ _ he => ⟨he.1, ?_⟩
  rintro p ⟨x, w, hx, hw, rfl⟩
  exact he.2 x w (hx.grow hgrow) (hw.grow hgrow)

theorem yields_binaryPartials (op : BinaryOp) (side : Side) {a b f : ScalarId} (ha : g.Has a)
    (hb : g.Has b) (hf : g.Has f) {h : ScalarGraph} (hgrow : g.Grows h) :
    Yields (binaryPartial scalarAlgebra op side a b f) h fun e k =>
      k.Denotes I ρ (BinaryPartials g I ρ op side a b f) e := by
  refine (yields_binaryPartial (I := I) (ρ := ρ) op side (ha.grow hgrow) (hb.grow hgrow) (hf.grow hgrow)).imp
    fun e k _ _ he => ⟨he.1, ?_⟩
  rintro p ⟨x, y, w, hx, hy, hw, rfl⟩
  exact he.2 x y w (hx.grow hgrow) (hy.grow hgrow) (hw.grow hgrow)

/-! ### Directions -/

/-- What a run over expressions is given, and how it is read: the handle that stands for zero, the
inputs, and the free symbols, which do not move. -/
structure Given (g : ScalarGraph) (I : Interpretation V) (ρ : ScalarId → V) (zero : ScalarId)
    (inputs : Grid ScalarId) (free : Array ScalarId) (freeDual : Array (DualNumber V)) : Prop where
  readsZero : g.Reads I ρ zero 0
  input : ∀ i k, g.Has (inputs.read zero i k)
  free : ∀ k, g.Reads I ρ (free.getD k zero) (freeDual.getD k 0).fst
  fixed : ∀ k, (freeDual.getD k 0).snd = 0

/-- A direction of a sweep, read over dual numbers: inputs, and the state of the run. -/
structure DualRun (V : Type) where
  inputs : Grid (DualNumber V)
  run : Run (DualNumber V)

/-- A direction of a sweep is read as a run over dual numbers: the inputs move as the seed says,
values are read as values and derivatives as derivatives. -/
structure Follows (g : ScalarGraph) (I : Interpretation V) (ρ : ScalarId → V) (zero : ScalarId)
    (inputs : Grid ScalarId) (r : Run ScalarId) (t : Tangent ScalarId) (d : DualRun V) :
    Prop where
  input : ∀ i k, g.Reads I ρ (inputs.read zero i k) (d.inputs.read 0 i k).fst
  seed : ∀ i k, g.Reads I ρ (t.seed.read zero i k) (d.inputs.read 0 i k).snd
  value : Run.Related (fun e (x : DualNumber V) => g.Reads I ρ e x.fst) zero 0 r d.run
  derivative : Run.Related (fun e (x : DualNumber V) => g.Reads I ρ e x.snd) zero 0 t.run d.run

variable {inputs : Grid ScalarId} {free : Array ScalarId} {freeDual : Array (DualNumber V)}
  {r : Run ScalarId} {t : Tangent ScalarId} {d : DualRun V} {h : ScalarGraph}

theorem Given.grow (hgiven : Given g I ρ zero inputs free freeDual) (hgrow : g.Grows h) :
    Given h I ρ zero inputs free freeDual :=
  ⟨hgiven.readsZero.grow hgrow, fun i k => (hgiven.input i k).grow hgrow,
    fun k => (hgiven.free k).grow hgrow, hgiven.fixed⟩

theorem Follows.grow (hd : Follows g I ρ zero inputs r t d) (hgrow : g.Grows h) :
    Follows h I ρ zero inputs r t d :=
  ⟨fun i k => (hd.input i k).grow hgrow, fun i k => (hd.seed i k).grow hgrow,
    hd.value.imp fun _ _ hv => hv.grow hgrow, hd.derivative.imp fun _ _ hv => hv.grow hgrow⟩

/-- Write a value and a derivative into the same slot. -/
theorem Follows.write (hd : Follows g I ρ zero inputs r t d) {v w : ScalarId}
    {x : DualNumber V} (hv : g.Reads I ρ v x.fst) (hw : g.Reads I ρ w x.snd) (slot : Nat) :
    Follows g I ρ zero inputs (r.write slot v) (t.write slot w)
      { d with run := d.run.write slot x } :=
  ⟨hd.input, hd.seed, hd.value.write hv slot, hd.derivative.write hw slot⟩

/-- One instruction of a run over dual numbers. -/
def DualRun.step (I : Interpretation V) (free : Array (DualNumber V)) (d : DualRun V)
    (instr : ScalarInstr) : DualRun V :=
  { d with run := execute I.dualAlgebra 0 d.inputs free d.run instr }

theorem yields_pushUnary (op : UnaryOp) {f : ScalarId} {a result : Nat}
    {made : Option ScalarId} (hgrow : g.Grows h) (hzero : g.Reads I ρ zero 0)
    (hd : Follows g I ρ zero inputs r t d)
    (hf : g.Reads I ρ f (I.unary op (d.run.read 0 a).fst))
    (hmade : ∀ p ∈ made, h.Denotes I ρ (UnaryPartials g I ρ op (r.read zero a) f) p) :
    Yields (pushUnary scalarAlgebra zero op (r.read zero a) f a result made t) h fun res k =>
      (∀ p ∈ res.1, k.Denotes I ρ (UnaryPartials g I ρ op (r.read zero a) f) p) ∧
      Follows k I ρ zero inputs (r.write result f) res.2
        (d.step I freeDual (.unary op a result)) := by
  have hx := hd.value.read a
  refine (yields_contribute (hzero.grow hgrow)
    (yields_unaryPartials op hx.has hf.has hgrow) hmade ⟨_, _, hx, hf, rfl⟩
    ((hd.derivative.read a).grow hgrow)
    (show h.Reads I ρ ((none : Option ScalarId).getD zero) 0 from hzero.grow hgrow)).bind fun res k hhk hres => ?_
  refine yields_pure ⟨hres.1, ?_⟩
  have hgk := hgrow.trans hhk
  refine (hd.grow hgk).write (x := I.dual.unary op (d.run.read 0 a)) ?_ ?_ result
  · rw [Interpretation.fst_dual_unary]
    exact hf.grow hgk
  · rw [Interpretation.snd_dual_unary]
    exact hres.2.congr fun _ => zero_add _

theorem yields_pushBinary (op : BinaryOp) {f : ScalarId} {a b result : Nat}
    {made : Option ScalarId × Option ScalarId} (hgrow : g.Grows h) (hzero : g.Reads I ρ zero 0)
    (hd : Follows g I ρ zero inputs r t d)
    (hf : g.Reads I ρ f (I.binary op (d.run.read 0 a).fst (d.run.read 0 b).fst))
    (hleft : ∀ p ∈ made.1, h.Denotes I ρ
      (BinaryPartials g I ρ op .left (r.read zero a) (r.read zero b) f) p)
    (hright : ∀ p ∈ made.2, h.Denotes I ρ
      (BinaryPartials g I ρ op .right (r.read zero a) (r.read zero b) f) p) :
    Yields (pushBinary scalarAlgebra zero op (r.read zero a) (r.read zero b) f a b result made t) h
      fun res k =>
        ((∀ p ∈ res.1.1, k.Denotes I ρ
          (BinaryPartials g I ρ op .left (r.read zero a) (r.read zero b) f) p) ∧
        (∀ p ∈ res.1.2, k.Denotes I ρ
          (BinaryPartials g I ρ op .right (r.read zero a) (r.read zero b) f) p)) ∧
        Follows k I ρ zero inputs (r.write result f) res.2
          (d.step I freeDual (.binary op a b result)) := by
  have hx := hd.value.read a
  have hy := hd.value.read b
  refine (yields_contribute (hzero.grow hgrow)
    (yields_binaryPartials op .left hx.has hy.has hf.has hgrow) hleft ⟨_, _, _, hx, hy, hf, rfl⟩
    ((hd.derivative.read a).grow hgrow)
    (show h.Reads I ρ ((none : Option ScalarId).getD zero) 0 from hzero.grow hgrow)).bind fun res k hhk hres => ?_
  have hgk := hgrow.trans hhk
  refine (yields_contribute (hzero.grow hgk)
    (yields_binaryPartials op .right hx.has hy.has hf.has hgk)
    (fun p hp => (hright p hp).grow hhk) ⟨_, _, _, hx, hy, hf, rfl⟩
    ((hd.derivative.read b).grow hgk) hres.2).bind fun res' l hkl hres' => ?_
  refine yields_pure ⟨⟨fun p hp => (hres.1 p hp).grow hkl, hres'.1⟩, ?_⟩
  have hgl := hgk.trans hkl
  refine (hd.grow hgl).write (x := I.dual.binary op (d.run.read 0 a) (d.run.read 0 b)) ?_ ?_ result
  · rw [Interpretation.fst_dual_binary]
    exact hf.grow hgl
  · rw [Interpretation.snd_dual_binary]
    exact hres'.2.congr fun _ => by rw [zero_add]

/-! ### Sweeps -/

/-- The state of a sweep is read as one run over dual numbers for each direction. -/
structure Parallel (g : ScalarGraph) (I : Interpretation V) (ρ : ScalarId → V) (zero : ScalarId)
    (inputs : Grid ScalarId) (free : Array ScalarId) (freeDual : Array (DualNumber V))
    (state : Run ScalarId × List (Tangent ScalarId)) (ds : List (DualRun V)) : Prop where
  given : Given g I ρ zero inputs free freeDual
  has : ∀ k, g.Has (state.1.read zero k)
  follows : List.Forall₂ (Follows g I ρ zero inputs state.1) state.2 ds

theorem has_read_write {r : Run ScalarId} (hr : ∀ k, g.Has (r.read zero k)) {v : ScalarId}
    (hv : g.Has v) (slot k : Nat) : g.Has ((r.write slot v).read zero k) := by
  rw [Run.read_write]
  split
  · exact hv
  · exact hr k

/-- Directions that are each treated alike stay parallel. -/
theorem forall₂_map_step {r' : Run ScalarId} {instr : ScalarInstr}
    {f : Tangent ScalarId → Tangent ScalarId} {tangents : List (Tangent ScalarId)}
    {ds : List (DualRun V)} (hds : List.Forall₂ (Follows g I ρ zero inputs r) tangents ds)
    (hstep : ∀ t d, Follows g I ρ zero inputs r t d →
      Follows h I ρ zero inputs r' (f t) (d.step I freeDual instr)) :
    List.Forall₂ (Follows h I ρ zero inputs r') (tangents.map f)
      (ds.map (·.step I freeDual instr)) := by
  rw [List.forall₂_map_left_iff, List.forall₂_map_right_iff]
  exact hds.imp hstep

variable (freeDual) in
theorem yields_inTurn_pushUnary (op : UnaryOp) {f : ScalarId} {a result : Nat}
    {tangents : List (Tangent ScalarId)} {ds : List (DualRun V)} (hzero : g.Reads I ρ zero 0)
    (hds : List.Forall₂ (fun t d => Follows g I ρ zero inputs r t d ∧
      g.Reads I ρ f (I.unary op (d.run.read 0 a).fst)) tangents ds) :
    Yields (inTurn (pushUnary scalarAlgebra zero op (r.read zero a) f a result) none tangents) g
      fun tangents' h => List.Forall₂ (Follows h I ρ zero inputs (r.write result f)) tangents'
        (ds.map (·.step I freeDual (.unary op a result))) :=
  Yields.inTurn
    (M := fun made k => ∀ p ∈ made, k.Denotes I ρ (UnaryPartials g I ρ op (r.read zero a) f) p)
    (R := fun t d _ => Follows g I ρ zero inputs r t d ∧
      g.Reads I ρ f (I.unary op (d.run.read 0 a).fst))
    (S := fun t d k => Follows k I ρ zero inputs (r.write result f) t d)
    (fun _ _ _ _ _ hd => hd) (fun _ _ _ _ hkl hd => hd.grow hkl)
    (fun _ _ _ _ hgh hmade hd => yields_pushUnary op hgh hzero hd.1 hd.2 hmade)
    (by simp) hds

variable (freeDual) in
theorem yields_inTurn_pushBinary (op : BinaryOp) {f : ScalarId} {a b result : Nat}
    {tangents : List (Tangent ScalarId)} {ds : List (DualRun V)} (hzero : g.Reads I ρ zero 0)
    (hds : List.Forall₂ (fun t d => Follows g I ρ zero inputs r t d ∧
      g.Reads I ρ f (I.binary op (d.run.read 0 a).fst (d.run.read 0 b).fst)) tangents ds) :
    Yields (inTurn (pushBinary scalarAlgebra zero op (r.read zero a) (r.read zero b) f a b result)
        (none, none) tangents) g
      fun tangents' h => List.Forall₂ (Follows h I ρ zero inputs (r.write result f)) tangents'
        (ds.map (·.step I freeDual (.binary op a b result))) :=
  Yields.inTurn
    (M := fun made k =>
      (∀ p ∈ made.1, k.Denotes I ρ
        (BinaryPartials g I ρ op .left (r.read zero a) (r.read zero b) f) p) ∧
      (∀ p ∈ made.2, k.Denotes I ρ
        (BinaryPartials g I ρ op .right (r.read zero a) (r.read zero b) f) p))
    (R := fun t d _ => Follows g I ρ zero inputs r t d ∧
      g.Reads I ρ f (I.binary op (d.run.read 0 a).fst (d.run.read 0 b).fst))
    (S := fun t d k => Follows k I ρ zero inputs (r.write result f) t d)
    (fun _ _ _ _ _ hd => hd) (fun _ _ _ _ hkl hd => hd.grow hkl)
    (fun _ _ _ _ hgh hmade hd =>
      yields_pushBinary op hgh hzero hd.1 hd.2 hmade.1 hmade.2)
    (by simp) hds

/-- **One instruction of a sweep** is one instruction of each of the runs over dual numbers. -/
theorem yields_forwardStep {state : Run ScalarId × List (Tangent ScalarId)} {ds : List (DualRun V)}
    (hstate : Parallel g I ρ zero inputs free freeDual state ds) (instr : ScalarInstr) :
    Yields (forwardStep scalarAlgebra zero inputs free state instr) g fun state' h =>
      Parallel h I ρ zero inputs free freeDual state' (ds.map (·.step I freeDual instr)) := by
  obtain ⟨r, tangents⟩ := state
  obtain ⟨hgiven, hhas, hfollows⟩ := hstate
  cases instr with
  | input i k result =>
    refine yields_pure ⟨hgiven, has_read_write hhas (hgiven.input i k) result, ?_⟩
    refine forall₂_map_step hfollows fun t d hd => ?_
    exact hd.write (hd.input i k) (hd.seed i k) result
  | output i k a =>
    refine yields_pure ⟨hgiven, hhas, forall₂_map_step hfollows fun t d hd => ?_⟩
    exact ⟨hd.input, hd.seed, hd.value.store (hd.value.read a) i k,
      hd.derivative.store (hd.derivative.read a) i k⟩
  | free k result =>
    refine yields_pure ⟨hgiven, has_read_write hhas (hgiven.free k).has result, ?_⟩
    refine forall₂_map_step hfollows fun t d hd => ?_
    refine hd.write (hgiven.free k) ?_ result
    rw [hgiven.fixed k]
    exact hgiven.readsZero
  | constant v result =>
    refine (yields_literal (I := I) (ρ := ρ) v).bind fun e h hgh he => ?_
    refine yields_pure ⟨hgiven.grow hgh,
      has_read_write (fun k => (hhas k).grow hgh) he.has result, ?_⟩
    refine forall₂_map_step hfollows fun t d hd => ?_
    exact (hd.grow hgh).write (x := I.dual.literal v) he (hgiven.readsZero.grow hgh) result
  | unary op a result =>
    refine (yields_unary (I := I) (ρ := ρ) op (hhas a)).bind fun f h hgh hf => ?_
    have hgiven' := hgiven.grow hgh
    refine (yields_inTurn_pushUnary freeDual op hgiven'.readsZero
      (hfollows.imp fun _ _ hd => ⟨hd.grow hgh, hf.2 _ (hd.value.read a)⟩)).bind fun tangents' k hhk hds => ?_
    exact yields_pure ⟨hgiven'.grow hhk,
      has_read_write (fun j => (hhas j).grow (hgh.trans hhk)) (hf.1.grow hhk) result, hds⟩
  | binary op a b result =>
    refine (yields_binary (I := I) (ρ := ρ) op (hhas a) (hhas b)).bind fun f h hgh hf => ?_
    have hgiven' := hgiven.grow hgh
    refine (yields_inTurn_pushBinary freeDual op hgiven'.readsZero
      (hfollows.imp fun _ _ hd => ⟨hd.grow hgh, hf.2 _ _ (hd.value.read a) (hd.value.read b)⟩)).bind
        fun tangents' k hhk hds => ?_
    exact yields_pure ⟨hgiven'.grow hhk,
      has_read_write (fun j => (hhas j).grow (hgh.trans hhk)) (hf.1.grow hhk) result, hds⟩

theorem foldl_map_step (instrs : List ScalarInstr) (ds : List (DualRun V)) :
    instrs.foldl (fun ds instr => ds.map (·.step I freeDual instr)) ds
      = ds.map fun d =>
        { d with run := instrs.foldl (execute I.dual.algebra 0 d.inputs freeDual) d.run } := by
  induction instrs generalizing ds with
  | nil => simp
  | cons instr rest ih =>
    rw [List.foldl_cons, ih, List.map_map]
    rfl

/-- The inputs of a sweep and the seed of a direction, read over dual numbers. -/
structure Seeded (g : ScalarGraph) (I : Interpretation V) (ρ : ScalarId → V)
    (inputs seed : Bundle ScalarId) (dual : Bundle (DualNumber V)) : Prop where
  value : Bundle.Related (fun e (x : DualNumber V) => g.Reads I ρ e x.fst) inputs dual
  derivative : Bundle.Related (fun e (x : DualNumber V) => g.Reads I ρ e x.snd) seed dual

theorem Seeded.grow {inputs seed : Bundle ScalarId} {dual : Bundle (DualNumber V)}
    (hseed : Seeded g I ρ inputs seed dual) (hgrow : g.Grows h) :
    Seeded h I ρ inputs seed dual :=
  ⟨hseed.value.imp fun _ _ he => he.grow hgrow, hseed.derivative.imp fun _ _ he => he.grow hgrow⟩

/-- The free symbols of a tape, which do not move, read over dual numbers. -/
def FreeReads (g : ScalarGraph) (I : Interpretation V) (ρ : ScalarId → V) (free : List ScalarId)
    (freeDual : List (DualNumber V)) : Prop :=
  List.Forall₂ (fun e (x : DualNumber V) => g.Reads I ρ e x.fst ∧ x.snd = 0) free freeDual

theorem FreeReads.getD {free : List ScalarId} {freeDual : List (DualNumber V)}
    (hfree : FreeReads g I ρ free freeDual) (hzero : g.Reads I ρ zero 0) (k : Nat) :
    g.Reads I ρ (free.getD k zero) (freeDual.getD k 0).fst ∧ (freeDual.getD k 0).snd = 0 := by
  induction hfree generalizing k with
  | nil => exact ⟨hzero, rfl⟩
  | cons hx _ ih =>
    cases k with
    | zero => exact hx
    | succ k => exact ih k

theorem FreeReads.grow {free : List ScalarId} {freeDual : List (DualNumber V)}
    (hfree : FreeReads g I ρ free freeDual) (hgrow : g.Grows h) :
    FreeReads h I ρ free freeDual :=
  hfree.imp fun _ _ hx => ⟨hx.1.grow hgrow, hx.2⟩

theorem has_getD {inputs : Bundle ScalarId} (hinputs : ∀ row ∈ inputs, ∀ e ∈ row, g.Has e)
    (hzero : g.Has zero) (i k : Nat) : g.Has ((inputs.getD i []).getD k zero) := by
  simp only [List.getD_eq_getElem?_getD]
  cases hrow : inputs[i]? with
  | none => simpa using hzero
  | some row =>
    cases he : row[k]? with
    | none => simpa [he] using hzero
    | some e =>
      simpa [he] using hinputs row (List.mem_of_getElem? hrow) e (List.mem_of_getElem? he)

/-- **Forward sweeps.** For each direction the derivatives of the outputs are read as the derivatives
that a run over dual numbers has. -/
theorem yields_forward (tape : ScalarTape) {inputs : Bundle ScalarId} {free : List ScalarId}
    {seeds : List (Bundle ScalarId)} {duals : List (Bundle (DualNumber V))}
    {freeDual : List (DualNumber V)} (counts : List Nat)
    (hinputs : ∀ row ∈ inputs, ∀ e ∈ row, g.Has e)
    (hseeds : List.Forall₂ (Seeded g I ρ inputs) seeds duals)
    (hfree : FreeReads g I ρ free freeDual) :
    Yields (tape.forward scalarAlgebra inputs free seeds counts) g fun res h =>
      List.Forall₂ (fun tangent dual =>
        Bundle.Related (fun e (x : DualNumber V) => h.Reads I ρ e x.snd) tangent
          (tape.finish I.dual.algebra dual freeDual counts).outputs.toBundle) res.2 duals := by
  refine (yields_literal (I := I) (ρ := ρ) 0.0).bind fun zero h hgh hliteral => ?_
  have hzero : h.Reads I ρ zero 0 := hliteral.congr fun _ => I.literal_zero
  have hdualZero : I.dual.algebra.constant 0.0 = 0 := I.dual.literal_zero
  have hgiven : Given h I ρ zero (.ofBundle inputs) free.toArray freeDual.toArray := by
    refine ⟨hzero, fun i k => ?_, fun k => ?_, fun k => ?_⟩
    · rw [Grid.read_ofBundle]
      exact has_getD (fun row hrow e he => (hinputs row hrow e he).grow hgh) hzero.has i k
    · simpa using (hfree.grow hgh).getD hzero k |>.1
    · simpa using (hfree.grow hgh).getD hzero k |>.2
  have hstart : Parallel h I ρ zero (.ofBundle inputs) free.toArray freeDual.toArray
      (.start zero tape.workSize counts,
        seeds.map fun seed => ⟨.ofBundle seed, .start zero tape.workSize counts⟩)
      (duals.map fun dual => ⟨.ofBundle dual, .start 0 tape.workSize counts⟩) := by
    refine ⟨hgiven, fun k => by simpa using hzero.has, ?_⟩
    rw [List.forall₂_map_left_iff, List.forall₂_map_right_iff]
    refine hseeds.imp fun seed dual hseed => ?_
    have hseed' := hseed.grow hgh
    refine ⟨fun i k => ?_, fun i k => ?_, .start (by exact hzero) _ _,
      .start (by exact hzero) _ _⟩
    · rw [Grid.read_ofBundle, Grid.read_ofBundle]
      exact hseed'.value.getD hzero i k
    · rw [Grid.read_ofBundle, Grid.read_ofBundle]
      exact hseed'.derivative.getD hzero i k
  have hloop := Yields.foldlM (E := fun i j (_ : ScalarGraph) => i = j)
    (R := fun state ds k =>
      Parallel k I ρ zero (.ofBundle inputs) free.toArray freeDual.toArray state ds)
    (fun _ _ _ _ _ hij => hij)
    (fun i j state ds k hij hstate => by subst hij; exact yields_forwardStep hstate i)
    (List.forall₂_same.mpr fun (i : ScalarInstr) (_ : i ∈ tape.instrs) => rfl) hstart
  refine hloop.bind fun state k hhk hstate => yields_pure ?_
  rw [foldl_map_step, List.map_map] at hstate
  have hend := hstate.follows
  rw [List.forall₂_map_right_iff] at hend
  rw [List.forall₂_map_left_iff]
  refine hend.imp fun t dual hd => ?_
  rw [finish, hdualZero]
  exact .of_grids hd.derivative.width hd.derivative.stored

end ScalarTape

end Fluxion
