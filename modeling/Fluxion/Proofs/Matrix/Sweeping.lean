import Fluxion.Proofs.Lists
import Fluxion.Proofs.Matrix.Building
import Fluxion.Proofs.Matrix.Compile
import Fluxion.Proofs.Matrix.Routines
import Fluxion.Sweep.Matrix

/-!
# Sweeps keep matrix graphs well typed

A sweep makes gathers, scatters and embedded calls with maps that it takes from the nodes of the tape,
so it relies on the derivative of an expression being on the pattern of the expression. This is the
invariant of both directions: forward, since a derivative is brought to the pattern before it is noted
down, and backward, since every term is, and a sum of two matrices on one pattern stays there.

## Main definitions

* `MatrixBuilder.Safe` — requests that keep every well-typed graph well typed
* `Sensitivities.Typed` — every derivative is on the pattern of its expression

## Main results

* `MatrixTape.keeps_forward`, `MatrixTape.keeps_reverse` — **sweeps keep graphs well typed**
-/

namespace Fluxion

/-! ### Requests without conditions -/

namespace MatrixBuilder

variable {α β : Type}

/-- A request that keeps every well-typed graph well typed. -/
def Safe (x : MatrixBuilder α) : Prop := ∀ g, Keeps x g Something

theorem safe_pure (a : α) : Safe (pure a : MatrixBuilder α) := fun _ => keeps_pure trivial

theorem Safe.bind {x : MatrixBuilder α} {f : α → MatrixBuilder β} (hx : Safe x)
    (hf : ∀ a, Safe (f a)) : Safe (x >>= f) :=
  fun g => (hx g).bind fun a h _ _ => hf a h

theorem safe_scalar (v : Binary64) : Safe (scalar v) := fun _ => (keeps_constant _).something

theorem safe_unary (op : UnaryOp) (a : MatrixId) : Safe (unary op a) :=
  fun _ => (keeps_unary op a).something

theorem safe_binary (op : BinaryOp) (a b : MatrixId) : Safe (binary op a b) :=
  fun _ => (keeps_binary op a b).something

theorem closed_safe : Closed fun _ => Safe :=
  ⟨safe_pure, Safe.bind, safe_scalar, safe_unary, safe_binary⟩

theorem safe_unaryPartial (op : UnaryOp) (x e : MatrixId) :
    Safe (unaryPartial elementwiseAlgebra op x e) :=
  closed_safe.unaryPartial op x e

theorem safe_binaryPartial (op : BinaryOp) (side : Side) (x y e : MatrixId) :
    Safe (binaryPartial elementwiseAlgebra op side x y e) :=
  closed_safe.binaryPartial op side x y e

theorem Safe.onDemand {made : Option α} {make : MatrixBuilder α} (hmake : Safe make) :
    Safe (Fluxion.onDemand made make) := by
  cases made with
  | some a => exact safe_pure a
  | none => exact hmake

end MatrixBuilder

/-! ### Derivatives on patterns -/

theorem elementwisePattern_add_self (p : Pattern) : elementwisePattern .add p p = .ok p := by
  rw [elementwisePattern]
  simp only [dif_pos]
  rw [if_neg (by decide), if_neg (by decide), Pattern.union_self]

/-- A sum of two matrices on one pattern stays on it. -/
theorem MatrixBuilder.keeps_add {g : MatrixGraph} {a b : MatrixId} {p : Pattern} (ha : On p a g)
    (hb : On p b g) : Keeps (binary .add a b) g (On p) := by
  refine (keeps_binary .add a b).imp fun e h _ he => ?_
  obtain ⟨pa, pb, q, hpa, hpb, hq, he⟩ := he
  obtain rfl := Option.some.inj (ha.symm.trans hpa)
  obtain rfl := Option.some.inj (hb.symm.trans hpb)
  rw [elementwisePattern_add_self] at hq
  obtain rfl := Except.ok.inj hq
  exact he

namespace Sensitivities

variable {known : Sensitivities} {g h : MatrixGraph} {e d : MatrixId} {p : Pattern}

/-- Every derivative is on the pattern of the expression that it belongs to. -/
def Typed (known : Sensitivities) (g : MatrixGraph) : Prop :=
  ∀ e d, known.of? e = some d → ∃ p, g.pattern? e = some p ∧ g.pattern? d = some p

theorem of?_note (known : Sensitivities) (e d x : MatrixId) :
    (known.note e d).of? x = if x = e then some d else known.of? x := by
  rw [of?, note, NumberMap.find?_insert]
  by_cases hx : x = e
  · rw [if_pos hx, if_pos (congrArg MatrixId.index hx)]
  · rw [if_neg hx, if_neg fun hindex => hx (by cases x; cases e; exact congrArg _ hindex)]
    rfl

theorem typed_empty (g : MatrixGraph) : Typed .empty g := by
  intro e d hd
  rw [of?, NumberMap.find?_empty] at hd
  contradiction

theorem Typed.grow (hk : known.Typed g) (hgrow : g.Grows h) : known.Typed h := by
  intro e d hd
  obtain ⟨p, he, hd⟩ := hk e d hd
  exact ⟨p, hgrow.pattern? he, hgrow.pattern? hd⟩

theorem lasts_typed : MatrixBuilder.Lasts Typed := fun _ _ _ hgrow hk => hk.grow hgrow

theorem Typed.note (hk : known.Typed g) (he : g.pattern? e = some p) (hd : g.pattern? d = some p) :
    (known.note e d).Typed g := by
  intro x t ht
  rw [of?_note] at ht
  split at ht
  · rename_i hx
    obtain rfl := Option.some.inj ht
    exact ⟨p, hx ▸ he, hd⟩
  · exact hk x t ht

theorem Typed.on (hk : known.Typed g) (hd : known.of? e = some d) (he : g.pattern? e = some p) :
    g.pattern? d = some p := by
  obtain ⟨q, hq, hd⟩ := hk e d hd
  obtain rfl := Option.some.inj (he.symm.trans hq)
  exact hd

end Sensitivities

/-- Where the nonzeros of argument `i` are that a gather takes. -/
def GatherMap.targets (map : GatherMap) (i : Nat) : ScatterMap :=
  map.map fun entry => entry.bind fun (j, k) => if j = i then some k else none

theorem GatherMap.lt_of_mem_targets {map : GatherMap} {g : MatrixGraph} {arguments : List MatrixId}
    (hmap : g.Reaches arguments map) {i k : Nat} {a : MatrixId} (ha : arguments[i]? = some a)
    (hk : some k ∈ map.targets i) : ∃ q, g.pattern? a = some q ∧ k < q.nnz := by
  obtain ⟨entry, hentry, htarget⟩ := List.mem_map.mp hk
  obtain ⟨⟨j, l⟩, rfl, hjl⟩ := Option.bind_eq_some_iff.mp htarget
  obtain ⟨rfl, hkl⟩ : j = i ∧ some l = some k := by simpa using hjl
  obtain rfl := Option.some.inj hkl
  obtain ⟨b, r, hb, hr, hlt⟩ := hmap j l hentry
  obtain rfl := Option.some.inj (hb.symm.trans ha)
  exact ⟨r, hr, hlt⟩

namespace MatrixTape

open MatrixBuilder Sensitivities

variable {known : Sensitivities} {g : MatrixGraph} {x y a e t s : MatrixId} {p q : Pattern}

/-! ### Forward -/

theorem keeps_record (hk : known.Typed g) (he : g.pattern? e = some p) (t : MatrixId) :
    Keeps (record e p known t) g Typed :=
  (keeps_project t p).bind fun _ _ hgh hd =>
    keeps_pure ((hk.grow hgh).note (hgh.pattern? he) hd)

theorem keeps_pushUnary (hk : known.Typed g) (he : g.pattern? e = some p) (op : UnaryOp)
    (x : MatrixId) (made : Option MatrixId) :
    Keeps (pushUnary op x e p made known) g fun r => Typed r.2 := by
  rw [pushUnary]
  split
  · exact keeps_pure hk
  · rename_i tx _
    refine ((safe_unaryPartial op x e).onDemand g).bind fun d h hgh _ => ?_
    refine (safe_binary .mul d tx h).bind fun t k hhk _ => ?_
    refine (keeps_broadcast t p).bind fun t' l hkl ht' => keeps_pure ?_
    have hgl := (hgh.trans hhk).trans hkl
    exact (hk.grow hgl).note (hgl.pattern? he) ht'

theorem safe_contribute (op : BinaryOp) (side : Side) (x y e : MatrixId) (p : Pattern)
    (made moved sum : Option MatrixId) : Safe (contribute op side x y e p made moved sum) := by
  cases moved with
  | none => exact safe_pure _
  | some t =>
    refine (safe_binaryPartial op side x y e).onDemand.bind fun d => ?_
    refine (safe_binary .mul d t).bind fun term => ?_
    refine Safe.bind (fun g => (keeps_broadcast term p).something) fun term => ?_
    cases sum with
    | none => exact safe_pure _
    | some s => exact (safe_binary .add s term).bind fun _ => safe_pure _

theorem keeps_pushBinary (hk : known.Typed g) (he : g.pattern? e = some p) (op : BinaryOp)
    (x y : MatrixId) (made : Option MatrixId × Option MatrixId) :
    Keeps (pushBinary op x y e p made known) g fun r => Typed r.2 := by
  rw [pushBinary]
  refine (safe_contribute op .left x y e p _ _ _ g).bind fun left h hgh _ => ?_
  refine (safe_contribute op .right x y e p _ _ _ h).bind fun right k hhk _ => ?_
  have hgk := hgh.trans hhk
  dsimp only
  split
  · exact keeps_pure (hk.grow hgk)
  · exact (keeps_record (hk.grow hgk) (hgk.pattern? he) _).bind fun _ _ _ h => keeps_pure h

theorem safe_product (a b : MatrixId) : Safe (product a b) := fun _ => (keeps_product a b).something

theorem safe_optional {f : MatrixId → MatrixBuilder MatrixId} (hf : ∀ t, Safe (f t))
    (moved : Option MatrixId) : Safe (moved.mapM f) := by
  cases moved with
  | none => exact safe_pure none
  | some t => exact (hf t).bind fun d => safe_pure (some d)

theorem keeps_pushProduct (hk : known.Typed g) (he : g.pattern? e = some p) (x y : MatrixId) :
    Keeps (pushProduct x y e p known) g Typed := by
  rw [pushProduct]
  refine (safe_optional (fun t => safe_product t y) _ g).bind fun left h hgh _ => ?_
  refine (safe_optional (fun t => safe_product x t) _ h).bind fun right k hhk _ => ?_
  have hgk := hgh.trans hhk
  split
  · exact keeps_pure (hk.grow hgk)
  · exact keeps_record (hk.grow hgk) (hgk.pattern? he) _
  · exact keeps_record (hk.grow hgk) (hgk.pattern? he) _
  · refine (safe_binary .add _ _ k).bind fun t l hkl _ => ?_
    exact keeps_record ((hk.grow hgk).grow hkl) (hkl.pattern? (hgk.pattern? he)) t

/-- The derivatives of the arguments that move, with anything for the others, have what the entries
read that are kept. -/
theorem reaches_moved {arguments : List MatrixId} {map : GatherMap} (hk : known.Typed g)
    (hmap : g.Reaches arguments map) (zero : MatrixId) :
    g.Reaches ((arguments.map known.of?).map (·.getD zero))
      (map.map fun entry => entry.filter fun (i, _) =>
        ((arguments.map known.of?).getD i none).isSome) := by
  intro i k hik
  obtain ⟨entry, hentry, hfilter⟩ := List.mem_map.mp hik
  obtain ⟨rfl, hmoved⟩ := Option.filter_eq_some_iff.mp hfilter
  obtain ⟨a, q, ha, hq, hlt⟩ := hmap i k hentry
  have hget : (arguments.map known.of?)[i]? = some (known.of? a) := by rw [List.getElem?_map, ha]; rfl
  have hmoved : ((arguments.map known.of?).getD i none).isSome = true := hmoved
  rw [List.getD_eq_getElem?_getD, hget, Option.getD_some] at hmoved
  obtain ⟨t, ht⟩ := Option.isSome_iff_exists.mp hmoved
  refine ⟨t, q, ?_, hk.on ht hq, hlt⟩
  rw [List.getElem?_map, hget, ht]
  rfl

theorem keeps_pushGather {arguments : List MatrixId} {map : GatherMap} (hk : known.Typed g)
    (he : g.pattern? e = some p) (hmap : g.Gathers arguments map p) :
    Keeps (pushGather arguments map e p known) g Typed := by
  rw [pushGather]
  dsimp only
  split
  · exact keeps_pure hk
  · refine (keeps_fill .scalar 0.0).bind fun zero h hgh _ => ?_
    have hreaches := reaches_moved (hk.grow hgh) (hmap.reaches.grow hgh.pattern?) zero
    refine (keeps_gather ((List.length_map _).trans hmap.length) hreaches).bind fun t k hhk ht => ?_
    have hgk := hgh.trans hhk
    exact keeps_pure ((hk.grow hgk).note (hgk.pattern? he) ht)

theorem keeps_pushScatter {map : ScatterMap} (hk : known.Typed g) (he : g.pattern? e = some p)
    (ha : g.pattern? a = some q) (hlength : map.length = q.nnz)
    (htargets : ∀ k, some k ∈ map → k < p.nnz) :
    Keeps (match known.of? a with
      | none => pure known
      | some t => return known.note e (← scatter t map p)) g Typed := by
  split
  · exact keeps_pure hk
  · rename_i t ht
    refine (keeps_scatter (hk.on ht ha) hlength htargets).bind fun s h hgh hs => ?_
    exact keeps_pure ((hk.grow hgh).note (hgh.pattern? he) hs)

theorem keeps_movement (hk : known.Typed g) (ha : g.pattern? a = some p) :
    Keeps (movement known a) g fun t h => ∃ q, h.pattern? a = some q ∧ h.pattern? t = some q := by
  rw [movement]
  split
  · rename_i t ht
    exact keeps_pure ⟨p, ha, hk.on ht ha⟩
  · refine keeps_patternOf_bind fun q hq => ?_
    exact (keeps_fill q 0.0).imp fun t h hgh ht => ⟨q, hgh.pattern? hq, ht⟩

theorem map_pattern?_eq {as bs : List MatrixId}
    (h : List.Forall₂ (fun a b => ∃ p, g.pattern? a = some p ∧ g.pattern? b = some p) as bs) :
    bs.map g.pattern? = as.map g.pattern? := by
  induction h with
  | nil => rfl
  | cons hab _ ih =>
    obtain ⟨p, ha, hb⟩ := hab
    rw [List.map_cons, List.map_cons, ih, ha, hb]

theorem exists_pattern?_of_map {arguments : List MatrixId} {ps : List Pattern}
    (h : arguments.map g.pattern? = ps.map some) (ha : a ∈ arguments) :
    ∃ p, g.pattern? a = some p := by
  have hmem : g.pattern? a ∈ ps.map some := h ▸ List.mem_map_of_mem ha
  obtain ⟨p, -, hp⟩ := List.mem_map.mp hmem
  exact ⟨p, hp.symm⟩

theorem keeps_movements {arguments : List MatrixId} {ps : List Pattern} (hk : known.Typed g)
    (harguments : arguments.map g.pattern? = ps.map some) :
    Keeps (arguments.mapM (movement known)) g fun ts h => ts.map h.pattern? = ps.map some := by
  have hrun : Keeps (arguments.mapM (movement known)) g fun ts h =>
      List.Forall₂ (fun a t => ∃ q, h.pattern? a = some q ∧ h.pattern? t = some q) arguments ts := by
    refine Keeps.mapM (S := fun a t h => ∃ q, h.pattern? a = some q ∧ h.pattern? t = some q) ?_ ?_
    · rintro a t g h hgh ⟨q, ha, ht⟩
      exact ⟨q, hgh.pattern? ha, hgh.pattern? ht⟩
    · intro a ha h hgh
      obtain ⟨p, hp⟩ := exists_pattern?_of_map harguments ha
      exact keeps_movement (hk.grow hgh) (hgh.pattern? hp)
  refine hrun.imp fun ts h hgh hts => ?_
  rw [map_pattern?_eq hts]
  exact MatrixNode.map_pattern?_grow hgh.pattern? harguments

theorem keeps_derivativeRoutine (d : Except Error FunctionObject) :
    Keeps (derivativeRoutine d) g fun r _ => ∃ o, d = .ok o ∧ o.routine = .ok r := by
  refine keeps_ofExcept_bind fun o ho => ?_
  refine (keeps_rememberDerived o.id).bind fun _ h _ _ => ?_
  exact keeps_ofExcept fun r hr => ⟨o, ho, hr⟩

theorem keeps_pushCall {d r : Routine} {arguments : List MatrixId} {o : Nat} (hk : known.Typed g)
    (he : g.pattern? e = some p) (hn : (MatrixNode.call r arguments o).Typed g p)
    (hin : d.inPatterns = r.inPatterns ++ r.inPatterns) (hout : d.outPatterns = r.outPatterns) :
    Keeps (pushCall d arguments o e known) g Typed := by
  cases hn with
  | call harguments ho =>
    rw [pushCall]
    split
    · exact keeps_pure hk
    · refine (keeps_movements hk harguments).bind fun moved h hgh hmoved => ?_
      have hgiven : (arguments ++ moved).map h.pattern? = d.inPatterns.map some := by
        rw [List.map_append, hmoved, MatrixNode.map_pattern?_grow hgh.pattern? harguments, hin,
          List.map_append]
      have hlt : o < d.outPatterns.length := by
        rw [hout]
        exact (List.getElem?_eq_some_iff.mp ho).1
      refine (keeps_callOutput hgiven hlt).bind fun t k hhk ht => keeps_pure ?_
      have hgk := hgh.trans hhk
      refine (hk.grow hgk).note (hgk.pattern? he) ?_
      rwa [Routine.outPattern, hout, List.getD_eq_getElem?_getD, ho] at ht

/-! ### Several directions -/

/-- There are `count` directions, each with derivatives on patterns. -/
def AllTyped (count : Nat) (directions : List Sensitivities) (g : MatrixGraph) : Prop :=
  directions.length = count ∧ ∀ known ∈ directions, known.Typed g

variable {count : Nat} {directions : List Sensitivities}

theorem AllTyped.grow {h : MatrixGraph} (hds : AllTyped count directions g) (hgrow : g.Grows h) :
    AllTyped count directions h :=
  ⟨hds.1, fun known hk => (hds.2 known hk).grow hgrow⟩

theorem allTyped_empty {α : Type} (as : List α) (g : MatrixGraph) :
    AllTyped as.length (as.map fun _ => .empty) g := by
  refine ⟨List.length_map _, fun known hk => ?_⟩
  obtain ⟨_, -, rfl⟩ := List.mem_map.mp hk
  exact typed_empty g

theorem keeps_mapM {α : Type} {as : List α} {f : α → MatrixBuilder Sensitivities}
    (step : ∀ a ∈ as, ∀ h, g.Grows h → Keeps (f a) h Typed) :
    Keeps (as.mapM f) g (AllTyped as.length) :=
  (Keeps.mapM (S := fun _ => Typed) (fun _ _ _ _ hgh hk => Typed.grow hk hgh) step).imp
    fun _ _ _ hbs => ⟨hbs.length_eq.symm, forall_of_forall₂ hbs⟩

theorem keeps_directions {f : Sensitivities → MatrixBuilder Sensitivities}
    (hds : AllTyped count directions g)
    (step : ∀ known h, g.Grows h → known.Typed h → Keeps (f known) h Typed) :
    Keeps (directions.mapM f) g (AllTyped count) :=
  hds.1 ▸ keeps_mapM fun known hk h hgh => step known h hgh ((hds.2 known hk).grow hgh)

theorem keeps_inTurn {σ : Type} {f : σ → Sensitivities → MatrixBuilder (σ × Sensitivities)} (s : σ)
    (hds : AllTyped count directions g)
    (step : ∀ s known h, g.Grows h → known.Typed h → Keeps (f s known) h fun r => Typed r.2) :
    Keeps (inTurn f s directions) g (AllTyped count) :=
  (Keeps.inTurn (P := Typed) (S := Typed) (fun _ _ _ hgh hk => hk.grow hgh)
    (fun _ _ _ hgh hk => hk.grow hgh) step hds.2).imp
    fun _ _ _ hbs => ⟨hbs.1.trans hds.1, hbs.2⟩

/-- **One node forward**, in all directions. -/
theorem keeps_forwardNode {n : MatrixNode} (hds : AllTyped count directions g)
    (he : g.pattern? e = some p) (hn : n.Typed g p) :
    Keeps (forwardNode e p directions n) g (AllTyped count) := by
  cases hn with
  | symbol _ => exact keeps_pure hds
  | constant _ => exact keeps_pure hds
  | @unary op x _ hx hdense =>
    exact keeps_inTurn none hds fun made known h hgh hk =>
      keeps_pushUnary hk (hgh.pattern? he) op x made
  | @binary op x y _ hx hy hxy =>
    exact keeps_inTurn (none, none) hds fun made known h hgh hk =>
      keeps_pushBinary hk (hgh.pattern? he) op x y made
  | @product x y _ _ hx hy hinner =>
    exact keeps_directions hds fun known h hgh hk => keeps_pushProduct hk (hgh.pattern? he) x y
  | @gather arguments map _ hmap =>
    exact keeps_directions hds fun known h hgh hk => keeps_pushGather hk (hgh.pattern? he)
      ⟨hmap.length, hmap.reaches.grow hgh.pattern?, hmap.nodup, hmap.used⟩
  | @scatter x map _ q hx hlength htargets =>
    exact keeps_directions hds fun known h hgh hk =>
      keeps_pushScatter hk (hgh.pattern? he) (hgh.pattern? hx) hlength htargets
  | @call r arguments o _ harguments ho =>
    refine (keeps_derivativeRoutine r.forwardDerivative).bind fun d h hgh hd => ?_
    obtain ⟨object, hobject, hroutine⟩ := hd
    obtain ⟨hin, hout⟩ := Routine.patterns_forwardDerivative hobject hroutine
    refine keeps_directions (hds.grow hgh) fun known k hhk hk => ?_
    have hgk := hgh.trans hhk
    exact keeps_pushCall hk (hgk.pattern? he) ((MatrixNode.Typed.call harguments ho).grow hgk) hin hout
  | @lift value guess _ hvalue hguess =>
    refine keeps_pure ⟨(List.length_map _).trans hds.1, fun known' hk' => ?_⟩
    obtain ⟨known, hk, rfl⟩ := List.mem_map.mp hk'
    have hk := hds.2 known hk
    cases ht : known.of? value with
    | none => exact hk
    | some t => exact hk.note he (hk.on ht hvalue)

theorem keeps_forwardStep {i : MatrixInstr} {seeds : List (List (Option MatrixId))}
    (hds : AllTyped seeds.length directions g) (hi : g.pattern? i.node = some i.pattern) :
    Keeps (forwardStep seeds directions i) g (AllTyped seeds.length) := by
  rw [forwardStep]
  split
  · exact keeps_pure hds
  · exact keeps_pure hds
  · exact keeps_pure hds
  · have hlength : (seeds.zip directions).length = seeds.length := by
      rw [List.length_zip, hds.1, Nat.min_self]
    refine hlength ▸ keeps_mapM ?_
    rintro ⟨seed, known⟩ hmem h hgh
    have hk := (hds.2 known (List.of_mem_zip hmem).2).grow hgh
    dsimp only
    split
    · exact keeps_pure hk
    · exact keeps_record hk (hgh.pattern? hi) _
  · refine keeps_nodeOf_bind fun n hn => keeps_of_wellTyped fun hg => ?_
    exact keeps_forwardNode hds hi (hg.typed _ n _ hn hi)

/-- What a graph has to have for sweeps over a tape: instructions carry the patterns of their
expressions. -/
def Patterned (g : MatrixGraph) (tape : MatrixTape) : Prop :=
  ∀ i ∈ tape.instrs, g.pattern? i.node = some i.pattern

theorem Resides.patterned {inputs outputs : List MatrixId} {tape : MatrixTape}
    (ht : Resides g inputs outputs tape) : Patterned g tape :=
  fun _ hi => ht.pattern?_node hi

/-- **Forward sweeps keep graphs well typed**, and every output moves on its pattern. -/
theorem keeps_forward {tape : MatrixTape} (ht : Patterned g tape) (outputs : List MatrixId)
    (seeds : List (List (Option MatrixId))) :
    Keeps (tape.forward outputs seeds) g fun moved h =>
      ∃ directions, AllTyped seeds.length directions h ∧
        moved = directions.map fun known => outputs.map fun e => known.of? e := by
  rw [forward]
  refine Keeps.bind (Keeps.foldlM (S := AllTyped seeds.length) ?_ (allTyped_empty seeds g))
    fun directions h _ hds => keeps_pure ⟨directions, hds, rfl⟩
  intro directions h i hi hgh hds
  exact keeps_forwardStep hds (hgh.pattern? (ht i hi))

/-! ### Reverse -/

theorem keeps_accumulate (hk : known.Typed g) (a t : MatrixId) :
    Keeps (accumulate known a t) g Typed := by
  refine keeps_patternOf_bind fun p hp => ?_
  refine (keeps_project t p).bind fun t h hgh ht => ?_
  have hk := hk.grow hgh
  have ha := hgh.pattern? hp
  split
  · exact keeps_pure (hk.note ha ht)
  · rename_i s hs
    refine (keeps_add (hk.on hs ha) ht).bind fun sum k hhk hsum => ?_
    exact keeps_pure ((hk.grow hhk).note (hhk.pattern? ha) hsum)

theorem keeps_pullUnary (hk : known.Typed g) (op : UnaryOp) (x e s : MatrixId)
    (made : Option MatrixId) :
    Keeps (pullUnary op x e s made known) g fun r => Typed r.2 := by
  refine ((safe_unaryPartial op x e).onDemand g).bind fun d h hgh _ => ?_
  refine (safe_binary .mul d s h).bind fun t k hhk _ => ?_
  exact (keeps_accumulate (hk.grow (hgh.trans hhk)) x t).bind fun _ _ _ h => keeps_pure h

theorem keeps_giveBack (hk : known.Typed g) (op : BinaryOp) (side : Side) (x y e : MatrixId)
    (p : Pattern) (s a : MatrixId) (made : Option MatrixId) :
    Keeps (giveBack op side x y e p s a made known) g fun r => Typed r.2 := by
  refine ((safe_binaryPartial op side x y e).onDemand g).bind fun d h hgh _ => ?_
  refine (safe_binary .mul d s h).bind fun t k hhk _ => ?_
  refine keeps_patternOf_bind fun q _ => ?_
  have hk := hk.grow (hgh.trans hhk)
  dsimp only
  split
  · refine (keeps_sum t).bind fun t l hkl _ => ?_
    exact (keeps_accumulate (hk.grow hkl) a t).bind fun _ _ _ h => keeps_pure h
  · rw [pure_bind]
    exact (keeps_accumulate hk a t).bind fun _ _ _ h => keeps_pure h

theorem keeps_pullBinary (hk : known.Typed g) (op : BinaryOp) (x y e : MatrixId) (p : Pattern)
    (s : MatrixId) (made : Option MatrixId × Option MatrixId) :
    Keeps (pullBinary op x y e p s made known) g fun r => Typed r.2 := by
  refine (keeps_giveBack hk op .left x y e p s x made.1).bind fun left h hgh hk => ?_
  refine (keeps_giveBack hk op .right x y e p s y made.2).bind fun right k hhk hk => ?_
  exact keeps_pure hk

theorem safe_transpose (a : MatrixId) : Safe (transpose a) := fun _ => (keeps_transpose a).something

theorem keeps_pullProduct (hk : known.Typed g) (x y s : MatrixId) :
    Keeps (pullProduct x y s known) g Typed := by
  refine (safe_transpose y g).bind fun ty h hgh _ => ?_
  refine (safe_product s ty h).bind fun tx k hhk _ => ?_
  refine (keeps_accumulate (hk.grow (hgh.trans hhk)) x tx).bind fun known l _ hk => ?_
  refine (safe_transpose x l).bind fun x' m hlm _ => ?_
  refine (safe_product x' s m).bind fun t n hmn _ => ?_
  exact keeps_accumulate (hk.grow (hlm.trans hmn)) y t

theorem keeps_pullGather {arguments : List MatrixId} {map : GatherMap} (hk : known.Typed g)
    (hmap : g.Gathers arguments map p) (hs : g.pattern? s = some p) :
    Keeps (pullGather arguments map s known) g Typed := by
  refine Keeps.foldlM (S := Typed) ?_ hk
  rintro known h ⟨a, i⟩ ha hgh hk
  refine keeps_patternOf_bind fun q hq => ?_
  refine (keeps_scatter (hgh.pattern? hs) ((List.length_map _).trans hmap.length) ?_).bind
    fun t k hhk _ => keeps_accumulate (hk.grow hhk) a t
  rw [List.mem_zipIdx_iff_getElem?] at ha
  intro k hk
  obtain ⟨r, hr, hlt⟩ := GatherMap.lt_of_mem_targets (hmap.reaches.grow hgh.pattern?) ha hk
  obtain rfl := Option.some.inj (hq.symm.trans hr)
  exact hlt

theorem keeps_pullScatter {map : ScatterMap} (hk : known.Typed g) (ha : g.pattern? a = some q)
    (hlength : map.length = q.nnz) (htargets : ∀ k, some k ∈ map → k < p.nnz)
    (hs : g.pattern? s = some p) : Keeps (pullScatter a map s known) g Typed := by
  refine keeps_patternOf_bind fun r hr => ?_
  obtain rfl := Option.some.inj (ha.symm.trans hr)
  refine (keeps_gather (by simpa [GatherMap.ofSources] using hlength)
    (GatherMap.reaches_ofSources hs htargets)).bind fun t h hgh _ => ?_
  exact keeps_accumulate (hk.grow hgh) a t

theorem keeps_weights {r : Routine} {o : Nat} (ho : r.outPatterns[o]? = some p)
    (hs : g.pattern? s = some p) :
    Keeps (weights r o s) g fun ws h => ws.map h.pattern? = r.outPatterns.map some := by
  have hrun : Keeps (weights r o s) g fun ws h =>
      List.Forall₂ (fun entry w => h.pattern? w = some entry.1) r.outPatterns.zipIdx ws := by
    refine Keeps.mapM (S := fun (entry : Pattern × Nat) w h => h.pattern? w = some entry.1)
      (fun entry w g h hgh hw => hgh.pattern? hw) ?_
    rintro ⟨q, i⟩ hmem h hgh
    rw [List.mem_zipIdx_iff_getElem?] at hmem
    dsimp only at hmem ⊢
    split
    · rename_i hi
      obtain rfl := Option.some.inj ((hi ▸ hmem).symm.trans ho)
      exact keeps_pure (hgh.pattern? hs)
    · exact keeps_fill q 0.0
  refine hrun.imp fun ws h _ hws => ?_
  have heq : ws.map h.pattern? = r.outPatterns.zipIdx.map (some ∘ Prod.fst) :=
    map_eq_map_of_forall₂ hws.flip fun _ _ _ hw => hw
  rwa [← List.map_map, List.zipIdx_map_fst] at heq

/-- Going back from an output of a routine by the reverse derivative `d`. -/
theorem keeps_pullBy {r d : Routine} {arguments : List MatrixId} {o : Nat} (hk : known.Typed g)
    (harguments : arguments.map g.pattern? = r.inPatterns.map some)
    (ho : r.outPatterns[o]? = some p) (hs : g.pattern? s = some p)
    (hin : d.inPatterns = r.inPatterns ++ r.outPatterns) (hout : d.outPatterns = r.inPatterns) :
    Keeps (do
      let given := arguments ++ (← weights r o s)
      arguments.zipIdx.foldlM (fun known (a, i) => do
        accumulate known a (← callOutput d given i)) known) g Typed := by
  refine (keeps_weights ho hs).bind fun ws h hgh hws => ?_
  have hgiven : (arguments ++ ws).map h.pattern? = d.inPatterns.map some := by
    rw [List.map_append, hws, MatrixNode.map_pattern?_grow hgh.pattern? harguments, hin,
      List.map_append]
  have hlength : arguments.length = d.outPatterns.length := by
    rw [hout, ← List.length_map (f := g.pattern?), harguments, List.length_map]
  refine Keeps.foldlM (S := Typed) ?_ (hk.grow hgh)
  rintro known l ⟨a, i⟩ ha hhl hk
  have hi : i < d.outPatterns.length := by
    rw [List.mem_zipIdx_iff_getElem?] at ha
    exact hlength ▸ (List.getElem?_eq_some_iff.mp ha).1
  refine (keeps_callOutput (MatrixNode.map_pattern?_grow hhl.pattern? hgiven) hi).bind
    fun t m hlm _ => ?_
  exact keeps_accumulate (hk.grow hlm) a t

theorem keeps_pullCall {r : Routine} {arguments : List MatrixId} {o : Nat} (hk : known.Typed g)
    (harguments : arguments.map g.pattern? = r.inPatterns.map some)
    (ho : r.outPatterns[o]? = some p) (hs : g.pattern? s = some p) :
    Keeps (pullCall r arguments o s known) g Typed := by
  refine (keeps_derivativeRoutine r.reverseDerivative).bind fun d h hgh hd => ?_
  obtain ⟨object, hobject, hroutine⟩ := hd
  obtain ⟨hin, hout⟩ := Routine.patterns_reverseDerivative hobject hroutine
  exact keeps_pullBy (hk.grow hgh) (MatrixNode.map_pattern?_grow hgh.pattern? harguments) ho
    (hgh.pattern? hs) hin hout

/-- **One node backward**, in one direction that has a derivative for it. -/
theorem keeps_pull {n : MatrixNode} (hk : known.Typed g) (hn : n.Typed g p)
    (hs : g.pattern? s = some p) (e : MatrixId) (made : Option MatrixId × Option MatrixId) :
    Keeps (pull e p n made known s) g fun r => Typed r.2 := by
  cases hn with
  | symbol _ => exact keeps_pure hk
  | constant _ => exact keeps_pure hk
  | @unary op x _ hx hdense =>
    exact (keeps_pullUnary hk op x e s made.1).bind fun _ _ _ h => keeps_pure h
  | @binary op x y _ hx hy hxy => exact keeps_pullBinary hk op x y e p s made
  | @product x y _ _ hx hy hinner =>
    exact (keeps_pullProduct hk x y s).bind fun _ _ _ h => keeps_pure h
  | gather hmap => exact (keeps_pullGather hk hmap hs).bind fun _ _ _ h => keeps_pure h
  | scatter hx hlength htargets =>
    exact (keeps_pullScatter hk hx hlength htargets hs).bind fun _ _ _ h => keeps_pure h
  | call harguments ho =>
    exact (keeps_pullCall hk harguments ho hs).bind fun _ _ _ h => keeps_pure h
  | @lift value guess _ hvalue hguess =>
    exact (keeps_accumulate hk value s).bind fun _ _ _ h => keeps_pure h

theorem keeps_reverseStep {i : MatrixInstr} {seeds : List (List (Option MatrixId))}
    (hds : AllTyped seeds.length directions g) (hi : g.pattern? i.node = some i.pattern) :
    Keeps (reverseStep seeds directions i) g (AllTyped seeds.length) := by
  rw [reverseStep]
  split
  · exact keeps_pure hds
  · exact keeps_pure hds
  · exact keeps_pure hds
  · have hlength : (seeds.zip directions).length = seeds.length := by
      rw [List.length_zip, hds.1, Nat.min_self]
    refine hlength ▸ keeps_mapM ?_
    rintro ⟨seed, known⟩ hmem h hgh
    have hk := (hds.2 known (List.of_mem_zip hmem).2).grow hgh
    dsimp only
    split
    · exact keeps_pure hk
    · exact keeps_accumulate hk _ _
  · refine keeps_nodeOf_bind fun n hn => keeps_of_wellTyped fun hg => ?_
    refine keeps_inTurn (none, none) hds fun made known h hgh hk => ?_
    split
    · exact keeps_pure hk
    · rename_i s hs
      have hn := (hg.typed _ n _ hn hi).grow hgh
      exact keeps_pull hk hn (hk.on hs (hgh.pattern? hi)) _ made

/-- **Reverse sweeps keep graphs well typed**, and derivatives in inputs are on their patterns. -/
theorem keeps_reverse {tape : MatrixTape} (ht : Patterned g tape) (inputs : List MatrixId)
    (seeds : List (List (Option MatrixId))) :
    Keeps (tape.reverse inputs seeds) g fun adjoints h =>
      ∃ directions, AllTyped seeds.length directions h ∧
        adjoints = directions.map fun known => inputs.map fun e => known.of? e := by
  rw [reverse]
  refine Keeps.bind (Keeps.foldlM (S := AllTyped seeds.length) ?_ (allTyped_empty seeds g))
    fun directions h _ hds => keeps_pure ⟨directions, hds, rfl⟩
  intro directions h i hi hgh hds
  exact keeps_reverseStep hds (hgh.pattern? (ht i (List.mem_reverse.mp hi)))

end MatrixTape

end Fluxion
