import Fluxion.Proofs.Lists
import Fluxion.Proofs.Matrix.Meaning

/-!
# One expression over two algebras

If the constants of two algebras are related and the operations keep the relation, an expression has
related nonzeros over both, as many of them and in the same order. Nothing needs to be known of the
expression: maps that are out of range are so on both sides.

## Main definitions

* `Algebra.Related` — a relation that constants and operations keep
* `MatrixOp.SumsRelated` — sums in place that are in step

## Main results

* `ScalarTape.related_replay` — scalar tapes over two algebras
* `MatrixGraph.related_evaluate` — **matrix expressions over two algebras**
-/

namespace Fluxion

variable {V W : Type} {R : V → W → Prop} {A : Algebra Id V} {B : Algebra Id W}

/-- Constants are related, and operations keep the relation. -/
structure Algebra.Related (R : V → W → Prop) (A : Algebra Id V) (B : Algebra Id W) : Prop where
  constant : ∀ c, R (A.constant c) (B.constant c)
  unary : ∀ op {x y}, R x y → R (A.unary op x) (B.unary op y)
  binary : ∀ op {x x' y y'}, R x y → R x' y' → R (A.binary op x x') (B.binary op y y')

/-! ### Scalar tapes -/

namespace ScalarTape

theorem related_execute (hR : A.Related R B) {zero : V} {zero' : W} {inputs : Grid V}
    {inputs' : Grid W} (hinputs : ∀ i k, R (inputs.read zero i k) (inputs'.read zero' i k))
    {free : Array V} {free' : Array W} (hfree : ∀ k, R (free.getD k zero) (free'.getD k zero'))
    {r : Run V} {q : Run W} (hrq : r.Related R zero zero' q) (instr : ScalarInstr) :
    (execute A zero inputs free r instr).Related R zero zero'
      (execute B zero' inputs' free' q instr) := by
  cases instr with
  | input i k result => exact hrq.write (hinputs i k) result
  | constant c result => exact hrq.write (hR.constant c) result
  | free k result => exact hrq.write (hfree k) result
  | unary op a result => exact hrq.write (hR.unary op (hrq.read a)) result
  | binary op a b result => exact hrq.write (hR.binary op (hrq.read a) (hrq.read b)) result
  | output i k a => exact hrq.store (hrq.read a) i k

theorem related_replay (hR : A.Related R B) (tape : ScalarTape) {inputs : Bundle V}
    {inputs' : Bundle W} (hinputs : Bundle.Related R inputs inputs') (counts : List Nat) :
    Bundle.Related R (Id.run (tape.replay A inputs [] counts))
      (Id.run (tape.replay B inputs' [] counts)) := by
  have hfold : ∀ (instrs : List ScalarInstr) {r : Run V} {q : Run W},
      r.Related R (A.constant 0.0) (B.constant 0.0) q →
      (instrs.foldl (execute A (A.constant 0.0) (.ofBundle inputs) #[]) r).Related R
        (A.constant 0.0) (B.constant 0.0)
        (instrs.foldl (execute B (B.constant 0.0) (.ofBundle inputs') #[]) q) := by
    intro instrs
    induction instrs with
    | nil => exact fun hrq => hrq
    | cons instr rest ih =>
      intro r q hrq
      have hread : ∀ i k, R (Grid.read (A.constant 0.0) (.ofBundle inputs) i k)
          (Grid.read (B.constant 0.0) (.ofBundle inputs') i k) := fun i k => by
        rw [Grid.read_ofBundle, Grid.read_ofBundle]
        exact hinputs.getD (hR.constant 0.0) i k
      have hnone : ∀ k, R (#[].getD k (A.constant 0.0)) (#[].getD k (B.constant 0.0)) :=
        fun _ => hR.constant 0.0
      exact ih (related_execute hR hread hnone hrq instr)
  have hrun := hfold tape.instrs (.start (hR.constant 0.0) tape.workSize counts)
  rw [replay_eq, replay_eq]
  exact .of_grids hrun.width hrun.stored

end ScalarTape

/-! ### Matrix operations -/

namespace MatrixOp

/-- As many sums, the same of them there, and related ones. -/
def SumsRelated (S : V → W → Prop) (sums : Array (Option V)) (sums' : Array (Option W)) :
    Prop := List.Forall₂ (Option.Rel S) sums.toList sums'.toList

namespace SumsRelated

variable {S T : V → W → Prop} {sums : Array (Option V)} {sums' : Array (Option W)}

theorem imp (h : SumsRelated S sums sums') (himp : ∀ v w, S v w → T v w) :
    SumsRelated T sums sums' := by
  refine List.Forall₂.imp (fun a b hab => ?_) h
  cases hab with
  | none => exact .none
  | some hab => exact .some (himp _ _ hab)

theorem replicate (n : Nat) :
    SumsRelated S (Array.replicate n none) (Array.replicate n none) := by
  rw [SumsRelated, Array.toList_replicate, Array.toList_replicate]
  exact forall₂_replicate .none n

theorem set (h : SumsRelated S sums sums') {v : V} {w : W} (hvw : S v w)
    (r : Nat) : SumsRelated S (sums.setIfInBounds r (some v)) (sums'.setIfInBounds r (some w)) := by
  rw [SumsRelated, Array.toList_setIfInBounds, Array.toList_setIfInBounds]
  exact forall₂_set h (.some hvw) r

theorem getD (h : SumsRelated S sums sums') (r : Nat) :
    Option.Rel S (sums.getD r none) (sums'.getD r none) := by
  have h := forall₂_getD h .none r
  rwa [← Pattern.getD_toArray, ← Pattern.getD_toArray, Array.toArray_toList,
    Array.toArray_toList] at h

theorem toValues (h : SumsRelated S sums sums') {z : V} {z' : W} (hz : S z z') :
    List.Forall₂ S (sums.toList.map (·.getD z)) (sums'.toList.map (·.getD z')) := by
  rw [List.forall₂_map_left_iff, List.forall₂_map_right_iff]
  refine List.Forall₂.imp (fun a b hab => ?_) h
  cases hab with
  | none => exact hz
  | some hab => exact hab

theorem addTo (hR : A.Related R B) (h : SumsRelated R sums sums') (r : Nat) {term : V} {term' : W}
    (hterm : R term term') : SumsRelated R (addTo A sums r term) (addTo B sums' r term') := by
  refine h.set ?_ r
  have hsum := h.getD r
  generalize sums.getD r none = s at hsum
  generalize sums'.getD r none = s' at hsum
  cases hsum with
  | none => exact hterm
  | some hsum => exact hR.binary .add hsum hterm

end SumsRelated

variable {zero : V} {zero' : W} {x y : List V} {x' y' : List W}

theorem related_pick (hzero : R zero zero') (hx : List.Forall₂ R x x') (k : Nat) :
    R (pick zero x.toArray k) (pick zero' x'.toArray k) := by
  rw [pick, pick, List.size_toArray, List.size_toArray, hx.length_eq]
  split
  · rw [Pattern.getD_toArray, Pattern.getD_toArray]
    exact forall₂_getD hx hzero 0
  · rw [Pattern.getD_toArray, Pattern.getD_toArray]
    exact forall₂_getD hx hzero k

theorem forall₂_runGather (hzero : R zero zero') (map : GatherMap)
    {xs : Bundle V} {xs' : Bundle W} (hxs : List.Forall₂ (List.Forall₂ R) xs xs') :
    List.Forall₂ R (runGather zero map xs) (runGather zero' map xs') := by
  refine forall₂_map_same map fun entry _ => ?_
  cases entry with
  | none => exact hzero
  | some t =>
    have hread := (Bundle.Related.of_forall₂ hxs).getD hzero t.1 t.2
    rwa [← Grid.read_ofBundle, ← Grid.read_ofBundle] at hread

theorem forall₂_runBinary (hR : A.Related R B) (hzero : R zero zero') (op : BinaryOp)
    (result : Pattern) (hx : List.Forall₂ R x x') (hy : List.Forall₂ R y y') :
    List.Forall₂ R (Id.run (runBinary A zero op result x y))
      (Id.run (runBinary B zero' op result x' y')) := by
  rw [runBinary_eq, runBinary_eq]
  exact forall₂_map_same _ fun k _ =>
    hR.binary op (related_pick hzero hx k) (related_pick hzero hy k)

theorem forall₂_runProduct (hR : A.Related R B) (hzero : R zero zero')
    (left right result : Pattern) (hx : List.Forall₂ R x x') (hy : List.Forall₂ R y y') :
    List.Forall₂ R (Id.run (runProduct A zero left right result x y))
      (Id.run (runProduct B zero' left right result x' y')) := by
  rw [runProduct_eq, runProduct_eq]
  refine SumsRelated.toValues ?_ hzero
  refine List.foldl_rel (.replicate result.nnz) fun t _ sums sums' hsums => ?_
  obtain ⟨p, q, r⟩ := t
  exact hsums.addTo hR r (hR.binary .mul (forall₂_getD hx hzero p) (forall₂_getD hy hzero q))

theorem forall₂_runScatter (hR : A.Related R B) (hzero : R zero zero') (map : ScatterMap)
    (result : Pattern) (hx : List.Forall₂ R x x') :
    List.Forall₂ R (Id.run (runScatter A zero map result x))
      (Id.run (runScatter B zero' map result x')) := by
  rw [runScatter_eq, runScatter_eq]
  refine SumsRelated.toValues ?_ hzero
  have hstart : SumsRelated R (Array.replicate result.nnz none) (Array.replicate result.nnz none) :=
    .replicate _
  generalize Array.replicate result.nnz none = sums at hstart ⊢
  generalize Array.replicate result.nnz none = sums' at hstart ⊢
  induction hx generalizing map sums sums' with
  | nil => simpa using hstart
  | cons hvw _ ih =>
    cases map with
    | nil => exact hstart
    | cons target rest =>
      cases target with
      | none => exact ih rest _ _ hstart
      | some r => exact ih rest _ _ (hstart.addTo hR r hvw)

end MatrixOp

/-! ### Matrix expressions -/

/-- A node keeps the relation between the values of its operands. -/
theorem MatrixNode.related_apply (hR : A.Related R B) (patternOf : MatrixId → Pattern) (p : Pattern)
    {value : MatrixId → List V} {value' : MatrixId → List W} {n : MatrixNode}
    (hvalues : ∀ a ∈ n.valueOperands, List.Forall₂ R (value a) (value' a)) :
    List.Forall₂ R (n.apply A patternOf p value) (n.apply B patternOf p value') := by
  have hzero := hR.constant 0.0
  cases n with
  | symbol serial q => exact forall₂_replicate hzero p.nnz
  | constant m => exact forall₂_map_same m.values fun c _ => hR.constant c
  | unary op a =>
    have ha := hvalues a (by simp [valueOperands, operands])
    exact List.rel_map (fun _ _ hxy => hR.unary op hxy) ha
  | binary op a b =>
    have ha := hvalues a (by simp [valueOperands, operands])
    have hb := hvalues b (by simp [valueOperands, operands])
    exact MatrixOp.forall₂_runBinary hR hzero op p ha hb
  | product a b =>
    exact MatrixOp.forall₂_runProduct hR hzero _ _ p (hvalues a (by simp [valueOperands, operands]))
      (hvalues b (by simp [valueOperands, operands]))
  | gather arguments map q =>
    exact MatrixOp.forall₂_runGather hzero map (forall₂_map_same arguments fun a ha =>
      hvalues a (by simpa [valueOperands, operands]))
  | scatter a map q =>
    exact MatrixOp.forall₂_runScatter hR hzero map p (hvalues a (by simp [valueOperands, operands]))
  | call r arguments o =>
    have harguments := forall₂_map_same arguments fun a ha =>
      hvalues a (by simpa [valueOperands, operands])
    exact forall₂_of_rel (ScalarTape.related_replay hR r.tape (.of_forall₂ harguments) r.outSizes o)
  | lift a guess => exact hvalues a (by simp [valueOperands])

/-- **Matrix expressions over two algebras** have related nonzeros, if those that are given are
related. -/
theorem MatrixGraph.related_evaluate (g : MatrixGraph) (hR : A.Related R B)
    {given : MatrixId → Option (List V)} {given' : MatrixId → Option (List W)}
    (hgiven : ∀ e, Option.Rel (List.Forall₂ R) (given e) (given' e)) (e : MatrixId) :
    List.Forall₂ R (g.evaluate A given e) (g.evaluate B given' e) := by
  induction e using valueOperands_induction g with
  | step e ih =>
    have he := hgiven e
    cases hvalues : given e with
    | some values =>
      rw [hvalues] at he
      cases hvalues' : given' e with
      | none => rw [hvalues'] at he; cases he
      | some values' =>
        rw [hvalues'] at he
        rw [evaluate_of_given hvalues, evaluate_of_given hvalues']
        cases he with
        | some he => exact he
    | none =>
      rw [hvalues] at he
      cases hvalues' : given' e with
      | some values' => rw [hvalues'] at he; cases he
      | none =>
        cases hn : g.node? e with
        | none =>
          rw [evaluate_of_none hvalues hn, evaluate_of_none hvalues' hn]
          exact .nil
        | some n =>
          rw [evaluate_of_node? hvalues hn, evaluate_of_node? hvalues' hn]
          exact n.related_apply hR _ _ (ih n hn)

end Fluxion
