import Fluxion.Proofs.Matrix.Typing
import Fluxion.Proofs.Pattern.Positions
import Fluxion.Proofs.Scalar.Runs
import Fluxion.Tape.Matrix

/-!
# What matrix expressions mean

Over an algebra without effects the value of a matrix expression, a list with its nonzeros in storage
order, is defined by recursion over the graph. Values may be given for some expressions: for the
inputs of a function, say, or for lifted expressions whose values are looked for. What is given takes
the place of what the node says.

Typing is what makes values fit patterns: a value has an entry for each nonzero.

## Main definitions

* `MatrixNode.apply` — the value of a node from those of its operands
* `MatrixGraph.evaluate` — the value of an expression

## Main results

* `MatrixGraph.evaluate_of_node?`, `MatrixGraph.evaluate_of_given` — the equations of values
* `MatrixGraph.evaluate_congr` — values are decided by the nodes up to the expression
* `MatrixGraph.WellTyped.length_evaluate` — **values fit patterns**
-/

namespace Fluxion

variable {V : Type} {A : Algebra Id V}

namespace MatrixNode

/-- The nonzeros of a node on `p` from those of its operands. A symbol that nothing is given for is
zero, and a lift is its value. -/
def apply (A : Algebra Id V) (patternOf : MatrixId → Pattern) (p : Pattern)
    (value : MatrixId → List V) : MatrixNode → List V
  | symbol .. => List.replicate p.nnz (A.constant 0.0)
  | constant m => m.values.map A.constant
  | unary op a => (value a).map (A.unary op)
  | binary op a b => MatrixOp.runBinary A (A.constant 0.0) op p (value a) (value b)
  | product a b =>
    MatrixOp.runProduct A (A.constant 0.0) (patternOf a) (patternOf b) p (value a) (value b)
  | gather arguments map _ => MatrixOp.runGather (A.constant 0.0) map (arguments.map value)
  | scatter a map _ => MatrixOp.runScatter A (A.constant 0.0) map p (value a)
  | call r arguments o => (Id.run (r.tape.replay A (arguments.map value) [] r.outSizes)).getD o []
  | lift a _ => value a

/-- The value of a node depends on the operands that the value needs only. -/
theorem apply_congr {patternOf patternOf' : MatrixId → Pattern} {p : Pattern}
    {value value' : MatrixId → List V} {n : MatrixNode}
    (hpatterns : ∀ a ∈ n.operands, patternOf a = patternOf' a)
    (hvalues : ∀ a ∈ n.valueOperands, value a = value' a) :
    n.apply A patternOf p value = n.apply A patternOf' p value' := by
  cases n with
  | symbol | constant => rfl
  | unary op a => rw [apply, apply, hvalues a (by simp [valueOperands, operands])]
  | binary op a b =>
    rw [apply, apply, hvalues a (by simp [valueOperands, operands]),
      hvalues b (by simp [valueOperands, operands])]
  | product a b =>
    rw [apply, apply, hvalues a (by simp [valueOperands, operands]),
      hvalues b (by simp [valueOperands, operands]), hpatterns a (by simp [operands]),
      hpatterns b (by simp [operands])]
  | gather arguments map q =>
    rw [apply, apply, List.map_congr_left fun a ha => hvalues a (by simpa [valueOperands, operands])]
  | scatter a map q => rw [apply, apply, hvalues a (by simp [valueOperands, operands])]
  | call r arguments o =>
    rw [apply, apply, List.map_congr_left fun a ha => hvalues a (by simpa [valueOperands, operands])]
  | lift a guess => rw [apply, apply, hvalues a (by simp [valueOperands])]

end MatrixNode

namespace MatrixGraph

variable {g h : MatrixGraph} {given given' : MatrixId → Option (List V)} {e : MatrixId}
  {n : MatrixNode} {p : Pattern}

theorem patternIn_eq (hp : g.pattern? e = some p) : MatrixTape.patternIn g e = p := by
  rw [MatrixTape.patternIn, hp]
  rfl

/-! ### Values -/

/-- The value of an expression with an index below a bound. -/
def evaluateBelow (g : MatrixGraph) (A : Algebra Id V) (given : MatrixId → Option (List V)) :
    Nat → MatrixId → List V
  | 0, _ => []
  | bound + 1, e =>
    match given e with
    | some values => values
    | none => (g.node? e).elim [] (MatrixNode.apply A (MatrixTape.patternIn g)
        (MatrixTape.patternIn g e) (evaluateBelow g A given bound))

/-- The value of an expression, unless one is given for it. A handle that the graph does not have has
no nonzeros. -/
def evaluate (g : MatrixGraph) (A : Algebra Id V) (given : MatrixId → Option (List V))
    (e : MatrixId) : List V :=
  evaluateBelow g A given (e.index + 1) e

/-- Operands come before their readers, so any bound above the expression will do. -/
theorem evaluateBelow_eq {bound bound' : Nat} (he : e.index < bound) (he' : e.index < bound') :
    evaluateBelow g A given bound e = evaluateBelow g A given bound' e := by
  induction bound generalizing bound' e with
  | zero => omega
  | succ bound ih =>
    cases bound' with
    | zero => omega
    | succ bound' =>
      rw [evaluateBelow, evaluateBelow]
      cases given e with
      | some values => rfl
      | none =>
        cases hn : g.node? e with
        | none => rfl
        | some n =>
          refine MatrixNode.apply_congr (fun _ _ => rfl) fun a ha => ?_
          have hlt := g.operands_before hn a (n.valueOperands_subset ha)
          exact ih (by omega) (by omega)

theorem evaluate_of_given {values : List V} (hgiven : given e = some values) :
    g.evaluate A given e = values := by
  rw [evaluate, evaluateBelow, hgiven]

theorem evaluate_of_node? (hgiven : given e = none) (hn : g.node? e = some n) :
    g.evaluate A given e = n.apply A (MatrixTape.patternIn g) (MatrixTape.patternIn g e)
      (g.evaluate A given) := by
  rw [evaluate, evaluateBelow, hgiven, hn]
  refine MatrixNode.apply_congr (fun _ _ => rfl) fun a ha => ?_
  exact evaluateBelow_eq (g.operands_before hn a (n.valueOperands_subset ha)) (Nat.lt_succ_self _)

theorem evaluate_of_none (hgiven : given e = none) (hn : g.node? e = none) :
    g.evaluate A given e = [] := by
  rw [evaluate, evaluateBelow, hgiven, hn]
  rfl

/-- Induction over expressions: what holds of a handle if it holds of the operands that its value
needs holds of all handles. -/
theorem valueOperands_induction {P : MatrixId → Prop} (g : MatrixGraph)
    (step : ∀ e, (∀ n, g.node? e = some n → ∀ a ∈ n.valueOperands, P a) → P e) (e : MatrixId) :
    P e := by
  have below : ∀ bound, ∀ e : MatrixId, e.index < bound → P e := by
    intro bound
    induction bound with
    | zero => intro e he; omega
    | succ bound ih =>
      intro e he
      refine step e fun n hn a ha => ih a ?_
      have := g.operands_before hn a (n.valueOperands_subset ha)
      omega
  exact below (e.index + 1) e (Nat.lt_succ_self _)

theorem node?_eq_of_agreeBelow {bound : Nat} (hagree : arena.AgreeBelow g h bound)
    (he : e.index < bound) : g.node? e = h.node? e :=
  congrArg (Option.map MatrixEntry.node) (hagree e.index he)

theorem pattern?_eq_of_agreeBelow {bound : Nat} (hagree : arena.AgreeBelow g h bound)
    (he : e.index < bound) : g.pattern? e = h.pattern? e :=
  congrArg (Option.map MatrixEntry.pattern) (hagree e.index he)

theorem patternIn_eq_of_agreeBelow {bound : Nat} (hagree : arena.AgreeBelow g h bound)
    (he : e.index < bound) : MatrixTape.patternIn g e = MatrixTape.patternIn h e := by
  rw [MatrixTape.patternIn, MatrixTape.patternIn, pattern?_eq_of_agreeBelow hagree he]

/-- **Locality.** Values are decided by the nodes up to the expression, and by what is given for
them. -/
theorem evaluate_congr_given {bound : Nat} (hagree : arena.AgreeBelow g h bound)
    (hgiven : ∀ a : MatrixId, a.index < bound → given' a = given a) (he : e.index < bound) :
    g.evaluate A given e = h.evaluate A given' e := by
  induction e using valueOperands_induction g with
  | step e ih =>
    have hsame := node?_eq_of_agreeBelow hagree he
    have hgiven' := hgiven e he
    cases hvalues : given e with
    | some values =>
      rw [hvalues] at hgiven'
      rw [evaluate_of_given hvalues, evaluate_of_given hgiven']
    | none =>
      rw [hvalues] at hgiven'
      cases hn : g.node? e with
      | none => rw [evaluate_of_none hvalues hn, evaluate_of_none hgiven' (hsame ▸ hn)]
      | some n =>
        have hbefore := g.operands_before hn
        rw [evaluate_of_node? hvalues hn, evaluate_of_node? hgiven' (hsame ▸ hn),
          patternIn_eq_of_agreeBelow hagree he]
        refine MatrixNode.apply_congr (fun a ha => ?_) fun a ha => ?_
        · exact patternIn_eq_of_agreeBelow hagree (Nat.lt_trans (hbefore a ha) he)
        · exact ih n hn a ha (Nat.lt_trans (hbefore a (n.valueOperands_subset ha)) he)

theorem evaluate_congr {bound : Nat} (hagree : arena.AgreeBelow g h bound)
    (he : e.index < bound) : g.evaluate A given e = h.evaluate A given e :=
  evaluate_congr_given hagree (fun _ _ => rfl) he

theorem evaluate_of_grows (hgrow : g.Grows h) (he : e.index < g.size) :
    h.evaluate A given e = g.evaluate A given e :=
  (evaluate_congr hgrow.arena.agreeBelow he).symm

end MatrixGraph

/-! ### Sums in place -/

namespace MatrixOp

variable {zero : V} {sums : Array (Option V)}

theorem foldlM_id {σ α : Type} {f : σ → α → Id σ} {f' : σ → α → σ} (h : ∀ s a, f s a = f' s a)
    (as : List α) (s : σ) : Id.run (as.foldlM f s) = as.foldl f' s := by
  induction as generalizing s with
  | nil => rfl
  | cons a rest ih =>
    rw [List.foldl_cons, ← h]
    exact ih _

/-- Add a term to one of several sums, over an algebra without effects. -/
def addTo (A : Algebra Id V) (sums : Array (Option V)) (r : Nat) (term : V) : Array (Option V) :=
  sums.setIfInBounds r (some ((sums.getD r none).elim term fun s => A.binary .add s term))

theorem addTerm_eq (A : Algebra Id V) (sums : Array (Option V)) (r : Nat) (term : V) :
    addTerm A sums r term = addTo A sums r term := by
  rw [addTerm, addTo]
  cases sums.getD r none <;> rfl

@[simp] theorem size_addTo (sums : Array (Option V)) (r : Nat) (term : V) :
    (addTo A sums r term).size = sums.size :=
  Array.size_setIfInBounds

theorem runProduct_eq (left right result : Pattern) (x y : List V) :
    Id.run (runProduct A zero left right result x y)
      = ((productTerms left right result).foldl (fun sums (p, q, r) =>
          addTo A sums r (A.binary .mul (x.getD p zero) (y.getD q zero)))
        (Array.replicate result.nnz none)).toList.map (·.getD zero) := by
  refine congrArg (fun sums : Array (Option V) => sums.toList.map (·.getD zero)) (foldlM_id ?_ _ _)
  rintro sums ⟨p, q, r⟩
  show addTerm A sums r (A.binary .mul (x.toArray.getD p zero) (y.toArray.getD q zero))
    = addTo A sums r (A.binary .mul (x.getD p zero) (y.getD q zero))
  rw [addTerm_eq, Pattern.getD_toArray, Pattern.getD_toArray]

theorem runScatter_eq (map : ScatterMap) (result : Pattern) (x : List V) :
    Id.run (runScatter A zero map result x)
      = ((map.zip x).foldl (fun sums (target, v) => target.elim sums (addTo A sums · v))
        (Array.replicate result.nnz none)).toList.map (·.getD zero) := by
  refine congrArg (fun sums : Array (Option V) => sums.toList.map (·.getD zero)) (foldlM_id ?_ _ _)
  rintro sums ⟨target, v⟩
  cases target with
  | none => rfl
  | some r => exact addTerm_eq A sums r v

theorem size_foldl {α : Type} {step : Array (Option V) → α → Array (Option V)}
    (hstep : ∀ sums a, (step sums a).size = sums.size) (as : List α) (sums : Array (Option V)) :
    (as.foldl step sums).size = sums.size := by
  induction as generalizing sums with
  | nil => rfl
  | cons a rest ih => rw [List.foldl_cons, ih, hstep]

theorem length_runProduct (left right result : Pattern) (x y : List V) :
    (Id.run (runProduct A zero left right result x y)).length = result.nnz := by
  rw [runProduct_eq, List.length_map, Array.length_toList, size_foldl fun sums a => size_addTo ..,
    Array.size_replicate]

theorem length_runScatter (map : ScatterMap) (result : Pattern) (x : List V) :
    (Id.run (runScatter A zero map result x)).length = result.nnz := by
  rw [runScatter_eq, List.length_map, Array.length_toList, size_foldl, Array.size_replicate]
  rintro sums ⟨target, v⟩
  cases target with
  | none => rfl
  | some r => exact size_addTo ..

theorem runBinary_eq (op : BinaryOp) (result : Pattern) (x y : List V) :
    Id.run (runBinary A zero op result x y)
      = (List.range result.nnz).map fun k =>
          A.binary op (pick zero x.toArray k) (pick zero y.toArray k) := by
  rw [runBinary]
  exact List.idRun_mapM

theorem length_runGather (map : GatherMap) (operands : Bundle V) :
    (runGather zero map operands).length = map.length :=
  List.length_map _

end MatrixOp

/-! ### Lengths -/

namespace MatrixNode

variable {g : MatrixGraph} {n : MatrixNode} {p : Pattern} {value : MatrixId → List V}
  {patternOf : MatrixId → Pattern}

/-- A node on a pattern has an entry for each nonzero, if its operands have. -/
theorem Typed.length_apply (hn : n.Typed g p)
    (hvalues : ∀ a ∈ n.valueOperands, ∀ q, g.pattern? a = some q → (value a).length = q.nnz) :
    (n.apply A patternOf p value).length = p.nnz := by
  cases hn with
  | symbol _ => simp [apply]
  | constant m => simp [apply, m.length_values]
  | @unary op a p ha _ =>
    rw [apply, List.length_map]
    exact hvalues a (by simp [valueOperands, operands]) p ha
  | binary _ _ _ =>
    show (Id.run (MatrixOp.runBinary ..)).length = _
    rw [MatrixOp.runBinary_eq, List.length_map, List.length_range]
  | product _ _ _ => exact MatrixOp.length_runProduct ..
  | gather hmap => exact (MatrixOp.length_runGather ..).trans hmap.length
  | scatter _ _ _ => exact MatrixOp.length_runScatter ..
  | @call r arguments o p _ ho =>
    rw [apply, ScalarTape.replay_eq, Grid.length_getD_toBundle, ScalarTape.width_finish,
      Routine.outSizes, List.getD_eq_getElem?_getD, List.getElem?_map, ho]
    rfl
  | @lift a guess p hvalue _ => exact hvalues a (by simp [valueOperands]) p hvalue

end MatrixNode

namespace MatrixGraph

variable {g : MatrixGraph} {given : MatrixId → Option (List V)} {e : MatrixId} {p : Pattern}

/-- **Values fit patterns**, if those that are given do. -/
theorem WellTyped.length_evaluate (hg : g.WellTyped)
    (hgiven : ∀ e values p, given e = some values → g.pattern? e = some p →
      values.length = p.nnz)
    (hp : g.pattern? e = some p) : (g.evaluate A given e).length = p.nnz := by
  induction e using valueOperands_induction g generalizing p with
  | step e ih =>
    cases hvalues : given e with
    | some values =>
      rw [evaluate_of_given hvalues]
      exact hgiven e values p hvalues hp
    | none =>
      obtain ⟨k, hk, rfl⟩ := Option.map_eq_some_iff.mp hp
      have hn : g.node? e = some k.node := node?_eq_some_iff.mpr ⟨k.pattern, hk⟩
      rw [evaluate_of_node? hvalues hn, patternIn_eq hp]
      exact (hg.typed e k.node k.pattern hn hp).length_apply fun a ha q hq => ih k.node hn a ha hq

theorem WellTyped.map_length_evaluate (hg : g.WellTyped)
    (hgiven : ∀ e values p, given e = some values → g.pattern? e = some p →
      values.length = p.nnz) {es : List MatrixId} {ps : List Pattern}
    (hes : es.map g.pattern? = ps.map some) :
    (es.map (g.evaluate A given)).map List.length = ps.map Pattern.nnz := by
  refine List.ext_getElem? fun k => ?_
  have hk : (es.map g.pattern?)[k]? = (ps.map some)[k]? := by rw [hes]
  simp only [List.getElem?_map] at hk ⊢
  cases he : es[k]? with
  | none =>
    rw [he] at hk
    rw [Option.map_eq_none_iff.mp hk.symm]
    rfl
  | some e =>
    rw [he, Option.map_some] at hk
    obtain ⟨p, hp, hpe⟩ := Option.map_eq_some_iff.mp hk.symm
    rw [hp]
    exact congrArg some (hg.length_evaluate hgiven hpe.symm)

end MatrixGraph

end Fluxion
