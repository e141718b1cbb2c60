import Fluxion.Proofs.History.Matrix
import Fluxion.Proofs.Matrix.Reference

/-!
# Sparse results and the dense textbook

Every expression that operations build from symbols, one after another and in any graph that a history
leads to, stands for a dense matrix: a symbol for what is given for it, read with zeros where nothing is
stored, and a result for what the textbook makes of the matrices of the operands. Graphs may grow and be
copied in between, and expressions may be shared.

A function that was compiled from such expressions computes these matrices. Its outputs have the shapes
of the textbook. They hold only what the patterns of the expressions store, and everything that they do
not store is zero in the textbook.

## Main definitions

* `MatrixGraph.StandsFor` — the dense matrix of an expression

## Main results

* `MatrixGraph.StandsFor.represents` — what a whole history of operations keeps
* `MatrixHistory.replay_standsFor` — **compiled functions compute what the textbook says**
-/

namespace Fluxion

open MatrixBuilder MatrixGraph

variable {V : Type} [CommRing V] {A : Algebra Id V} {given : MatrixId → Option (List V)}

/-! ### Whole histories -/

namespace MatrixGraph

/-- The dense matrix that an expression stands for, by the operations that it was built by. -/
inductive StandsFor (A : Algebra Id V) (given : MatrixId → Option (List V)) :
    MatrixGraph → MatrixId → DenseMatrix V → Prop
  /-- A symbol stands for what is given for it. If nothing is given it is zero. -/
  | symbol {gs fs i g e serial p} : MatrixHistory gs fs → gs i = some g →
      g.node? e = some (.symbol serial p) →
      StandsFor A given g e (.ofSparse (.fitted p ((given e).getD []) 0))
  /-- The result of an operation stands for what the textbook makes of the operands. -/
  | built {gs fs i g h e x} (op : MatrixOperation) : MatrixHistory gs fs → gs i = some g →
      op.build g = .ok e h → (∀ a ∈ op.operands, StandsFor A given g a (x a)) →
      StandsFor A given h e (op.reference A (MatrixTape.patternIn g) x)
  /-- Nothing changes when a graph grows or is copied. -/
  | later {g h e x} : g.Within h → StandsFor A given g e x → StandsFor A given h e x

variable {g h : MatrixGraph} {e : MatrixId} {p : Pattern} {x : DenseMatrix V}

/-- A symbol represents what is given for it. -/
theorem represents_symbol {serial : Nat} (hA : A.OnRing)
    (hn : g.node? e = some (.symbol serial p)) (hp : g.pattern? e = some p) :
    g.Represents A given e (.ofSparse (.fitted p ((given e).getD []) 0)) := by
  refine ⟨p, ⟨hp, fun hg => ?_⟩, rfl, fun r _ c _ hrc => SparseMatrix.getD_of_not_mem _ _ hrc⟩
  refine Eq.trans ?_ (SparseMatrix.elements_getD (.fitted p ((given e).getD []) 0) 0).symm
  cases hvalues : given e with
  | some values =>
    rw [evaluate_of_given hvalues]
    exact (SparseMatrix.values_fitted (hg.fits e values p hvalues hp)).symm
  | none =>
    rw [evaluate_of_node? hvalues hn, patternIn_eq hp, MatrixNode.apply, hA.zero]
    simp [SparseMatrix.fitted]

/-- **What a whole history of operations keeps.** Expressions represent the matrices that they stand
for. -/
theorem StandsFor.represents (hA : A.KeepsZeros) (he : StandsFor A given g e x) :
    g.Represents A given e x := by
  induction he with
  | symbol hist hg hn =>
    obtain ⟨p, hp, htyped⟩ := (hist.invariant.2.1 _ _ hg).exists_typed hn
    cases htyped with
    | symbol _ => exact represents_symbol hA.toOnRing hn hp
  | @built gs fs i g h e x op hist hg hbuild _ ih =>
    have hkeeps := op.represents_build hA ih (hist.invariant.2.1 _ _ hg)
    rw [hbuild] at hkeeps
    exact hkeeps.2.2
  | later hgh _ ih => exact ih.within hgh

end MatrixGraph

/-! ### Compiled functions -/

omit [CommRing V] in
/-- Values of the declared sizes can be given for the inputs of a function. -/
theorem MatrixFunction.Ready.admits {f : MatrixFunction} {g : MatrixGraph} {tape : MatrixTape}
    (hf : f.Ready g) (htape : f.tape? = some tape) (hexact : A.Exact g.folds) {values : Bundle V}
    (hvalues : values.map List.length = f.inSizes) :
    g.Admits A (MatrixTape.supply f.inputs values) where
  symbols e n hn hsymbol := by
    rw [MatrixTape.supply, Option.map_eq_none_iff, List.idxOf?_eq_none_iff]
    intro he
    have := (hf.resides tape htape).symbols e he
    rw [isSymbol, hn, Option.any_some, hsymbol] at this
    contradiction
  fits e found p hfound hp := MatrixTape.length_supply hf.inPatterns hvalues hfound hp
  exact := hexact

namespace MatrixHistory

variable {gs : GraphId → Option MatrixGraph} {fs : List MatrixFunction} {i : GraphId}
  {g : MatrixGraph} {f : MatrixFunction} {tape : MatrixTape}

/-- **Compiled functions compute what the textbook says.** If an output stands for a dense matrix, where
the inputs are read as the arguments, the output that the tape computes is a sparse matrix on the
declared pattern, of the shape of the dense matrix. Read with zeros it has all elements of the dense
matrix; where it stores nothing, the textbook has a zero. -/
theorem replay_standsFor (hist : MatrixHistory gs fs) (hf : f ∈ fs) (hg : gs i = some g)
    (hlives : f.livesIn g = true) (htape : f.tape? = some tape) (hA : A.KeepsZeros)
    (hexact : A.Exact g.folds) {values : Bundle V} (hvalues : values.map List.length = f.inSizes)
    {o : Nat} {e : MatrixId} (ho : f.outputs[o]? = some e) {x : DenseMatrix V}
    (hx : StandsFor A (MatrixTape.supply f.inputs values) g e x) :
    ∃ m : SparseMatrix V, f.outPatterns[o]? = some m.pattern ∧
      (Id.run (tape.replay A values f.outCount))[o]? = some m.values ∧
      m.shape = x.shape ∧ (∀ r < x.nrows, ∀ c < x.ncols, m.getD r c 0 = x.elements r c) ∧
      ∀ r < x.nrows, ∀ c < x.ncols, m.get? r c = none → x.elements r c = 0 := by
  have hready := hist.ready hf hg hlives
  obtain ⟨p, x, rfl, -, hstores, hcovers⟩ := (hx.represents hA).exists_on
  have hstored := hstores.values (hready.admits htape hexact hvalues)
  have hpattern : f.outPatterns[o]? = some p := by
    have hsome : (f.outputs.map g.pattern?)[o]? = (f.outPatterns.map some)[o]? := by
      rw [hready.outPatterns]
    rw [List.getElem?_map, ho, Option.map_some, hstores.pattern, List.getElem?_map] at hsome
    exact Option.map_injective (Option.some_injective _) hsome.symm
  refine ⟨⟨p, p.elements x, Pattern.length_elements⟩, hpattern, ?_, rfl, ?_, ?_⟩
  · rw [show f.outCount = f.outputs.length from rfl, (hready.resides tape htape).replay_eq A values,
      List.getElem?_map, ho, Option.map_some, hstored]
  · intro r hr c hc
    rw [SparseMatrix.getD, SparseMatrix.get?_elements]
    split
    · rfl
    · rename_i hrc
      exact (hcovers r hr c hc hrc).symm
  · intro r hr c hc hnone
    rw [SparseMatrix.get?_elements] at hnone
    exact hcovers r hr c hc (by simpa using hnone)

end MatrixHistory

/-! ### A triangle times its transpose -/

namespace Triangle

def triangle : Pattern := .tabulate 2 2 fun r c => decide (c ≤ r)

def symbolic : MatrixGraph := MatrixRequest.after (.symbol "x" triangle) (.new (.numbered 0))

def transposed : MatrixGraph := MatrixRequest.after (.transpose ⟨0⟩) symbolic

/-- The triangle is multiplied by its transpose, element by element. Only the diagonal is stored. -/
def graph : MatrixGraph := MatrixRequest.after (.binary .mul ⟨0⟩ ⟨1⟩) transposed

def tape : MatrixTape where
  instrs := [⟨.input 0, [], some 0, triangle, ⟨0⟩⟩,
    ⟨.gather [some (0, 0), some (0, 2)], [0], some 1, .diagonal 2, ⟨2⟩⟩,
    ⟨.gather [some (0, 0), some (0, 1), some (0, 2)], [0], some 0, triangle.transpose, ⟨1⟩⟩,
    ⟨.gather [some (0, 0), some (0, 2)], [0], some 0, .diagonal 2, ⟨3⟩⟩,
    ⟨.binary .mul, [1, 0], some 0, .diagonal 2, ⟨4⟩⟩,
    ⟨.output 0, [0], none, .diagonal 2, ⟨4⟩⟩]
  freeSymbols := []
  freeNames := []
  workSize := 2

def functionWith (tape? : Option MatrixTape) : MatrixFunction where
  options := {}
  owner := ⟨.numbered 0, 4⟩
  inputs := [⟨0⟩]
  outputs := [⟨4⟩]
  inPatterns := [triangle]
  outPatterns := [.diagonal 2]
  inNames := ["x"]
  tape? := tape?

/-- Whole numbers with all functions zero. -/
def integers : Algebra Id Int where
  constant _ := 0
  unary op x := if op = .neg then -x else 0
  binary
    | .add, x, y => x + y
    | .sub, x, y => x - y
    | .mul, x, y => x * y
    | .div, _, _ | .pow, _, _ => 0
  isZero _ := false

theorem keepsZeros_integers : integers.KeepsZeros where
  neg _ := rfl
  add _ _ := rfl
  sub _ _ := rfl
  mul _ _ := rfl
  zero := rfl
  zero_div _ := rfl
  sqrt_zero := rfl
  sin_zero := rfl
  tan_zero := rfl
  tanh_zero := rfl

theorem history_symbolic :
    MatrixHistory (Function.update (fun _ => none) (.numbered 0) (some symbolic)) [] :=
  @MatrixHistory.afterAll _ _ _ _ [.symbol "x" triangle] (by decide) (.new (.numbered 0) .start rfl)

theorem history_transposed :
    MatrixHistory (Function.update (fun _ => none) (.numbered 0) (some transposed)) [] :=
  @MatrixHistory.afterAll _ _ _ _ [.transpose ⟨0⟩] (by decide) history_symbolic

theorem history : MatrixHistory (Function.update (fun _ => none) (.numbered 0) (some graph))
    [functionWith (some tape), functionWith none] := by
  have hgraph := @MatrixHistory.afterAll _ _ _ _ [.binary .mul ⟨0⟩ ⟨1⟩] (by decide) history_transposed
  have hdeclared := hgraph.declare (i := .numbered 0) (Function.update_self ..)
    (show MatrixFunction.declare graph [⟨0⟩] [⟨4⟩] {} = .ok (functionWith none) from rfl)
  exact .init hdeclared (i := .numbered 0) (Function.update_self ..) (List.mem_singleton_self _)
    (show (functionWith none).init graph = .ok (functionWith (some tape)) from rfl)

/-- The triangle with elements 2, 3 and 5. -/
def numbers : DenseMatrix Int := .ofSparse (.fitted triangle [2, 3, 5] 0)

/-- Every element times the one across the diagonal. -/
def products : DenseMatrix Int :=
  (MatrixOperation.binary .mul ⟨0⟩ ⟨1⟩).reference integers (MatrixTape.patternIn transposed)
    fun a => if a = ⟨0⟩ then numbers else numbers.transpose

theorem standsFor_products :
    MatrixGraph.StandsFor integers (MatrixTape.supply [⟨0⟩] [[2, 3, 5]]) graph ⟨4⟩ products := by
  have hsymbol : MatrixGraph.StandsFor integers (MatrixTape.supply [⟨0⟩] [[2, 3, 5]]) symbolic ⟨0⟩
      numbers :=
    .symbol (i := .numbered 0) history_symbolic (Function.update_self ..)
      (show symbolic.node? ⟨0⟩ = some (.symbol 0 triangle) from rfl)
  have htranspose : (MatrixOperation.transpose ⟨0⟩).build symbolic = .ok ⟨1⟩ transposed := rfl
  have hwithin : symbolic.Within transposed :=
    ((keeps_transpose ⟨0⟩).of_run (history_symbolic.wellTyped (Function.update_self ..))
      htranspose).1.within
  refine .built (i := .numbered 0) (.binary .mul ⟨0⟩ ⟨1⟩) history_transposed
    (Function.update_self ..) rfl fun a ha => ?_
  rcases List.mem_cons.mp ha with rfl | ha
  · exact .later hwithin hsymbol
  · obtain rfl := List.mem_singleton.mp ha
    refine .built (x := fun _ => numbers) (i := .numbered 0) (.transpose ⟨0⟩) history_symbolic
      (Function.update_self ..) htranspose fun b hb => ?_
    obtain rfl := List.mem_singleton.mp hb
    exact hsymbol

/-- The two stored results are all that the textbook has. -/
theorem replay_standsFor_products : ∃ m : SparseMatrix Int,
    (functionWith (some tape)).outPatterns[0]? = some m.pattern ∧
      (Id.run (tape.replay integers [[2, 3, 5]] 1))[0]? = some m.values ∧
      m.shape = (2, 2) ∧ (∀ r < 2, ∀ c < 2, m.getD r c 0 = products.elements r c) ∧
      ∀ r < 2, ∀ c < 2, m.get? r c = none → products.elements r c = 0 :=
  history.replay_standsFor (i := .numbered 0) (List.mem_cons_self ..) (Function.update_self ..)
    (by decide) rfl keepsZeros_integers (fun f hf => absurd hf List.not_mem_nil) rfl rfl
    standsFor_products

end Triangle

end Fluxion
