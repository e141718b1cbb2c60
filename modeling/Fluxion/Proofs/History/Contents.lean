import Fluxion.Function
import Fluxion.Proofs.History.Matrix
import Fluxion.Proofs.Jacobian.Scalar
import Fluxion.Proofs.Matrix.Contents
import Fluxion.Proofs.Scalar.Contents

/-!
# What tapes hold, of either kind

A tape has one instruction for each node that its outputs reach and one store for each output, and
its free symbols are the symbols among those nodes that are no inputs. So the length of a function is
a number that can be read off its graph: scalar functions count the nodes, matrix functions the nodes
and the outputs.

No history is needed for this. Graphs carry the order of their nodes with them, and what compilation
accepts it has checked.

## Main results

* `hold_what_outputs_reach` — **tapes hold what their outputs reach**
-/

namespace Fluxion

/-- **Tapes hold what their outputs reach**, each node once, and functions count that. -/
theorem hold_what_outputs_reach :
    (∀ (g : ScalarGraph) (inputs outputs : List (SparseMatrix ScalarId)) (tape : ScalarTape),
      ScalarTape.compile g inputs outputs = .ok tape →
        ScalarTape.Contents g inputs outputs tape ∧
        ∀ o : FunctionObject, o.function.tape = .ok tape → (Function.scalar o).countNodes
          = .ok {n | ∃ p ∈ ScalarTape.places outputs,
              Postorder.Reaches g.operandNumbers p.e.index n}.ncard) ∧
    (∀ (g : MatrixGraph) (inputs outputs : List MatrixId) (tape : MatrixTape),
      MatrixTape.compile g inputs outputs = .ok tape →
        MatrixTape.Contents g inputs outputs tape ∧
        ∀ f : MatrixFunction, f.tape = .ok tape → (Function.matrix f).countNodes
          = .ok ({n | ∃ o ∈ outputs,
              Postorder.Reaches g.valueOperandNumbers o.index n}.ncard + outputs.length)) := by
  constructor
  · intro g inputs outputs tape hcompile
    have hcontents := (ScalarTape.compiled_of_compile hcompile).contents
    refine ⟨hcontents, fun o ho => ?_⟩
    rw [Function.countNodes, ho, ← hcontents.countNodes]
    rfl
  · intro g inputs outputs tape hcompile
    have hcontents := (MatrixTape.compiled_of_compile hcompile).contents
    refine ⟨hcontents, fun f hf => ?_⟩
    rw [Function.countNodes, MatrixFunction.countNodes, hf, ← hcontents.length_instrs]
    rfl

/-- A product of two symbols, one of which is free, stored before and after that symbol: three nodes
and three stores. And the square of a lifted sine. -/
theorem hold_what_outputs_reach_product :
    ∃ tape, ScalarTape.compile Product.graph [.scalar ⟨3⟩] [.column [⟨5⟩, ⟨4⟩], .scalar ⟨5⟩]
        = .ok tape ∧
      tape.instrs.length = 6 ∧ tape.freeSymbols = [⟨4⟩] ∧
      ScalarTape.Contents Product.graph [.scalar ⟨3⟩] [.column [⟨5⟩, ⟨4⟩], .scalar ⟨5⟩] tape ∧
      MatrixTape.Contents LiftedSine.graph [⟨0⟩] [⟨3⟩] LiftedSine.tape :=
  ⟨_, rfl, rfl, rfl, (hold_what_outputs_reach.1 _ _ _ _ rfl).1,
    (hold_what_outputs_reach.2 _ _ _ _
      (show MatrixTape.compile LiftedSine.graph [⟨0⟩] [⟨3⟩] = .ok LiftedSine.tape from rfl)).1⟩

end Fluxion
