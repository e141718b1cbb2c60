import Fluxion.Proofs.Matrix.Compile
import Fluxion.Proofs.Matrix.Direct

/-!
# Checked runs of matrix tapes

The loops of a matrix tape look nonzeros up by numbers that they do not check: a number that is out of
range reads as zero, and a sum that is not there is lost. A *checked* run stops at the first such
access, or at a slot that has not been written, or at a free symbol. Embedded tapes are run with checks
as well.

In a well-typed graph a slot always holds as many nonzeros as the pattern of its expression has, so a
compiled tape passes every check.

## Main definitions

* `MatrixOp.checkedRun` — one instruction with checks
* `MatrixTape.checkedReplay` — outputs of a checked run

## Main results

* `MatrixTape.Compiled.checkedRun_opOf` — an instruction passes the checks
* `MatrixTape.Compiled.checkedReplay_eq` — **compiled tapes pass the checks**
-/

namespace Fluxion

variable {V : Type} {A : Algebra Id V} {z : V}

/-! ### Loops with checks -/

namespace MatrixOp

open MatrixNode (gatherFrom)

/-- The value for nonzero `k` of an operand, which is repeated if it has one nonzero. -/
def checkedPick (x : List V) (k : Nat) : Option V := if x.length = 1 then x[0]? else x[k]?

/-- Add a term to a sum that is there. -/
def checkedAdd (A : Algebra Id V) (sums : Array (Option V)) (r : Nat) (term : V) :
    Option (Array (Option V)) :=
  if r < sums.size then some (addTo A sums r term) else none

/-- The loop of an elementwise operation. -/
def checkedBinary (A : Algebra Id V) (op : BinaryOp) (result : Pattern) (x y : List V) :
    Option (List V) :=
  (List.range result.nnz).mapM fun k => do
    return A.binary op (← checkedPick x k) (← checkedPick y k)

/-- The loop of a matrix product. Every column that is looked at has to be there. -/
def checkedProduct (A : Algebra Id V) (z : V) (left right result : Pattern) (x y : List V) :
    Option (List V) := do
  guard (right.positions.all fun (k, j) => decide (k < left.ncols) && decide (j < result.ncols))
  let sums ← (productTerms left right result).foldlM (fun sums (p, q, r) => do
    checkedAdd A sums r (A.binary .mul (← x[p]?) (← y[q]?))) (Array.replicate result.nnz none)
  return sums.toList.map (·.getD z)

/-- The loop of a scatter. -/
def checkedScatter (A : Algebra Id V) (z : V) (map : ScatterMap) (result : Pattern) (x : List V) :
    Option (List V) := do
  let sums ← map.zipIdx.foldlM (fun sums (target, k) =>
    target.elim (some sums) fun r => do checkedAdd A sums r (← x[k]?))
    (Array.replicate result.nnz none)
  return sums.toList.map (·.getD z)

/-- The nonzeros that an operation computes, if nothing is missing. A free symbol has no value. -/
def checkedRun (A : Algebra Id V) (z : V) (inputs : Bundle V) (result : Pattern)
    (operands : Bundle V) : MatrixOp → Option (List V)
  | input i => inputs[i]?
  | output _ => none
  | constant values => some (values.map A.constant)
  | free _ => none
  | unary op => do return (← operands[0]?).map (A.unary op)
  | binary op => do checkedBinary A op result (← operands[0]?) (← operands[1]?)
  | product left right => do
    checkedProduct A z left right result (← operands[0]?) (← operands[1]?)
  | gather map => gatherFrom z map operands
  | scatter map => do checkedScatter A z map result (← operands[0]?)
  | call r o => do (← r.tape.checkedReplay A operands [] r.outSizes)[o]?
  | lift => operands[0]?

end MatrixOp

/-! ### Checked runs -/

namespace MatrixTape

/-- Work slots and outputs of a checked run. What has not been written is missing. -/
structure CheckedRun (V : Type) where
  slots : Array (Option (List V))
  outputs : List (Option (List V))

namespace CheckedRun

/-- A run that has done nothing: every slot and output is missing. -/
def start (workSize outputCount : Nat) : CheckedRun V :=
  ⟨Array.replicate workSize none, List.replicate outputCount none⟩

/-- The nonzeros in a slot that has been written. -/
def read? (r : CheckedRun V) (slot : Nat) : Option (List V) := r.slots.getD slot none

/-- Write a slot of the work array. -/
def write? (r : CheckedRun V) (slot : Nat) (x : List V) : Option (CheckedRun V) :=
  if slot < r.slots.size then some { r with slots := r.slots.setIfInBounds slot (some x) } else none

/-- Store an output. -/
def store? (r : CheckedRun V) (i : Nat) (x : List V) : Option (CheckedRun V) :=
  if i < r.outputs.length then some { r with outputs := r.outputs.set i (some x) } else none

end CheckedRun

/-- Carry out one instruction, unless something is missing. -/
def checkedExec (A : Algebra Id V) (z : V) (inputs : Bundle V) (r : CheckedRun V)
    (instr : MatrixInstr) : Option (CheckedRun V) := do
  let operands ← instr.arguments.mapM r.read?
  match instr.op, instr.result with
  | .output i, _ => r.store? i (← operands[0]?)
  | op, some slot => r.write? slot (← op.checkedRun A z inputs instr.pattern operands)
  | _, none => none

/-- The outputs of a checked run, if nothing is missing. -/
def checkedReplay (tape : MatrixTape) (A : Algebra Id V) (inputs : Bundle V) (outputCount : Nat) :
    Option (Bundle V) := do
  let done ← tape.instrs.foldlM (checkedExec A (A.constant 0.0) inputs)
    (.start tape.workSize outputCount)
  done.outputs.mapM id

end MatrixTape

/-! ### Loops pass the checks -/

namespace MatrixOp

open MatrixNode (getElem?_eq_getD)
open ScalarTape (mapM_some)

theorem checkedPick_eq {x : List V} {k : Nat} (hx : x.length = 1 ∨ k < x.length) :
    checkedPick x k = some (pick z x.toArray k) := by
  rw [checkedPick, pick, List.size_toArray, Pattern.getD_toArray, Pattern.getD_toArray]
  split
  · exact getElem?_eq_getD (by omega)
  · exact getElem?_eq_getD (by omega)

theorem checkedBinary_eq {op : BinaryOp} {p : Pattern} {x y : List V}
    (hx : x.length = 1 ∨ x.length = p.nnz) (hy : y.length = 1 ∨ y.length = p.nnz) :
    checkedBinary A op p x y = some (Id.run (runBinary A z op p x y)) := by
  rw [runBinary_eq]
  refine mapM_some fun k hk => ?_
  have hk := List.mem_range.mp hk
  rw [checkedPick_eq (z := z) (x := x) (by omega),
    checkedPick_eq (z := z) (x := y) (by omega)]
  rfl

/-- Sums that stay as many as they are pass the checks if each term does. -/
theorem foldlM_some {α : Type} {step : Array (Option V) → α → Option (Array (Option V))}
    {step' : Array (Option V) → α → Array (Option V)} {n : Nat} {as : List α}
    (hsize : ∀ sums a, (step' sums a).size = sums.size)
    (hstep : ∀ sums : Array (Option V), sums.size = n → ∀ a ∈ as, step sums a = some (step' sums a))
    {sums : Array (Option V)} (hsums : sums.size = n) :
    as.foldlM step sums = some (as.foldl step' sums) := by
  induction as generalizing sums with
  | nil => rfl
  | cons a rest ih =>
    rw [List.foldlM_cons, hstep sums hsums a (by simp)]
    exact ih (fun sums hsums b hb => hstep sums hsums b (List.mem_cons_of_mem a hb))
      ((hsize sums a).trans hsums)

theorem lt_of_mem_productTerms {left right result : Pattern} (hcols : result.ncols = right.ncols)
    {t : Nat × Nat × Nat} (ht : t ∈ productTerms left right result) :
    t.1 < left.nnz ∧ t.2.1 < right.nnz ∧ t.2.2 < result.nnz := by
  rw [Pattern.productTerms_eq left right hcols] at ht
  obtain ⟨c, -, ht⟩ := List.mem_flatMap.mp ht
  obtain ⟨x, hx, ht⟩ := List.mem_flatMap.mp ht
  obtain ⟨y, hy, ht⟩ := List.mem_filterMap.mp ht
  obtain ⟨r, hr, rfl⟩ := Option.map_eq_some_iff.mp ht
  exact ⟨Pattern.lt_nnz_of_mem_numberedColumns hy, Pattern.lt_nnz_of_mem_numberedColumns hx,
    Pattern.lt_nnz_of_find? hr⟩

theorem checkedProduct_eq {p q : Pattern} {x y : List V} (hinner : p.ncols = q.nrows)
    (hx : x.length = p.nnz) (hy : y.length = q.nnz) :
    checkedProduct A z p q (p.product q) x y
      = some (Id.run (runProduct A z p q (p.product q) x y)) := by
  have hcols : (p.product q).ncols = q.ncols := by simp [Pattern.product, Pattern.ncols]
  have hcolumns : (q.positions.all fun kj => decide (kj.1 < p.ncols) &&
      decide (kj.2 < (p.product q).ncols)) = true := by
    refine List.all_eq_true.mpr fun kj hkj => ?_
    have hmem : (kj.1, kj.2) ∈ q.positions := hkj
    have hrow := Pattern.row_lt_of_mem_positions hmem
    have hcol := Pattern.column_lt_of_mem_positions hmem
    simp only [Bool.and_eq_true, decide_eq_true_eq]
    omega
  have hrun : (productTerms p q (p.product q)).foldlM (fun sums t => do
      checkedAdd A sums t.2.2 (A.binary .mul (← x[t.1]?) (← y[t.2.1]?)))
        (Array.replicate (p.product q).nnz none)
      = some ((productTerms p q (p.product q)).foldl (fun sums t =>
        addTo A sums t.2.2 (A.binary .mul (x.getD t.1 z) (y.getD t.2.1 z)))
          (Array.replicate (p.product q).nnz none)) := by
    refine foldlM_some (fun _ _ => size_addTo ..) (fun sums hsums t ht => ?_) Array.size_replicate
    obtain ⟨h1, h2, h3⟩ := lt_of_mem_productTerms hcols ht
    rw [getElem?_eq_getD (z := z) (x := x) (hx ▸ h1),
      getElem?_eq_getD (z := z) (x := y) (hy ▸ h2)]
    exact if_pos (hsums ▸ h3)
  rw [runProduct_eq]
  refine (congrArg (fun ok : Bool => (guard ok : Option Unit).bind _) hcolumns).trans ?_
  exact congrArg (Option.bind · fun sums => some (sums.toList.map (·.getD z))) hrun

theorem checkedScatter_eq {map : ScatterMap} {p : Pattern} {x : List V}
    (hlength : map.length = x.length) (htargets : ∀ r, some r ∈ map → r < p.nnz) :
    checkedScatter A z map p x = some (Id.run (runScatter A z map p x)) := by
  have hrun : map.zipIdx.foldlM (fun sums t =>
      t.1.elim (some sums) fun r => do checkedAdd A sums r (← x[t.2]?)) (Array.replicate p.nnz none)
        = some (map.zipIdx.foldl (fun sums t =>
          t.1.elim sums (addTo A sums · (x.getD t.2 z))) (Array.replicate p.nnz none)) := by
    refine foldlM_some (fun sums t => ?_) (fun sums hsums t ht => ?_) Array.size_replicate
    · cases t.1 with
      | none => rfl
      | some r => exact size_addTo ..
    · obtain ⟨target, k⟩ := t
      have hk := List.mk_mem_zipIdx_iff_getElem?.mp ht
      cases target with
      | none => rfl
      | some r =>
        have hlt : k < x.length := hlength ▸ (List.getElem?_eq_some_iff.mp hk).1
        show (x[k]?).bind (checkedAdd A sums r) = some (addTo A sums r (x.getD k z))
        rw [getElem?_eq_getD (z := z) hlt]
        exact if_pos (hsums ▸ htargets r (List.mem_of_getElem? hk))
  rw [runScatter_eq, zip_eq_map_zipIdx (z := z) hlength, List.foldl_map]
  exact congrArg (Option.bind · fun sums => some (sums.toList.map (·.getD z))) hrun

end MatrixOp

/-! ### Compiled tapes pass the checks -/

namespace MatrixTape

open ScalarTape (mapM_some)

variable {g : MatrixGraph} {inputs outputs : List MatrixId} {tape : MatrixTape} {values : Bundle V}

/-- Arguments that have the nonzeros of the inputs. -/
theorem Compiled.gives (hc : Compiled g inputs outputs tape)
    (hvalues : values.map List.length = inputs.map fun e => (patternIn g e).nnz) :
    g.Gives (supply inputs values) where
  symbols e x hx := by
    obtain ⟨i, hi, -⟩ := Option.map_eq_some_iff.mp hx
    obtain ⟨hlt, rfl, -⟩ := List.idxOf?_eq_some_iff.mp hi
    exact hc.symbols _ (List.getElem_mem hlt)
  fits e x p hx hp := by
    have hknown : ∀ e ∈ inputs, ∃ n, g.node? e = some n := fun e he =>
      (Option.any_eq_true ..).mp (hc.symbols e he) |>.imp fun _ h => h.1
    exact length_supply (map_patternIn hknown) (by rw [hvalues, List.map_map]; rfl) hx hp

/-- Without free symbols, a symbol that is computed is an input. -/
theorem Compiled.mem_inputs (hc : Compiled g inputs outputs tape) (hclosed : tape.freeSymbols = [])
    {e : MatrixId} (he : e.index ∈ (scheduleFor g outputs).computed) (hsymbol : g.isSymbol e = true) :
    e ∈ inputs := by
  by_contra hnot
  have hfree : e ∈ tape.freeSymbols := by
    rw [hc.free, List.mem_filter]
    exact ⟨List.mem_map.mpr ⟨e.index, he, rfl⟩, by simp [hsymbol, hnot]⟩
  rw [hclosed] at hfree
  exact List.not_mem_nil hfree

theorem getElem?_of_idxOf? (hvalues : values.length = inputs.length) {e : MatrixId} {i : Nat}
    (hi : inputs.idxOf? e = some i) : values[i]? = some (values.getD i []) := by
  obtain ⟨hlt, -, -⟩ := List.idxOf?_eq_some_iff.mp hi
  exact MatrixNode.getElem?_eq_getD (hvalues ▸ hlt)

/-- What embedded tapes are run on has the nonzeros of their inputs. -/
theorem checkedReplay_call {r : Routine} {origin : ScalarGraph}
    {ins outs : List (SparseMatrix ScalarId)} (hr : r.ComesFrom origin ins outs) {xs : Bundle V}
    (hxs : xs.map List.length = r.inSizes) {o : Nat} (ho : o < r.outPatterns.length) :
    ((r.tape.checkedReplay A xs [] r.outSizes).bind (·[o]?))
      = some ((Id.run (r.tape.replay A xs [] r.outSizes)).getD o []) := by
  have hcompiled := ScalarTape.compiled_of_compile hr.compile
  have hsupplies := ScalarTape.supplies_reading hcompiled (A.constant 0.0) xs []
  have hfits : ScalarTape.Fits ins r.tape xs [] :=
    ⟨hxs.trans hr.inSizes, by rw [r.closed]; rfl⟩
  rw [hr.outSizes, hcompiled.replay_eq hsupplies,
    hcompiled.checkedReplay_eq hsupplies hfits, Option.bind_some]
  rw [hr.outPatterns, List.length_map] at ho
  exact MatrixNode.getElem?_eq_getD (by rwa [List.length_map])

section Run

variable (hc : Compiled g inputs outputs tape) (hg : g.WellTyped)
  (hvalues : values.map List.length = inputs.map fun e => (patternIn g e).nnz)
  (hclosed : tape.freeSymbols = [])
  (hroutines : ∀ e r arguments o, g.node? e = some (.call r arguments o) → r.IsCompiled)

include hc hg hvalues hclosed hroutines

/-- **An instruction passes the checks** on the values of its operands. -/
theorem Compiled.checkedRun_opOf {e : MatrixId} {n : MatrixNode}
    (he : e.index ∈ (scheduleFor g outputs).computed) (hn : g.node? e = some n) :
    (opOf g inputs tape.freeSymbols e).checkedRun A (A.constant 0.0) values (patternIn g e)
        (n.valueOperands.map (g.evaluate A (supply inputs values)))
      = some (g.evaluate A (supply inputs values) e) := by
  have hgives := hc.gives hvalues
  have hlength : ∀ {a : MatrixId} {q : Pattern}, g.pattern? a = some q →
      (g.evaluate A (supply inputs values) a).length = q.nnz := hg.length_evaluate hgives.fits
  obtain ⟨p, hp, htyped⟩ := hg.exists_typed hn
  rw [MatrixGraph.patternIn_eq hp]
  cases htyped with
  | symbol _ =>
    have hmem := hc.mem_inputs hclosed he (by rw [MatrixGraph.isSymbol, hn]; rfl)
    obtain ⟨i, hi⟩ := Option.isSome_iff_exists.mp (List.isSome_idxOf?.mpr hmem)
    rw [opOf, hn, MatrixGraph.evaluate_of_given (by rw [supply, hi]; rfl)]
    simp only [hi]
    exact getElem?_of_idxOf? (by simpa using congrArg List.length hvalues) hi
  | constant | unary | lift =>
    rw [opOf, hn, MatrixGraph.evaluate_of_node? (hgives.eq_none hn rfl) hn]
    rfl
  | @binary op a b p ha hb _ =>
    have hfits : ∀ {d : MatrixId}, g.Fits p d →
        (g.evaluate A (supply inputs values) d).length = 1 ∨
          (g.evaluate A (supply inputs values) d).length = p.nnz := fun hd =>
      hd.elim (fun h => .inr (hlength h)) fun h => .inl (hlength h)
    rw [opOf, hn, MatrixGraph.evaluate_of_node? (hgives.eq_none hn rfl) hn,
      MatrixGraph.patternIn_eq hp]
    exact MatrixOp.checkedBinary_eq (hfits ha) (hfits hb)
  | @product a b p q ha hb hinner =>
    rw [opOf, hn, MatrixGraph.evaluate_of_node? (hgives.eq_none hn rfl) hn,
      MatrixGraph.patternIn_eq hp]
    simp only [MatrixNode.apply, MatrixGraph.patternIn_eq ha, MatrixGraph.patternIn_eq hb]
    exact MatrixOp.checkedProduct_eq hinner (hlength ha) (hlength hb)
  | gather _ =>
    rw [opOf, hn]
    exact MatrixGraph.gatherFrom_evaluate hg hgives hn
  | @scatter a map p q ha hmap htargets =>
    rw [opOf, hn, MatrixGraph.evaluate_of_node? (hgives.eq_none hn rfl) hn,
      MatrixGraph.patternIn_eq hp]
    exact MatrixOp.checkedScatter_eq (hmap.trans (hlength ha).symm) htargets
  | @call r arguments o p harguments ho =>
    obtain ⟨origin, ins, outs, hr⟩ := hroutines e r arguments o hn
    rw [opOf, hn, MatrixGraph.evaluate_of_node? (hgives.eq_none hn rfl) hn]
    refine checkedReplay_call hr ?_ (List.getElem?_eq_some_iff.mp ho).1
    refine List.ext_getElem? fun i => ?_
    have hi : (arguments.map g.pattern?)[i]? = (r.inPatterns.map some)[i]? := by rw [harguments]
    simp only [List.getElem?_map] at hi
    rw [Routine.inSizes, List.map_map, List.getElem?_map, List.getElem?_map]
    show Option.map _ arguments[i]? = _
    cases ha : arguments[i]? with
    | none => rw [ha] at hi; rw [Option.map_eq_none_iff.mp hi.symm]; rfl
    | some a =>
      rw [ha] at hi
      obtain ⟨q, hq, hqa⟩ := Option.map_eq_some_iff.mp hi.symm
      rw [hq]
      exact congrArg some (hlength hqa.symm)

/-- **Instructions do what steps say** and pass the checks, if all slots that they read have been
written. -/
theorem Compiled.checkedExec_instr {s : SlottedStep} (hs : s ∈ (scheduleFor g outputs).steps)
    {r : CheckedRun V} (hsize : r.slots.size = tape.workSize)
    (hcount : r.outputs.length = outputs.length)
    (hread : s.arguments.map (r.slots.getD · none)
      = (s.step.reads g.valueOperandNumbers).map
        (fun n => some (valueOf g A (supply inputs values) n))) :
    checkedExec A (A.constant 0.0) values r (instr g inputs tape.freeSymbols s)
      = some ⟨s.after (fun n => some (valueOf g A (supply inputs values) n)) r.slots,
        storeStep (fun n => some (valueOf g A (supply inputs values) n)) r.outputs s.step⟩ := by
  have hoperands : s.arguments.mapM r.read?
      = some ((s.step.reads g.valueOperandNumbers).map (valueOf g A (supply inputs values))) := by
    have hmap := congrArg (List.mapM id) hread
    rw [List.mapM_map, List.mapM_map] at hmap
    exact hmap.trans (mapM_some fun n _ => rfl)
  cases hstep : s.step with
  | store root n =>
    have hroot := Schedule.getElem?_of_store (valueOperandNumbers_lt g) hc.roots_lt hs hstep
    have hlt : root < r.outputs.length := by
      rw [hcount, ← List.length_map MatrixId.index]
      exact (List.getElem?_eq_some_iff.mp hroot).1
    rw [hstep] at hoperands
    rw [instr, hstep, SlottedStep.after, hstep, storeStep, checkedExec, hoperands]
    exact if_pos hlt
  | compute n =>
    obtain ⟨slot, hslot, hlt⟩ :=
      Schedule.exists_slot_of_compute (valueOperandNumbers_lt g) hc.roots_lt hs hstep
    have hcomputed : n ∈ (scheduleFor g outputs).computed :=
      List.mem_filterMap.mpr ⟨s, hs, by rw [hstep]; rfl⟩
    obtain ⟨node, hnode⟩ := hc.node?_of_computed hcomputed
    have hvalue := hc.checkedRun_opOf (A := A) hg hvalues hclosed hroutines (e := ⟨n⟩) hcomputed hnode
    have hreads : (s.step.reads g.valueOperandNumbers).map (valueOf g A (supply inputs values))
        = node.valueOperands.map (g.evaluate A (supply inputs values)) := by
      rw [hstep, Step.reads, MatrixGraph.valueOperandNumbers, MatrixGraph.valueOperands, hnode]
      exact List.map_map
    rw [hreads] at hoperands
    rw [instr, hstep, SlottedStep.after, hstep, storeStep, hslot, Option.getD_some]
    dsimp only
    have hop := opOf_ne_output g inputs tape.freeSymbols ⟨n⟩
    generalize opOf g inputs tape.freeSymbols ⟨n⟩ = op at hvalue hop
    have hwrite : checkedExec A (A.constant 0.0) values r
        ⟨op, s.arguments, some slot, patternIn g ⟨n⟩, ⟨n⟩⟩
          = (op.checkedRun A (A.constant 0.0) values (patternIn g ⟨n⟩)
            (node.valueOperands.map (g.evaluate A (supply inputs values)))).bind (r.write? slot) := by
      rw [checkedExec, hoperands]
      cases op with
      | output i => exact absurd rfl (hop i)
      | _ => rfl
    refine hwrite.trans ?_
    rw [hvalue]
    exact if_pos (by rw [hsize, hc.workSize]; exact hlt)

theorem Compiled.foldlM_checkedExec {steps : List SlottedStep}
    (hsteps : ∀ s ∈ steps, s ∈ (scheduleFor g outputs).steps) {r : CheckedRun V}
    (hsize : r.slots.size = tape.workSize) (hcount : r.outputs.length = outputs.length)
    (hfaithful : Schedule.Faithful (Step.reads g.valueOperandNumbers)
      (fun n => some (valueOf g A (supply inputs values) n)) none r.slots steps) :
    ∃ slots, (steps.map (instr g inputs tape.freeSymbols)).foldlM
        (checkedExec A (A.constant 0.0) values) r
      = some ⟨slots, (steps.map SlottedStep.step).foldl
        (storeStep fun n => some (valueOf g A (supply inputs values) n)) r.outputs⟩ := by
  induction steps generalizing r with
  | nil => exact ⟨r.slots, rfl⟩
  | cons s rest ih =>
    obtain ⟨hread, hrest⟩ := hfaithful
    have hstep := hc.checkedExec_instr hg hvalues hclosed hroutines (hsteps s (by simp)) hsize hcount
      hread
    have hcount' : (storeStep (fun n => some (valueOf g A (supply inputs values) n)) r.outputs
        s.step).length = outputs.length := by
      cases s.step with
      | compute n => exact hcount
      | store root n => exact List.length_set.trans hcount
    obtain ⟨slots, hrun⟩ := @ih (fun s' hs' => hsteps s' (by simp [hs']))
      ⟨s.after (fun n => some (valueOf g A (supply inputs values) n)) r.slots,
        storeStep (fun n => some (valueOf g A (supply inputs values) n)) r.outputs s.step⟩
      ((Schedule.size_after ..).trans hsize) hcount' hrest
    refine ⟨slots, ?_⟩
    rw [List.map_cons, List.foldlM_cons, hstep]
    exact hrun

/-- **Compiled tapes pass the checks**, and a checked run has the values of expressions. -/
theorem Compiled.checkedReplay_eq :
    tape.checkedReplay A values outputs.length
      = some (outputs.map (g.evaluate A (supply inputs values))) := by
  have hfaithful := Schedule.faithful_make (valueOperandNumbers_lt g) hc.roots_lt
    (fun n => some (valueOf g A (supply inputs values) n)) none
  obtain ⟨slots, hrun⟩ := hc.foldlM_checkedExec (A := A) hg hvalues hclosed hroutines
    (fun _ hs => hs) (r := .start tape.workSize outputs.length) Array.size_replicate
    List.length_replicate (by rw [hc.workSize]; exact hfaithful)
  have hstored : ((scheduleFor g outputs).steps.map SlottedStep.step).foldl
      (storeStep fun n => some (valueOf g A (supply inputs values) n))
      (CheckedRun.start tape.workSize outputs.length).outputs
      = outputs.map fun e => some (g.evaluate A (supply inputs values) e) :=
    hc.foldl_storeStep_outputs _ _
  rw [checkedReplay, hc.instrs, hrun, hstored]
  simp only [Option.bind_eq_bind, Option.bind_some]
  rw [List.mapM_map]
  exact mapM_some fun e _ => rfl

/-- The rules give the outputs of a compiled tape their values. -/
theorem Compiled.denotes_output {e : MatrixId} (he : e ∈ outputs) :
    g.Denotes A (supply inputs values) e (g.evaluate A (supply inputs values) e) := by
  refine MatrixGraph.denotes_evaluate hg (hc.gives hvalues)
    (S := fun e => e.index ∈ (scheduleFor g outputs).computed) (fun e he => ?_) (fun e he hsymbol => ?_)
    (fun e r arguments o _ => hroutines e r arguments o)
    (Schedule.mem_computed_of_root (valueOperandNumbers_lt g) hc.roots_lt (List.mem_map_of_mem he))
  · obtain ⟨n, hn⟩ := hc.node?_of_computed he
    refine ⟨n, hn, fun a ha => ?_⟩
    refine Schedule.mem_computed_of_operand (valueOperandNumbers_lt g) hc.roots_lt he ?_
    rw [MatrixGraph.valueOperandNumbers, MatrixGraph.valueOperands, hn]
    exact List.mem_map_of_mem ha
  · have hmem := hc.mem_inputs hclosed he hsymbol
    obtain ⟨i, hi⟩ := Option.isSome_iff_exists.mp (List.isSome_idxOf?.mpr hmem)
    exact ⟨values.getD i [], by rw [supply, hi]; rfl⟩

end Run

end MatrixTape

end Fluxion
