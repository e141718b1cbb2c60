import Fluxion.Proofs.Matrix.Backward
import Fluxion.Proofs.Matrix.Forward
import Fluxion.Proofs.Matrix.Functions
import Fluxion.Proofs.Matrix.Linearity

/-!
# Unit seeds of matrix functions

A sweep of a plan is seeded with ones at a group of nonzeros of an input or an output. In a direction in
which these nonzeros of an input move together, outputs move as along each of them alone, added up. Paired
with ones at a group of nonzeros of an output, how the inputs move adds up how these nonzeros do. So both
kinds of sweeps store sums of partial derivatives over the group. Values may be given for the free symbols
of the function as well as for its inputs. If none are, free symbols are zero, and the partial derivatives
are found by running the tape over dual numbers.

The dependency pattern is found by running the tape over sets. A set that a nonzero of an input is not in
belongs to a value that does not move with it.

## Main definitions

* `MatrixTape.tangents` — how an output moves, in storage order, when the inputs do
* `MatrixTape.partials` — derivatives of nonzeros of outputs in nonzeros of inputs
* `MatrixFunction.slope` — the same derivatives where free symbols have values

## Main results

* `MatrixFunction.Ready.slope_eq_zero` — derivatives outside the dependency pattern are zero
* `MatrixFunction.Ready.amounts_forwardColumns`, `MatrixFunction.Ready.amounts_reverseRows` — **what
  sweeps over unit seeds store**
-/

namespace Fluxion

open MatrixBuilder

variable {V : Type} [CommRing V]

/-! ### Matrices by the numbers of their nonzeros -/

/-- Ones at the nonzeros of a group. -/
def indicator (V : Type) [Zero V] [One V] (group : List Nat) (k : Nat) : V :=
  if k ∈ group then 1 else 0

namespace Pattern

variable {p : Pattern} {w : Nat → V} {x : Nat → Nat → V} {k : Nat}

theorem getD_elements {ij : Nat × Nat} (hk : p.positions[k]? = some ij) (x : Nat → Nat → V) :
    (p.elements x).getD k 0 = x ij.1 ij.2 :=
  getD_of_getElem? (by rw [getElem?_elements, hk]; rfl) 0

/-- The matrix with nonzero `k` equal to `w k`. -/
def numbered {V : Type} [Zero V] (p : Pattern) (w : Nat → V) : Nat → Nat → V :=
  p.placed ((List.range p.nnz).map w)

theorem elements_numbered : p.elements (p.numbered w) = (List.range p.nnz).map w :=
  elements_placed (by rw [List.length_map, List.length_range])

theorem numbered_of_getElem? {ij : Nat × Nat} (hk : p.positions[k]? = some ij) :
    p.numbered w ij.1 ij.2 = w k := by
  have hlt : k < p.nnz := (List.getElem?_eq_some_iff.mp hk).1
  rw [numbered, placed_of_getElem? hk]
  exact getD_of_getElem? (by rw [List.getElem?_map, List.getElem?_range hlt]; rfl) 0

/-- A matrix is decided at the positions of a pattern by its nonzeros. -/
theorem eq_numbered (h : ∀ k ij, p.positions[k]? = some ij → x ij.1 ij.2 = w k) (r c : Nat)
    (hrc : (r, c) ∈ p.positions) : x r c = p.numbered w r c := by
  obtain ⟨k, hk⟩ := List.getElem?_of_mem hrc
  exact (h k (r, c) hk).trans (numbered_of_getElem? hk).symm

/-- A group of nonzeros, paired with a matrix, adds up its members. -/
theorem pairing_indicator (group : List Nat) (y : Nat → Nat → V) :
    p.pairing (p.numbered (indicator V group)) y
      = seeded p.nnz group fun k => (p.elements y).getD k 0 := by
  have hterms : p.elements (fun r c => p.numbered (indicator V group) r c * y r c)
      = (List.range p.nnz).map fun k =>
        (if k ∈ group then 1 else 0) * (p.elements y).getD k 0 := by
    refine List.ext_getElem? fun k => ?_
    rw [getElem?_elements, List.getElem?_map]
    cases hk : p.positions[k]? with
    | none =>
      have hle : p.nnz ≤ k := List.getElem?_eq_none_iff.mp hk
      rw [List.getElem?_eq_none (by rwa [List.length_range])]
      rfl
    | some ij =>
      have hlt : k < p.nnz := (List.getElem?_eq_some_iff.mp hk).1
      rw [List.getElem?_range hlt, Option.map_some, Option.map_some, numbered_of_getElem? hk,
        getD_elements hk]
      rfl
  rw [pairing, hterms, sum_map_ite_mul]
  rfl

/-- A single nonzero, paired with a matrix, takes its element. -/
theorem pairing_unit {j : Nat} {ij : Nat × Nat} (hj : p.positions[j]? = some ij) {y : Nat → Nat → V}
    (hy : ∀ k ij, p.positions[k]? = some ij → y ij.1 ij.2 = if k = j then 1 else 0) :
    p.pairing x y = x ij.1 ij.2 := by
  rw [pairing_eq_sum_range, Finset.sum_eq_single j]
  · rw [getD_elements hj, getD_elements hj, hy j ij hj, if_pos rfl, mul_one]
  · intro k hk hkj
    obtain ⟨kl, hkl⟩ := exists_position (Finset.mem_range.mp hk)
    rw [getD_elements hkl, getD_elements hkl, hy k kl hkl, if_neg hkj, mul_zero]
  · intro hnot
    exact absurd (Finset.mem_range.mpr (List.getElem?_eq_some_iff.mp hj).1) hnot

end Pattern

/-! ### Directions of the inputs -/

/-- Nonzero `j` of input `i` moves. -/
def unitAt (V : Type) [Zero V] [One V] (i j i' l : Nat) : V := if i' = i ∧ l = j then 1 else 0

/-- Of `n` nonzeros of input `i` those of a group move. -/
def groupAt (V : Type) [CommRing V] (n i : Nat) (group : List Nat) (i' l : Nat) : V :=
  seeded n group fun j => unitAt V i j i' l

/-- Values of inputs that move in a direction. -/
def movedValues (values : Bundle V) (dx : Nat → Nat → V) : Bundle (DualNumber V) :=
  values.zipIdx.map fun row => row.1.zipIdx.map fun v => dualOf v.1 (dx row.2 v.2)

/-- A direction of the inputs as one of their expressions. -/
def inputDirection (inputs : List MatrixId) (dx : Nat → Nat → V) (e : MatrixId) (l : Nat) : V :=
  (inputs.idxOf? e).elim 0 fun i => dx i l

theorem supply_movedValues (inputs : List MatrixId) (values : Bundle V) (dx : Nat → Nat → V) :
    MatrixTape.supply inputs (movedValues values dx)
      = MatrixGraph.moving (MatrixTape.supply inputs values) (inputDirection inputs dx) := by
  funext e
  rw [MatrixGraph.moving, MatrixTape.supply, MatrixTape.supply]
  cases he : inputs.idxOf? e with
  | none => rfl
  | some i =>
    refine congrArg some ?_
    simp only [inputDirection, he, Option.elim_some, List.getD_eq_getElem?_getD, movedValues,
      List.getElem?_map, List.getElem?_zipIdx]
    cases values[i]? <;> simp

theorem inputDirection_eq {inputs : List MatrixId} {e : MatrixId} {i : Nat}
    (he : inputs.idxOf? e = some i) (dx : Nat → Nat → V) : inputDirection inputs dx e = dx i := by
  funext l
  rw [inputDirection, he]
  rfl

theorem inputDirection_fixed {inputs : List MatrixId} {e : MatrixId} (he : inputs.idxOf? e = none)
    (dx : Nat → Nat → V) : inputDirection inputs dx e = 0 := by
  funext l
  rw [inputDirection, he]
  rfl

theorem groupAt_eq {n i l : Nat} (group : List Nat) (hl : l < n) :
    groupAt V n i group i l = if l ∈ group then 1 else 0 := by
  by_cases hmem : l ∈ group
  · have hother : ∀ k < n, k ∈ group → k ≠ l → unitAt V i k i l = 0 :=
      fun k _ _ hk => if_neg fun h => hk h.2.symm
    rw [groupAt, seeded_eq hl hmem hother, if_pos hmem, unitAt, if_pos ⟨rfl, rfl⟩]
  · rw [if_neg hmem]
    refine List.sum_eq_zero fun v hv => ?_
    obtain ⟨k, hk, rfl⟩ := List.mem_map.mp hv
    refine if_neg fun h => hmem ?_
    rw [h.2]
    exact of_decide_eq_true (List.mem_filter.mp hk).2

theorem groupAt_other {n i i' l : Nat} (group : List Nat) (hi : i' ≠ i) :
    groupAt V n i group i' l = 0 := by
  refine List.sum_eq_zero fun v hv => ?_
  obtain ⟨k, -, rfl⟩ := List.mem_map.mp hv
  exact if_neg fun h => hi h.1

/-! ### Partial derivatives -/

namespace MatrixTape

/-- How output `o` moves, in storage order, when the inputs move in a direction. -/
def tangents (tape : MatrixTape) (I : Interpretation V) (values : Bundle V) (count : Nat)
    (dx : Nat → Nat → V) (o : Nat) : List V :=
  ((Id.run (tape.replay I.dualAlgebra (movedValues values dx) count)).getD o []).map
    TrivSqZeroExt.snd

/-- The derivative of nonzero `k` of output `o` in nonzero `j` of input `i`, zero where there are no such
nonzeros. -/
def partials (tape : MatrixTape) (I : Interpretation V) (values : Bundle V) (count i o k j : Nat) : V :=
  (tape.tangents I values count (unitAt V i j) o).getD k 0

end MatrixTape

namespace MatrixFunction

open MatrixGraph

variable {f : MatrixFunction} {g h : MatrixGraph} {tape : MatrixTape} {I : Interpretation V}
  {given given' : MatrixId → Option (List V)} {values : Bundle V} {dx : Nat → Nat → V} {i o k j : Nat}
  {e : MatrixId} {p : Pattern}

theorem Ready.replay_getD {W : Type} (hf : f.Ready g) (htape : f.tape? = some tape)
    (ho : f.outputs[o]? = some e) (A : Algebra Id W) (values : Bundle W) :
    (Id.run (tape.replay A values f.outCount)).getD o []
      = g.evaluate A (MatrixTape.supply f.inputs values) e := by
  rw [outCount, (hf.resides tape htape).replay_eq]
  exact getD_of_getElem? (by rw [List.getElem?_map, ho]; rfl) []

/-- How output `o` moves, in storage order, when the inputs move in a direction and free symbols have
values as well. -/
def slopes (f : MatrixFunction) (g : MatrixGraph) (I : Interpretation V)
    (given : MatrixId → Option (List V)) (dx : Nat → Nat → V) (o : Nat) : List V :=
  f.outputs[o]?.elim [] fun e =>
    (f.outPattern o).elements (g.tangentOf I given (inputDirection f.inputs dx) e)

/-- The derivative of nonzero `k` of output `o` in nonzero `j` of input `i`, where free symbols have
values as well. -/
def slope (f : MatrixFunction) (g : MatrixGraph) (I : Interpretation V)
    (given : MatrixId → Option (List V)) (i o k j : Nat) : V :=
  (f.slopes g I given (unitAt V i j) o).getD k 0

theorem slopes_eq (ho : f.outputs[o]? = some e) (dx : Nat → Nat → V) : f.slopes g I given dx o
    = (f.outPattern o).elements (g.tangentOf I given (inputDirection f.inputs dx) e) := by
  rw [slopes, ho, Option.elim_some]

/-- If free symbols are zero, outputs move as the tape does over dual numbers. -/
theorem Ready.slopes_supply (hf : f.Ready g) (htape : f.tape? = some tape)
    (hg : g.Sound I (MatrixTape.supply f.inputs values)) (ho : f.outputs[o]? = some e)
    (dx : Nat → Nat → V) :
    f.slopes g I (MatrixTape.supply f.inputs values) dx o = tape.tangents I values f.outCount dx o := by
  rw [MatrixTape.tangents, hf.replay_getD htape ho, supply_movedValues,
    map_snd_evaluate hg (hf.pattern?_output ho), slopes_eq ho]

theorem Ready.slope_supply (hf : f.Ready g) (htape : f.tape? = some tape)
    (hg : g.Sound I (MatrixTape.supply f.inputs values)) (i o : Nat) :
    f.slope g I (MatrixTape.supply f.inputs values) i o = tape.partials I values f.outCount i o := by
  funext k j
  rw [slope, MatrixTape.partials]
  cases he : f.outputs[o]? with
  | some e => rw [hf.slopes_supply htape hg he]
  | none =>
    rw [slopes, he, MatrixTape.tangents, outCount, (hf.resides tape htape).replay_eq,
      List.getD_eq_getElem?_getD (l := f.outputs.map _), List.getElem?_map, he]
    rfl

/-- Slopes do not change when the graph grows, whatever is given for what is added. -/
theorem Ready.slope_congr_given (hf : f.Ready g) (hgrow : g.Grows h)
    (hgiven : ∀ a : MatrixId, a.index < g.size → given' a = given a) (i o : Nat) :
    f.slope h I given' i o = f.slope g I given i o := by
  funext k j
  rw [slope, slope, slopes, slopes]
  cases he : f.outputs[o]? with
  | none => rfl
  | some e => rw [Option.elim_some, Option.elim_some,
      tangentOf_congr_given hgrow hgiven (hf.pattern?_output he)]

theorem Ready.slope_grow (hf : f.Ready g) (hgrow : g.Grows h) (i o : Nat) :
    f.slope h I given i o = f.slope g I given i o :=
  hf.slope_congr_given hgrow (fun _ _ => rfl) i o

theorem inputDirection_groupAt (inputs : List MatrixId) (n i : Nat) (group : List Nat) :
    inputDirection inputs (groupAt V n i group) = fun e l =>
      (((List.range n).filter (· ∈ group)).map fun j => inputDirection inputs (unitAt V i j) e l).sum := by
  funext e l
  simp only [inputDirection]
  cases inputs.idxOf? e with
  | none => exact (List.sum_eq_zero fun v hv => by
      obtain ⟨_, -, rfl⟩ := List.mem_map.mp hv
      rfl).symm
  | some i => rfl

/-- Along a group of nonzeros an output moves as along its members together. -/
theorem slopes_groupAt (ho : f.outputs[o]? = some e) (n : Nat) (group : List Nat) :
    (f.slopes g I given (groupAt V n i group) o).getD k 0
      = seeded n group fun j => f.slope g I given i o k j := by
  simp only [slope, slopes_eq ho, List.getD_eq_getElem?_getD, Pattern.getElem?_elements]
  cases (f.outPattern o).positions[k]? with
  | none => exact (List.sum_eq_zero fun v hv => by
      obtain ⟨_, -, rfl⟩ := List.mem_map.mp hv
      rfl).symm
  | some ij =>
    rw [inputDirection_groupAt]
    exact tangentOf_sum _ _

/-! ### Dependencies -/

/-- A set of nonzeros that a value depends on: if nonzero `j` is not in it, the value does not move with
that one. -/
theorem related_dependencies (I : Interpretation V) (j : Nat) :
    Algebra.Related (fun (s : Nat) (x : DualNumber V) => s.testBit j = false → x.snd = 0)
      dependencyAlgebra I.dualAlgebra where
  constant _ := fun _ => rfl
  unary op {s x} hx := fun hs => (I.snd_dual_unary op x).trans (by rw [hx hs, mul_zero])
  binary op {s s' x y} hx hy := fun hs => by
    change (s ||| s').testBit j = false at hs
    rw [Nat.testBit_or, Bool.or_eq_false_iff] at hs
    exact (I.snd_dual_binary op x y).trans (by rw [hx hs.1, hy hs.2, mul_zero, mul_zero, add_zero])

/-- The sets that a run starts with belong to an input that moves along one nonzero. -/
theorem forall₂_dependencySeeds {row : List V} (hrow : row.length = (f.inPattern k).nnz)
    (hk : k < f.inPatterns.length) (i j : Nat) :
    List.Forall₂ (fun (s : Nat) (x : DualNumber V) => s.testBit j = false → x.snd = 0)
      ((ScalarTape.dependencySeeds f.inSizes i).getD k [])
      (row.zipIdx.map fun v => dualOf v.1 (unitAt V i j k v.2)) := by
  have hseeds : (ScalarTape.dependencySeeds f.inSizes i).getD k []
      = (row.zipIdx.map Prod.snd).map fun l => if k = i then dependsOn l else 0 := by
    have hsize : f.inSizes[k]? = some row.length := by
      rw [hrow, inSizes, List.getElem?_map, List.getElem?_eq_getElem hk, inPattern,
        List.getD_eq_getElem _ _ hk]
      rfl
    refine getD_of_getElem? ?_ []
    rw [ScalarTape.dependencySeeds, List.getElem?_map, List.getElem?_zipIdx, hsize,
      List.zipIdx_map_snd]
    simp [List.range_eq_range']
  rw [hseeds, List.map_map]
  refine forall₂_map_same _ fun v _ hbit => if_neg fun hplace => ?_
  obtain ⟨rfl, rfl⟩ := hplace
  simp [dependsOn] at hbit

theorem dependencyPattern_eq_ok (htape : f.tape? = some tape) (hp : f.dependencyPattern i o = .ok p) :
    p = ScalarTape.dependencyPattern (tape.dependencies f.inSizes f.outCount i o)
      (f.inPattern i).nnz := by
  rw [dependencyPattern, checkInput, checkOutput, MatrixFunction.tape, htape] at hp
  split at hp
  · split at hp
    · exact (Except.ok.inj hp).symm
    · contradiction
  · contradiction

/-- Values for the inputs, and zeros for the free symbols that values are given for. -/
def zeroed {W : Type} [Zero W] (f : MatrixFunction) (given : MatrixId → Option (List V))
    (values : Bundle W) (e : MatrixId) : Option (List W) :=
  (MatrixTape.supply f.inputs values e).or ((given e).map (List.map fun _ => 0))

/-- Zeros are what free symbols are that nothing is given for. -/
theorem evaluate_zeroed {W : Type} [Zero W] {A : Algebra Id W} (hzero : A.constant 0.0 = 0)
    (hadmits : g.Admits I.algebra given) (values : Bundle W) (he : ∃ n, g.node? e = some n) :
    g.evaluate A (f.zeroed given values) e = g.evaluate A (MatrixTape.supply f.inputs values) e := by
  induction e using valueOperands_induction g with
  | step e ih =>
    obtain ⟨n, hn⟩ := he
    cases hsupply : MatrixTape.supply f.inputs values e with
    | some row =>
      rw [evaluate_of_given hsupply, evaluate_of_given (by rw [zeroed, hsupply]; rfl)]
    | none =>
      rw [evaluate_of_node? hsupply hn]
      cases hgiven : given e with
      | none =>
        rw [evaluate_of_node? (by rw [zeroed, hsupply, hgiven]; rfl) hn]
        refine MatrixNode.apply_congr (fun _ _ => rfl) fun a ha => ih n hn a ha ?_
        have hlt : a.index < g.size := (g.operands_before hn a (n.valueOperands_subset ha)).trans
          (index_lt_of_node? hn)
        exact ⟨_, Option.map_eq_some_iff.mpr ⟨_, Array.getElem?_eq_getElem hlt, rfl⟩⟩
      | some row =>
        obtain ⟨p, hp⟩ : ∃ p, g.pattern? e = some p := by
          obtain ⟨entry, hentry, -⟩ := Option.map_eq_some_iff.mp hn
          exact ⟨_, Option.map_eq_some_iff.mpr ⟨entry, hentry, rfl⟩⟩
        have hzeros : f.zeroed given values e = some (row.map fun _ => 0) := by
          rw [zeroed, hsupply, hgiven]
          rfl
        rw [evaluate_of_given hzeros, List.map_const', hadmits.fits e row p hgiven hp, patternIn_eq hp]
        cases n with
        | symbol serial q => rw [MatrixNode.apply, hzero]
        | _ =>
          rw [hadmits.symbols e _ hn rfl] at hgiven
          contradiction

/-- While one nonzero of an input moves, values of an output do not move whose sets leave it out. -/
theorem Ready.forall₂_dependencies (hf : f.Ready g) (htape : f.tape? = some tape)
    (hg : g.Sound I given) (hgiven : ∀ e ∈ f.inputs, ∃ values, given e = some values)
    (ho : f.outputs[o]? = some e) (i j : Nat) :
    List.Forall₂ (fun (s : Nat) (x : DualNumber V) => s.testBit j = false → x.snd = 0)
      (tape.dependencies f.inSizes f.outCount i o)
      (g.evaluate I.dualAlgebra (moving given (inputDirection f.inputs (unitAt V i j))) e) := by
  obtain ⟨entry, hentry, -⟩ := Option.map_eq_some_iff.mp (hf.pattern?_output ho)
  rw [MatrixTape.dependencies, hf.replay_getD htape ho, ← evaluate_zeroed rfl hg.admits _
    ⟨_, Option.map_eq_some_iff.mpr ⟨entry, hentry, rfl⟩⟩]
  refine g.related_evaluate (related_dependencies I j) (fun a => ?_) _
  rw [zeroed, MatrixTape.supply, moving]
  cases hi : f.inputs.idxOf? a with
  | some k =>
    have ha := getElem?_eq_of_idxOf? hi
    obtain ⟨row, hrow⟩ := hgiven a (List.mem_of_getElem? ha)
    rw [hrow, inputDirection_eq hi]
    refine .some (forall₂_dependencySeeds (hg.admits.fits a row _ hrow (hf.pattern?_input ha)) ?_ i j)
    exact hf.inCount_eq ▸ (List.getElem?_eq_some_iff.mp ha).1
  | none =>
    rw [inputDirection_fixed hi]
    cases given a with
    | none => exact .none
    | some row =>
      have hzeros : row.map (fun _ => 0) = row.zipIdx.map fun _ => 0 := by simp
      exact .some (hzeros ▸ forall₂_map_same _ fun _ _ _ => rfl)

/-- Nothing moves with a nonzero that an input does not have. -/
theorem Ready.slope_eq_zero_of_le (hf : f.Ready g) (hg : g.Sound I given)
    (ho : f.outputs[o]? = some e) (hj : (f.inPattern i).nnz ≤ j) : f.slope g I given i o k j = 0 := by
  have hstill : g.tangentOf I given (inputDirection f.inputs (unitAt V i j))
      = g.tangentOf I given 0 := by
    refine tangentOf_congr fun a row l hrow hl => ?_
    cases hi : f.inputs.idxOf? a with
    | none => exact congrFun (inputDirection_fixed hi _) l
    | some k =>
      rw [inputDirection_eq hi]
      refine if_neg fun hplace => Nat.not_lt.mpr hj ?_
      have ha := getElem?_eq_of_idxOf? hi
      rw [hg.admits.fits a row _ hrow (hf.pattern?_input ha)] at hl
      rw [← hplace.1, ← hplace.2]
      exact hl
  rw [slope, slopes_eq ho, hstill, List.getD_eq_getElem?_getD, Pattern.getElem?_elements]
  cases (f.outPattern o).positions[k]? with
  | none => rfl
  | some ij => exact tangentOf_zero

/-- **Derivatives outside the dependency pattern are zero.** -/
theorem Ready.slope_eq_zero (hf : f.Ready g) (htape : f.tape? = some tape) (hg : g.Sound I given)
    (hgiven : ∀ e ∈ f.inputs, ∃ values, given e = some values)
    (hp : f.dependencyPattern i o = .ok p) (hkj : (k, j) ∉ p.positions) :
    f.slope g I given i o k j = 0 := by
  obtain ⟨hi, ho, -, hcols⟩ := shape_dependencyPattern hf hg.typed hp
  have hget : f.outputs[o]? = some f.outputs[o] := List.getElem?_eq_getElem ho
  rcases Nat.lt_or_ge j (f.inPattern i).nnz with hj | hj
  · have hrows := hf.forall₂_dependencies htape hg hgiven hget i j
    have hbit : ((tape.dependencies f.inSizes f.outCount i o).getD k 0).testBit j = false := by
      rw [dependencyPattern_eq_ok htape hp, ScalarTape.mem_positions_dependencyPattern] at hkj
      by_cases hk : k < (tape.dependencies f.inSizes f.outCount i o).length
      · simpa [hk, hj] using hkj
      · rw [List.getD_eq_getElem?_getD, List.getElem?_eq_none (Nat.le_of_not_lt hk), Option.getD_none,
          Nat.zero_testBit]
    have hrow := forall₂_getD hrows (fun _ => rfl : Nat.testBit 0 j = false → (0 : DualNumber V).snd = 0) k
    rw [slope, slopes_eq hget, ← map_snd_evaluate hg (hf.pattern?_output hget)]
    exact (List.getD_map _ _ TrivSqZeroExt.snd).trans (hrow hbit)
  · exact hf.slope_eq_zero_of_le hg hget hj

/-- Partial derivatives are symmetric if they are among the nonzeros that there are. -/
theorem Ready.slope_comm (hf : f.Ready g) (htape : f.tape? = some tape) (hg : g.Sound I given)
    (hgiven : ∀ e ∈ f.inputs, ∃ values, given e = some values) (hi : i < f.inCount)
    (ho : o < f.outCount) {n : Nat} (hrows : (f.outPattern o).nnz = n)
    (hcols : (f.inPattern i).nnz = n)
    (hcomm : ∀ k < n, ∀ j < n, f.slope g I given i o k j = f.slope g I given i o j k) (k j : Nat) :
    f.slope g I given i o k j = f.slope g I given i o j k := by
  obtain ⟨p, hp⟩ := exists_dependencyPattern htape hi ho
  obtain ⟨-, -, hnrows, hncols⟩ := shape_dependencyPattern hf hg.typed hp
  rw [hrows] at hnrows
  rw [hcols] at hncols
  by_cases hkj : k < n ∧ j < n
  · exact hcomm k hkj.1 j hkj.2
  · have hleft : (k, j) ∉ p.positions := fun hmem =>
      hkj ⟨hnrows ▸ Pattern.row_lt_of_mem_positions hmem,
        hncols ▸ Pattern.column_lt_of_mem_positions hmem⟩
    have hright : (j, k) ∉ p.positions := fun hmem =>
      hkj ⟨hncols ▸ Pattern.column_lt_of_mem_positions hmem,
        hnrows ▸ Pattern.row_lt_of_mem_positions hmem⟩
    rw [hf.slope_eq_zero htape hg hgiven hp hleft, hf.slope_eq_zero htape hg hgiven hp hright]

omit [CommRing V] in
theorem exists_supply (values : Bundle V) :
    ∀ e ∈ f.inputs, ∃ row, MatrixTape.supply f.inputs values e = some row := by
  intro e he
  cases hi : f.inputs.idxOf? e with
  | none => exact absurd he (List.idxOf?_eq_none_iff.mp hi)
  | some i => exact ⟨_, by rw [MatrixTape.supply, hi]; rfl⟩

/-! ### Seeds -/

theorem stores_groupSeed (I : Interpretation V) (given : MatrixId → Option (List V)) (p : Pattern)
    (group : List Nat) : Keeps (groupSeed p group) g
      fun s h => h.Stores I.algebra given s p (p.numbered (indicator V group)) := by
  refine stores_constant _ fun h _ _ => ?_
  change ((List.range p.nnz).map _).map I.literal = p.elements (p.numbered (indicator V group))
  rw [Pattern.elements_numbered, List.map_map]
  refine List.map_congr_left fun k hk => ?_
  have hmask : (seedMask p.nnz group).getD k false = decide (k ∈ group) :=
    getD_of_getElem? (by rw [getElem?_seedMask, if_pos (List.mem_range.mp hk)]) false
  simp only [Function.comp_apply, hmask, decide_eq_true_eq, indicator]
  split
  · exact I.literal_one
  · exact I.literal_zero

theorem stores_groupSeeds (I : Interpretation V) (given : MatrixId → Option (List V)) (p : Pattern)
    (groups : List (List Nat)) : Keeps (groups.mapM (groupSeed p)) g fun seeds h =>
      List.Forall₂ (fun group s => h.Stores I.algebra given s p (p.numbered (indicator V group)))
        groups seeds :=
  Keeps.mapM (fun _ _ _ _ hgh hs => hs.grow hgh) fun group _ _ _ => stores_groupSeed I given p group

section Seeds

variable (hf : f.Ready g) {s : MatrixId} (group : List Nat)

include hf

/-- Inputs move as the direction says. -/
theorem Ready.tangentOf_input (hg : g.Sound I given)
    (hgiven : ∀ e ∈ f.inputs, ∃ values, given e = some values) {x : MatrixId}
    (hx : f.inputs.idxOf? x = some i) {ij : Nat × Nat} (hk : (f.inPattern i).positions[k]? = some ij)
    (dx : Nat → Nat → V) :
    g.tangentOf I given (inputDirection f.inputs dx) x ij.1 ij.2 = dx i k := by
  have he := getElem?_eq_of_idxOf? hx
  obtain ⟨row, hrow⟩ := hgiven x (List.mem_of_getElem? he)
  rw [tangentOf_given hrow hg (hf.pattern?_input he) hk, inputDirection_eq hx]

/-- A seed of a group moves the nonzeros of the group. -/
theorem Ready.seedMoves_group (hi : i < f.inCount) (hg : g.Sound I given)
    (hgiven : ∀ e ∈ f.inputs, ∃ values, given e = some values)
    (hs : g.Stores I.algebra given s (f.inPattern i)
      ((f.inPattern i).numbered (indicator V group))) :
    MatrixTape.SeedMoves g I given f.inputs
      (inputDirection f.inputs (groupAt V (f.inPattern i).nnz i group)) (seedAt f.inCount i s) where
  moves i' x hx := by
    refine ⟨f.inPattern i', hf.pattern?_input (getElem?_eq_of_idxOf? hx), ?_⟩
    rw [getD_seedAt hi]
    by_cases hi' : i' = i
    · subst hi'
      rw [if_pos rfl]
      refine AmountsTo.readsAs (hs.congr fun r c hrc => ?_)
      refine (Pattern.eq_numbered (fun k ij hk => ?_) r c hrc).symm
      have hlt : k < (f.inPattern i').nnz := (List.getElem?_eq_some_iff.mp hk).1
      rw [hf.tangentOf_input hg hgiven hx hk, groupAt_eq group hlt, indicator]
    · rw [if_neg hi']
      intro r c hrc
      obtain ⟨k, hk⟩ := List.getElem?_of_mem hrc
      rw [hf.tangentOf_input hg hgiven hx hk, groupAt_other group hi']
  fixed x hx := inputDirection_fixed hx _

/-- A seed of a group weighs the nonzeros of the group. -/
theorem Ready.seedWeighs_group (ho : o < f.outCount)
    (hs : g.Stores I.algebra given s (f.outPattern o)
      ((f.outPattern o).numbered (indicator V group))) :
    MatrixTape.SeedWeighs g I given f.outputs
      (fun o' => if o' = o then (f.outPattern o).numbered (indicator V group) else 0)
      (seedAt f.outCount o s) := by
  intro o' e he
  refine ⟨f.outPattern o', hf.pattern?_output he, ?_⟩
  rw [getD_seedAt ho]
  dsimp only
  by_cases ho' : o' = o
  · subst ho'
    rw [if_pos rfl, if_pos rfl]
    exact AmountsTo.readsAs hs
  · rw [if_neg ho', if_neg ho']
    exact fun _ _ _ => rfl

end Seeds

/-- Of the inputs, paired with how they move along one nonzero, only that one is left. -/
theorem Ready.sum_pairing_input (hf : f.Ready g) (htape : f.tape? = some tape) (hg : g.Sound I given)
    (hgiven : ∀ e ∈ f.inputs, ∃ values, given e = some values) {x : MatrixId}
    (hx : f.inputs[i]? = some x) {ij : Nat × Nat} (hj : (f.inPattern i).positions[j]? = some ij)
    (adj : MatrixId → Nat → Nat → V) :
    (f.inputs.map fun e => (MatrixTape.patternIn g e).pairing (adj e)
      (g.tangentOf I given (inputDirection f.inputs (unitAt V i j)) e)).sum = adj x ij.1 ij.2 := by
  have hnodup := (hf.resides tape htape).nodup
  have hxi := idxOf?_of_getElem? hnodup hx
  rw [List.sum_map_eq_nsmul_single x, List.count_eq_one_of_mem hnodup (List.mem_of_getElem? hx),
    one_nsmul, patternIn_eq (hf.pattern?_input hx), Pattern.pairing_unit hj fun k kl hk => ?_]
  · rw [hf.tangentOf_input hg hgiven hxi hk, unitAt]
    exact if_congr (and_iff_right rfl) rfl rfl
  · intro e hne he
    obtain ⟨i', hi'⟩ := List.getElem?_of_mem he
    rw [patternIn_eq (hf.pattern?_input hi')]
    refine Pattern.pairing_eq_zero fun r c hrc => ?_
    obtain ⟨k, hk⟩ := List.getElem?_of_mem hrc
    rw [hf.tangentOf_input hg hgiven (idxOf?_of_getElem? hnodup hi') hk, unitAt,
      if_neg fun h => hne (Option.some.inj ((h.1 ▸ hi').symm.trans hx)), mul_zero]

/-- Of the outputs, of which one is weighed by a group, the derivatives in the group are left. -/
theorem Ready.sum_pairing_output (hf : f.Ready g) (ho : f.outputs[o]? = some e) (group : List Nat)
    (t : MatrixId → Nat → Nat → V) :
    (f.outputs.zipIdx.map fun eo => (MatrixTape.patternIn g eo.1).pairing
      (if eo.2 = o then (f.outPattern o).numbered (indicator V group) else 0) (t eo.1)).sum
      = seeded (f.outPattern o).nnz group fun k => ((f.outPattern o).elements (t e)).getD k 0 := by
  have hlt : o < f.outputs.length := (List.getElem?_eq_some_iff.mp ho).1
  rw [sum_map_zipIdx, Finset.sum_eq_single o]
  · rw [ho, Option.elim_some, if_pos rfl, patternIn_eq (hf.pattern?_output ho),
      Pattern.pairing_indicator]
  · intro o' _ hne
    cases f.outputs[o']? with
    | none => rfl
    | some e' =>
      rw [Option.elim_some, if_neg hne]
      exact Pattern.pairing_eq_zero fun _ _ _ => zero_mul _
  · intro hnot
    exact absurd (Finset.mem_range.mpr hlt) hnot

/-! ### Sweeps -/

/-- **Forward sweeps** show, for each nonzero of the output, the derivatives in the group together. -/
theorem Ready.amounts_forwardColumns (hf : f.Ready g) (htape : f.tape? = some tape)
    (hgiven : ∀ e ∈ f.inputs, ∃ values, given e = some values) (hi : i < f.inCount)
    (ho : o < f.outCount) {groups : List (List Nat)} {seeds : List MatrixId}
    (hseeds : List.Forall₂ (fun group s => g.Stores I.algebra given s (f.inPattern i)
      ((f.inPattern i).numbered (indicator V group))) groups seeds) :
    Keeps (f.forwardColumns i o seeds) g fun columns h => h.Reliable I given →
      List.Forall₂ (fun group t => h.AmountsTo I.algebra given t (f.outPattern o)
        ((f.outPattern o).numbered fun k => seeded (f.inPattern i).nnz group fun j =>
          f.slope g I given i o k j)) groups columns := by
  refine keeps_of_wellTyped fun hg => keeps_ofExcept_bind fun tape' ht => ?_
  obtain rfl : tape = tape' := by
    rw [MatrixFunction.tape, htape] at ht
    exact Except.ok.inj ht
  have hget : f.outputs[o]? = some f.outputs[o] := List.getElem?_eq_getElem ho
  have hmoves : MatrixTape.AllMove I given f.inputs
      (groups.map fun group => inputDirection f.inputs (groupAt V (f.inPattern i).nnz i group))
      (seeds.map (seedAt f.inCount i)) g :=
    List.forall₂_map_left_iff.mpr (List.forall₂_map_right_iff.mpr (hseeds.imp fun group s hs hr =>
      hf.seedMoves_group group hi ⟨hg, hr.admits⟩ hgiven hs))
  refine (MatrixTape.follows_forward (hf.resides tape htape) hmoves).bind fun moved h hgh hmoved =>
    keeps_pure fun hr => ?_
  refine List.forall₂_map_right_iff.mpr ((List.forall₂_map_left_iff.mp (hmoved hr)).imp
    fun group row hrow => ?_)
  obtain ⟨p, hp, hrow⟩ := hrow o _ hget
  obtain rfl := Option.some.inj ((hgh.pattern? (hf.pattern?_output hget)).symm.trans hp)
  refine hrow.congr (Pattern.eq_numbered fun k ij hk => ?_)
  rw [tangentOf_of_grows hgh (hf.pattern?_output hget), ← slopes_groupAt hget, slopes_eq hget]
  exact (Pattern.getD_elements hk _).symm

/-- **Reverse sweeps** show, for each nonzero of the input, the derivatives in it of the group together. -/
theorem Ready.amounts_reverseRows (hf : f.Ready g) (hcompiled : g.RoutinesCompiled)
    (htape : f.tape? = some tape) (hgiven : ∀ e ∈ f.inputs, ∃ values, given e = some values)
    (hi : i < f.inCount) (ho : o < f.outCount) {groups : List (List Nat)} {seeds : List MatrixId}
    (hseeds : List.Forall₂ (fun group s => g.Stores I.algebra given s (f.outPattern o)
      ((f.outPattern o).numbered (indicator V group))) groups seeds) :
    Keeps (f.reverseRows i o seeds) g fun rows h => h.Reliable I given →
      List.Forall₂ (fun group t => h.AmountsTo I.algebra given t (f.inPattern i)
        ((f.inPattern i).numbered fun j => seeded (f.outPattern o).nnz group fun k =>
          f.slope g I given i o k j)) groups rows := by
  refine keeps_of_wellTyped fun hg => keeps_ofExcept_bind fun tape' ht => ?_
  obtain rfl : tape = tape' := by
    rw [MatrixFunction.tape, htape] at ht
    exact Except.ok.inj ht
  have hin : f.inputs[i]? = some f.inputs[i] := List.getElem?_eq_getElem hi
  have hout : f.outputs[o]? = some f.outputs[o] := List.getElem?_eq_getElem ho
  have hweighs : MatrixTape.AllWeigh I given f.outputs
      (groups.map fun group o' => if o' = o then (f.outPattern o).numbered (indicator V group) else 0)
      (seeds.map (seedAt f.outCount o)) g :=
    List.forall₂_map_left_iff.mpr (List.forall₂_map_right_iff.mpr (hseeds.imp fun group s hs _ =>
      hf.seedWeighs_group group ho hs))
  refine (MatrixTape.balances_reverse (hf.resides tape htape) hcompiled hweighs).bind
    fun adjoints h hgh hadjoints => keeps_pure fun hr => ?_
  have hsound : g.Sound I given := ⟨hg, (hr.of_grows hgh).admits⟩
  refine List.forall₂_map_right_iff.mpr ((List.forall₂_map_left_iff.mp (hadjoints hr)).imp
    fun group row hrow => ?_)
  obtain ⟨adj, hstored, hbalance⟩ := hrow
  refine (hstored i _ _ hin (hf.pattern?_input hin)).congr (Pattern.eq_numbered fun j ij hj => ?_)
  have hslopes : (fun k => f.slope g I given i o k j) = fun k => ((f.outPattern o).elements
      (g.tangentOf I given (inputDirection f.inputs (unitAt V i j)) f.outputs[o])).getD k 0 := by
    funext k
    rw [slope, slopes_eq hout]
  have hinput := hf.sum_pairing_input htape hsound hgiven hin hj adj
  have houtput := hf.sum_pairing_output hout group
    (g.tangentOf I given (inputDirection f.inputs (unitAt V i j)))
  rw [hslopes, ← houtput, ← hbalance _ fun e he => inputDirection_fixed he _, hinput]

end MatrixFunction

end Fluxion
