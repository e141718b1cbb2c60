import Fluxion.Function
import Fluxion.Proofs.Expansion.Function
import Fluxion.Proofs.History.Reference
import Fluxion.Proofs.Jacobian.MatrixSeeds

/-!
# Dependency patterns miss nothing

A dependency pattern is found by a run over sets. That it misses no dependency is a statement on two
runs over numbers: if the arguments of both agree wherever a row of the pattern has an entry, the
nonzero of that row has the same bits in both results.

Two runs over numbers are one run over pairs of numbers. A run over pairs is held against the run over
sets: a pair has two equal numbers unless the set contains a nonzero at which the arguments differ.
Constants, operations and slots keep this, whatever the tape does with them, so it holds of results.

## Main definitions

* `pairAlgebra` — two runs over numbers at once
* `AgreeAlong` — values of inputs that agree wherever a row of a pattern has an entry
* `Function.Arises` — functions that there can be

## Main results

* `ScalarFunction.determines_nonzero`, `MatrixFunction.determines_nonzero` — functions of one kind
* `Function.eval_eq_of_agreeAlong` — **dependency patterns miss no dependency**
-/

namespace Fluxion

/-! ### Two runs at once -/

/-- Two numbers at once, each with its own operations. -/
def pairAlgebra : Algebra Id (Binary64 × Binary64) where
  constant v := (v, v)
  unary op x := (op.apply x.1, op.apply x.2)
  binary op x y := (op.apply x.1 y.1, op.apply x.2 y.2)
  isZero _ := false

theorem related_pair_fst : Algebra.Related (fun x v => x.1 = v) pairAlgebra floatAlgebra where
  constant _ := rfl
  unary op _ _ hx := congrArg op.apply hx
  binary op _ _ _ _ hx hy := congrArg₂ op.apply hx hy

theorem related_pair_snd : Algebra.Related (fun x v => x.2 = v) pairAlgebra floatAlgebra where
  constant _ := rfl
  unary op _ _ hx := congrArg op.apply hx
  binary op _ _ _ _ hx hy := congrArg₂ op.apply hx hy

/-- The numbers of a pair are equal, if all components of a set are of one kind. -/
def EqualWithin (same : Nat → Prop) (s : Nat) (x : Binary64 × Binary64) : Prop :=
  (∀ j, s.testBit j = true → same j) → x.1 = x.2

/-- **A run over sets sees all that can make two runs differ.** -/
theorem related_equalWithin (same : Nat → Prop) :
    Algebra.Related (EqualWithin same) dependencyAlgebra pairAlgebra where
  constant _ := fun _ => rfl
  unary op _ _ hx := fun hs => congrArg op.apply (hx hs)
  binary op {s s' x y} hx hy := fun hs => by
    have hor : ∀ j, (s ||| s').testBit j = true → same j := hs
    simp only [Nat.testBit_or, Bool.or_eq_true] at hor
    exact congrArg₂ op.apply (hx fun j hj => hor j (.inl hj)) (hy fun j hj => hor j (.inr hj))

/-! ### Values of inputs -/

/-- The values of all inputs but input `i` are equal, and those of input `i` are where row `k` of a
pattern has an entry. -/
structure AgreeAlong (p : Pattern) (i k : Nat) (a b : Bundle Binary64) : Prop where
  others : ∀ i', i' ≠ i → a.getD i' [] = b.getD i' []
  listed : ∀ j, (k, j) ∈ p.positions → (a.getD i [])[j]? = (b.getD i [])[j]?

/-- Values of inputs by input and nonzero, as many as the counts say. -/
def valuesBy {V : Type} (counts : List Nat) (value : Nat → Nat → V) : Bundle V :=
  counts.zipIdx.map fun (n, i) => (List.range n).map (value i)

theorem forall₂_valuesBy {V W : Type} {R : V → W → Prop} {value : Nat → Nat → V}
    {value' : Nat → Nat → W} (counts : List Nat) (h : ∀ i k, R (value i k) (value' i k)) :
    List.Forall₂ (List.Forall₂ R) (valuesBy counts value) (valuesBy counts value') :=
  forall₂_map_same _ fun _ _ => forall₂_map_same _ fun k _ => h _ k

/-- Values of the right counts are found by input and nonzero. -/
theorem valuesBy_getD {V : Type} {zero : V} {counts : List Nat} {a : Bundle V}
    (ha : a.map List.length = counts) :
    valuesBy counts (fun i k => (a.getD i []).getD k zero) = a := by
  subst ha
  refine List.ext_getElem? fun i => ?_
  rw [valuesBy, List.getElem?_map, List.getElem?_zipIdx, List.getElem?_map]
  cases hi : a[i]? with
  | none => rfl
  | some row =>
    rw [Option.map_some, Option.map_some, Option.map_some, Option.some.injEq]
    refine List.ext_getElem? fun k => ?_
    simp only [Nat.zero_add, List.getD_eq_getElem?_getD, hi, Option.getD_some, List.getElem?_map]
    by_cases hk : k < row.length
    · rw [List.getElem?_range hk, Option.map_some, List.getElem?_eq_getElem hk, Option.getD_some]
    · rw [List.getElem?_eq_none (by rwa [List.length_range, ← Nat.not_lt]),
        List.getElem?_eq_none (Nat.le_of_not_lt hk)]
      rfl

variable {counts : List Nat} {a b : Bundle Binary64} {p : Pattern} {i k : Nat}

/-- The values of two runs, as those of a run over pairs. -/
def pairUp (counts : List Nat) (a b : Bundle Binary64) : Bundle (Binary64 × Binary64) :=
  valuesBy counts fun i k => ((a.getD i []).getD k 0.0, (b.getD i []).getD k 0.0)

theorem forall₂_pairUp_fst (ha : a.map List.length = counts) :
    List.Forall₂ (List.Forall₂ fun x v => x.1 = v) (pairUp counts a b) a := by
  have h := forall₂_valuesBy (R := fun (x : Binary64 × Binary64) v => x.1 = v) counts
    fun i k => (rfl : ((a.getD i []).getD k 0.0, (b.getD i []).getD k 0.0).1 = _)
  rwa [valuesBy_getD ha] at h

theorem forall₂_pairUp_snd (hb : b.map List.length = counts) :
    List.Forall₂ (List.Forall₂ fun x v => x.2 = v) (pairUp counts a b) b := by
  have h := forall₂_valuesBy (R := fun (x : Binary64 × Binary64) v => x.2 = v) counts
    fun i k => (rfl : ((a.getD i []).getD k 0.0, (b.getD i []).getD k 0.0).2 = _)
  rwa [valuesBy_getD hb] at h

/-- The values agree at a nonzero of input `i`. -/
def SameAt (a b : Bundle Binary64) (i j : Nat) : Prop := (a.getD i [])[j]? = (b.getD i [])[j]?

/-- A run over sets starts with sets that contain all nonzeros at which two runs differ. -/
theorem AgreeAlong.seeds (hagree : AgreeAlong p i k a b) (counts : List Nat) :
    List.Forall₂ (List.Forall₂ (EqualWithin (SameAt a b i))) (ScalarTape.dependencySeeds counts i)
      (pairUp counts a b) := by
  change List.Forall₂ _ (valuesBy counts fun i' j => if i' = i then dependsOn j else 0)
    (valuesBy counts _)
  refine forall₂_valuesBy (R := EqualWithin (SameAt a b i)) counts fun i' j hs => ?_
  change (a.getD i' []).getD j 0.0 = (b.getD i' []).getD j 0.0
  by_cases hi : i' = i
  · subst hi
    rw [if_pos rfl] at hs
    have hj : SameAt a b i' j := hs j (by simp [dependsOn])
    rw [List.getD_eq_getElem?_getD, hj, ← List.getD_eq_getElem?_getD]
  · rw [hagree.others i' hi]

theorem length_getD_of_map (ha : a.map List.length = counts) (i : Nat) :
    (a.getD i []).length = counts.getD i 0 := by
  rw [← ha, List.getD_eq_getElem?_getD, List.getD_eq_getElem?_getD, List.getElem?_map]
  cases a[i]? <;> rfl

/-- A row of a dependency pattern lists all that the set of this row contains, as far as there are
nonzeros. -/
theorem AgreeAlong.same {sets : List Nat} {components j : Nat}
    (hagree : AgreeAlong (ScalarTape.dependencyPattern sets components) i k a b)
    (ha : (a.getD i []).length = components) (hb : (b.getD i []).length = components)
    (hj : (sets.getD k 0).testBit j = true) : SameAt a b i j := by
  by_cases hlt : j < components
  · refine hagree.listed j (ScalarTape.mem_positions_dependencyPattern.mpr ⟨?_, hlt, hj⟩)
    by_contra hk
    rw [List.getD_eq_getElem?_getD, List.getElem?_eq_none (Nat.le_of_not_lt hk), Option.getD_none,
      Nat.zero_testBit] at hj
    contradiction
  · rw [SameAt, List.getElem?_eq_none (ha ▸ Nat.le_of_not_lt hlt),
      List.getElem?_eq_none (hb ▸ Nat.le_of_not_lt hlt)]

/-! ### Results -/

/-- A nonzero is the same in both results, if the set that belongs to it contains no nonzero at which
the arguments differ. -/
theorem getD_eq_of_equalWithin {same : Nat → Prop} {sets : List Nat}
    {pairs : List (Binary64 × Binary64)} {u v : List Binary64}
    (hsets : List.Forall₂ (EqualWithin same) sets pairs)
    (hu : List.Forall₂ (fun x v => x.1 = v) pairs u) (hv : List.Forall₂ (fun x v => x.2 = v) pairs v)
    (hk : ∀ j, (sets.getD k 0).testBit j = true → same j) : u.getD k 0.0 = v.getD k 0.0 := by
  have hzero : EqualWithin same 0 ((0.0, 0.0) : Binary64 × Binary64) := fun _ => rfl
  have hpair := forall₂_getD hsets hzero k hk
  have hfst := forall₂_getD hu (rfl : ((0.0, 0.0) : Binary64 × Binary64).1 = 0.0) k
  have hsnd := forall₂_getD hv (rfl : ((0.0, 0.0) : Binary64 × Binary64).2 = 0.0) k
  exact hfst.symm.trans (hpair.trans hsnd)

theorem getElem?_eq_of_getD {V : Type} {u v : List V} {z : V} (hlength : u.length = v.length)
    (hk : u.getD k z = v.getD k z) : u[k]? = v[k]? := by
  rw [List.getD_eq_getElem?_getD, List.getD_eq_getElem?_getD] at hk
  by_cases hlt : k < u.length
  · rw [List.getElem?_eq_getElem hlt, List.getElem?_eq_getElem (hlength ▸ hlt)] at hk ⊢
    exact congrArg some hk
  · rw [List.getElem?_eq_none (Nat.le_of_not_lt hlt),
      List.getElem?_eq_none (hlength ▸ Nat.le_of_not_lt hlt)]

/-- Two lists of results have the same bits in nonzero `k` of output `o`. -/
def SameNonzero (o k : Nat) (rs qs : List (SparseMatrix Binary64)) : Prop :=
  ∃ r q, rs[o]? = some r ∧ qs[o]? = some q ∧ r.pattern = q.pattern ∧ r.values[k]? = q.values[k]?

/-- Values that are the same in a place are the same nonzero of the results. -/
theorem sameNonzero_wrap {ps : List Pattern} {u v : Bundle Binary64} {o : Nat}
    (hu : u.map List.length = ps.map Pattern.nnz) (hv : v.map List.length = ps.map Pattern.nnz)
    (ho : o < ps.length) (hk : (u.getD o []).getD k 0.0 = (v.getD o []).getD k 0.0) :
    SameNonzero o k (ScalarFunction.wrap ps u 0.0) (ScalarFunction.wrap ps v 0.0) := by
  have hwrap : ∀ w : Bundle Binary64, (ScalarFunction.wrap ps w 0.0)[o]?
      = some (.fitted ps[o] (w.getD o []) 0.0) := fun w => by
    rw [ScalarFunction.wrap, List.getElem?_map, List.getElem?_zipIdx, List.getElem?_eq_getElem ho]
    simp
  have hlength : ∀ {w : Bundle Binary64}, w.map List.length = ps.map Pattern.nnz →
      (w.getD o []).length = ps[o].nnz := fun hw => by
    rw [length_getD_of_map hw, List.getD_eq_getElem?_getD, List.getElem?_map,
      List.getElem?_eq_getElem ho]
    rfl
  refine ⟨_, _, hwrap u, hwrap v, rfl, ?_⟩
  rw [SparseMatrix.values_fitted (hlength hu), SparseMatrix.values_fitted (hlength hv)]
  exact getElem?_eq_of_getD ((hlength hu).trans (hlength hv).symm) hk

/-! ### Functions -/

section Functions

variable {o : Nat} {xs ys : List (SparseMatrix Binary64)}

namespace ScalarFunction

variable {f : ScalarFunction} {tape : ScalarTape}

/-- A scalar function without free symbols evaluates on all arguments that are accepted. -/
theorem eval_eq_ok (htape : f.tape = .ok tape) (hclosed : tape.freeSymbols = [])
    (hxs : checkArguments f.inPatterns xs = .ok ()) : f.eval xs = .ok (wrap f.outPatterns
      (Id.run (tape.replay floatAlgebra (arrange f.inPatterns xs 0.0) [] f.outSizes)) 0.0) := by
  rw [eval, htape, hxs]
  simp only [bind, Except.bind, checkClosed, hclosed, List.isEmpty_nil, if_true]
  rfl

/-- **Scalar functions** do not see arguments change where a dependency pattern has no entry. -/
theorem determines_nonzero (htape : f.tape = .ok tape) (hclosed : tape.freeSymbols = [])
    (hp : f.dependencyPattern i o = .ok p) (hxs : checkArguments f.inPatterns xs = .ok ())
    (hys : checkArguments f.inPatterns ys = .ok ())
    (hagree : AgreeAlong p i k (arrange f.inPatterns xs 0.0) (arrange f.inPatterns ys 0.0)) :
    ∃ rs qs, f.eval xs = .ok rs ∧ f.eval ys = .ok qs ∧ SameNonzero o k rs qs := by
  refine ⟨_, _, eval_eq_ok htape hclosed hxs, eval_eq_ok htape hclosed hys, ?_⟩
  have ha : (arrange f.inPatterns xs 0.0).map List.length = f.inSizes := map_length_arrange hxs
  have hb : (arrange f.inPatterns ys 0.0).map List.length = f.inSizes := map_length_arrange hys
  generalize arrange f.inPatterns xs 0.0 = a at ha hagree
  generalize arrange f.inPatterns ys 0.0 = b at hb hagree
  rw [dependencyPattern, checkInput, checkOutput, htape] at hp
  split at hp
  · split at hp
    · rename_i ho
      obtain rfl := Except.ok.inj hp
      refine sameNonzero_wrap (tape.map_length_replay ..) (tape.map_length_replay ..) ho ?_
      have hsets := ScalarTape.related_replay (related_equalWithin (SameAt a b i)) tape
        (.of_forall₂ (hagree.seeds f.inSizes)) f.outSizes o
      have hu := ScalarTape.related_replay related_pair_fst tape
        (.of_forall₂ (forall₂_pairUp_fst (b := b) ha)) f.outSizes o
      have hv := ScalarTape.related_replay related_pair_snd tape
        (.of_forall₂ (forall₂_pairUp_snd (a := a) hb)) f.outSizes o
      refine getD_eq_of_equalWithin (forall₂_of_rel hsets) (forall₂_of_rel hu) (forall₂_of_rel hv)
        fun j hj => hagree.same ?_ ?_ hj
      · rw [length_getD_of_map ha, inPattern, nnz_getD, inSizes]
      · rw [length_getD_of_map hb, inPattern, nnz_getD, inSizes]
    · contradiction
  · contradiction

end ScalarFunction

namespace MatrixFunction

variable {f : MatrixFunction} {tape : MatrixTape} {g : MatrixGraph}

/-- A matrix function without free symbols evaluates on all arguments that are accepted. -/
theorem eval_eq_ok (htape : f.tape? = some tape) (hclosed : tape.freeSymbols = [])
    (hxs : checkArguments f.inPatterns xs = .ok ()) : f.eval xs = .ok (ScalarFunction.wrap
      f.outPatterns (Id.run (tape.replay floatAlgebra (arrange f.inPatterns xs 0.0) f.outCount))
      0.0) := by
  rw [eval, MatrixFunction.tape, htape, hxs]
  simp only [bind, Except.bind, checkClosed_eq_ok hclosed]
  rfl

/-- **Matrix functions** do not see arguments change where a dependency pattern has no entry. -/
theorem determines_nonzero (hf : f.Ready g) (hg : g.WellTyped) (htape : f.tape? = some tape)
    (hclosed : tape.freeSymbols = []) (hp : f.dependencyPattern i o = .ok p)
    (hxs : checkArguments f.inPatterns xs = .ok ()) (hys : checkArguments f.inPatterns ys = .ok ())
    (hagree : AgreeAlong p i k (arrange f.inPatterns xs 0.0) (arrange f.inPatterns ys 0.0)) :
    ∃ rs qs, f.eval xs = .ok rs ∧ f.eval ys = .ok qs ∧ SameNonzero o k rs qs := by
  refine ⟨_, _, eval_eq_ok htape hclosed hxs, eval_eq_ok htape hclosed hys, ?_⟩
  have ha : (arrange f.inPatterns xs 0.0).map List.length = f.inSizes := map_length_arrange hxs
  have hb : (arrange f.inPatterns ys 0.0).map List.length = f.inSizes := map_length_arrange hys
  generalize arrange f.inPatterns xs 0.0 = a at ha hagree
  generalize arrange f.inPatterns ys 0.0 = b at hb hagree
  obtain ⟨-, ho, -, -⟩ := shape_dependencyPattern hf hg hp
  obtain rfl := dependencyPattern_eq_ok htape hp
  have hget : f.outputs[o]? = some f.outputs[o] := List.getElem?_eq_getElem ho
  refine sameNonzero_wrap (hf.length_replay hg htape _ ha) (hf.length_replay hg htape _ hb)
    (hf.outCount_eq ▸ ho) ?_
  have hrelated : ∀ {V W : Type} {R : V → W → Prop} {A : Algebra Id V} {B : Algebra Id W},
      A.Related R B → ∀ {xs ys}, List.Forall₂ (List.Forall₂ R) xs ys → List.Forall₂ R
        ((Id.run (tape.replay A xs f.outCount)).getD o [])
        ((Id.run (tape.replay B ys f.outCount)).getD o []) := fun hR xs ys hxs => by
    rw [hf.replay_getD htape hget, hf.replay_getD htape hget]
    refine g.related_evaluate hR (fun e => ?_) _
    rw [MatrixTape.supply, MatrixTape.supply]
    cases f.inputs.idxOf? e with
    | none => exact .none
    | some i' => exact .some (forall₂_getD hxs .nil i')
  refine getD_eq_of_equalWithin (hrelated (related_equalWithin (SameAt a b i)) (hagree.seeds f.inSizes))
    (hrelated related_pair_fst (forall₂_pairUp_fst (b := b) ha))
    (hrelated related_pair_snd (forall₂_pairUp_snd (a := a) hb)) fun j hj => hagree.same ?_ ?_ hj
  · rw [length_getD_of_map ha, inPattern, ScalarFunction.nnz_getD, inSizes]
  · rw [length_getD_of_map hb, inPattern, ScalarFunction.nnz_getD, inSizes]

end MatrixFunction

namespace Function

/-- A function that there can be: its history tells where it stems from. -/
def Arises : Function → Prop
  | scalar o => o.Stems
  | matrix f => ∃ gs fs, MatrixHistory gs fs ∧ f ∈ fs

theorem tape_of_freeCount_scalar {object : FunctionObject}
    (hfree : (scalar object).freeCount = .ok 0) :
    ∃ tape, object.function.tape = .ok tape ∧ tape.freeSymbols = [] := by
  rw [freeCount] at hfree
  cases htape : object.function.tape with
  | error e => simp [htape, bind, Except.bind] at hfree
  | ok tape =>
    rw [htape] at hfree
    exact ⟨tape, rfl, List.length_eq_zero_iff.mp (Except.ok.inj hfree)⟩

theorem tape_of_freeCount_matrix {f : MatrixFunction} (hfree : (matrix f).freeCount = .ok 0) :
    ∃ tape, f.tape? = some tape ∧ tape.freeSymbols = [] := by
  rw [freeCount] at hfree
  cases htape : f.tape? with
  | none => simp [MatrixFunction.tape, htape, bind, Except.bind] at hfree
  | some tape =>
    rw [MatrixFunction.tape, htape] at hfree
    exact ⟨tape, rfl, List.length_eq_zero_iff.mp (Except.ok.inj hfree)⟩

/-- Questions about dependencies are answered if there are such an input and such an output. -/
theorem exists_dependencyPattern {f : Function} (hf : f.Arises) (hfree : f.freeCount = .ok 0)
    (hi : i < f.inPatterns.length) (ho : o < f.outPatterns.length) :
    ∃ p, f.dependencyPattern i o = .ok p := by
  cases f with
  | scalar object =>
    obtain ⟨tape, htape, -⟩ := tape_of_freeCount_scalar hfree
    have hi : i < object.function.inCount := hi
    have ho : o < object.function.outCount := ho
    simp [dependencyPattern, ScalarFunction.dependencyPattern, checkInput, checkOutput, htape, hi, ho,
      bind, Except.bind, pure, Except.pure]
  | matrix f =>
    obtain ⟨gs, fs, hist, hmem⟩ := hf
    obtain ⟨g, -, -, hready⟩ := hist.invariant.2.2 f hmem
    obtain ⟨tape, htape, -⟩ := tape_of_freeCount_matrix hfree
    have hi : i < f.inCount := hready.inCount_eq ▸ hi
    have ho : o < f.outCount := hready.outCount_eq ▸ ho
    simp [dependencyPattern, MatrixFunction.dependencyPattern, MatrixFunction.tape, checkInput,
      checkOutput, htape, hi, ho, bind, Except.bind, pure, Except.pure]

/-- **Dependency patterns miss no dependency.** For a function with a tape and without free symbols
there is a pattern for each input `i` and output `o`. Take two lists of arguments that are accepted. If
all inputs but input `i` have the same values in both, and input `i` has the same values where row `k`
of the pattern has an entry, then both evaluate, and nonzero `k` of output `o` has the same bits. -/
theorem eval_eq_of_agreeAlong {f : Function} (hf : f.Arises) (hfree : f.freeCount = .ok 0)
    (hi : i < f.inPatterns.length) (ho : o < f.outPatterns.length) :
    ∃ p, f.dependencyPattern i o = .ok p ∧ ∀ (k : Nat) (xs ys : List (SparseMatrix Binary64)),
      checkArguments f.inPatterns xs = .ok () → checkArguments f.inPatterns ys = .ok () →
      AgreeAlong p i k (arrange f.inPatterns xs 0.0) (arrange f.inPatterns ys 0.0) →
      ∃ rs qs, f.eval xs = .ok rs ∧ f.eval ys = .ok qs ∧ SameNonzero o k rs qs := by
  obtain ⟨p, hp⟩ := exists_dependencyPattern hf hfree hi ho
  refine ⟨p, hp, fun k xs ys hxs hys hagree => ?_⟩
  cases f with
  | scalar object =>
    obtain ⟨tape, htape, hclosed⟩ := tape_of_freeCount_scalar hfree
    exact ScalarFunction.determines_nonzero htape hclosed hp hxs hys hagree
  | matrix f =>
    obtain ⟨gs, fs, hist, hmem⟩ := hf
    obtain ⟨-, htyped, hrooted⟩ := hist.invariant
    obtain ⟨g, hg, -, hready⟩ := hrooted f hmem
    obtain ⟨tape, htape, hclosed⟩ := tape_of_freeCount_matrix hfree
    exact MatrixFunction.determines_nonzero hready (htyped _ g hg) htape hclosed hp hxs hys hagree

end Function

end Functions

namespace Triangle

/-- Each of the two products depends on the element that it is the square of. -/
def dependencies : Pattern := .tabulate 2 3 fun k j => decide (j = 2 * k)

/-- A triangle of numbers. -/
def argument (a b c : Binary64) : SparseMatrix Binary64 := ⟨triangle, [a, b, c], rfl⟩

/-- The first product does not see the other two elements of the triangle change. -/
theorem eval_eq_of_agreeAlong_products :
    (Function.matrix (functionWith (some tape))).dependencyPattern 0 0 = .ok dependencies ∧
      ∃ rs qs, (Function.matrix (functionWith (some tape))).eval [argument 2.0 3.0 5.0] = .ok rs ∧
        (Function.matrix (functionWith (some tape))).eval [argument 2.0 7.0 11.0] = .ok qs ∧
        SameNonzero 0 0 rs qs := by
  have hp : (Function.matrix (functionWith (some tape))).dependencyPattern 0 0 = .ok dependencies := by
    decide +kernel
  have haccepted : ∀ b c, checkArguments (Function.matrix (functionWith (some tape))).inPatterns
      [argument 2.0 b c] = .ok () := fun _ _ => rfl
  have hagree : AgreeAlong dependencies 0 0
      (arrange (Function.matrix (functionWith (some tape))).inPatterns [argument 2.0 3.0 5.0] 0.0)
      (arrange (Function.matrix (functionWith (some tape))).inPatterns [argument 2.0 7.0 11.0] 0.0) := by
    refine ⟨fun i' hi => ?_, fun j hj => ?_⟩
    · cases i' with
      | zero => contradiction
      | succ i' =>
        have hnone : ∀ x : SparseMatrix Binary64, (arrange [triangle] [x] 0.0).getD (i' + 1) [] = [] :=
          fun _ => rfl
        exact (hnone _).trans (hnone _).symm
    · have hrow : ∀ place ∈ dependencies.positions, place.1 = 0 → place.2 = 0 := by decide
      obtain rfl : j = 0 := hrow (0, j) hj rfl
      decide +kernel
  obtain ⟨p, hp', hdetermined⟩ := Function.eval_eq_of_agreeAlong (i := 0) (o := 0)
    (f := .matrix (functionWith (some tape))) ⟨_, _, history, List.mem_cons_self ..⟩ rfl
    (by decide) (by decide)
  obtain rfl : dependencies = p := Except.ok.inj (hp.symm.trans hp')
  exact ⟨hp, hdetermined 0 _ _ (haccepted 3.0 5.0) (haccepted 7.0 11.0) hagree⟩

end Triangle

end Fluxion
