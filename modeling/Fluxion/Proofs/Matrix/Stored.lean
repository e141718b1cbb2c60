import Fluxion.Proofs.Matrix.Building
import Fluxion.Proofs.Pattern.Blocks
import Fluxion.Proofs.Scalar.Lawful
import Mathlib.Algebra.BigOperators.Ring.List
import Mathlib.Data.Finset.Basic

/-!
# What builders store

A matrix expression stores some elements of a matrix: those at the positions of its pattern. If the
operands of a builder store elements of known matrices, the result stores elements of the matrix that the
operation makes of them, where elements that an operand does not store count as zeros.

The values are those over an algebra on a ring, for whatever is given for the symbols. Operations on
constants are carried out at once, so the folds on record have to be exact.

## Main definitions

* `MatrixGraph.Admits` — values can be given for the symbols of a graph
* `MatrixGraph.Stores` — an expression stores the elements of a matrix

## Main results

* `MatrixBuilder.stores_gather` — **rearrangements store what their maps lead to**
-/

namespace Fluxion

variable {V : Type}

namespace Pattern

variable {p q : Pattern} {x y : Nat → Nat → V}

/-- The elements of a matrix at the positions of the pattern, in storage order. -/
def elements (p : Pattern) (x : Nat → Nat → V) : List V := p.positions.map fun ij => x ij.1 ij.2

theorem elements_congr (h : ∀ r c, (r, c) ∈ p.positions → x r c = y r c) :
    p.elements x = p.elements y :=
  List.map_congr_left fun ij hij => h ij.1 ij.2 hij

@[simp] theorem length_elements : (p.elements x).length = p.nnz := List.length_map _

theorem getElem?_elements (k : Nat) :
    (p.elements x)[k]? = p.positions[k]?.map fun ij => x ij.1 ij.2 :=
  List.getElem?_map

variable [Zero V]

/-- The matrix with zeros at the positions that the pattern does not have. -/
def masked (p : Pattern) (x : Nat → Nat → V) (r c : Nat) : V :=
  if (r, c) ∈ p.positions then x r c else 0

/-- The matrix on a pattern, its only element repeated if the shapes differ. -/
def spread (q p : Pattern) (x : Nat → Nat → V) : Nat → Nat → V :=
  if q.shape = p.shape then q.masked x else fun _ _ => q.masked x 0 0

theorem masked_of_mem {r c : Nat} (h : (r, c) ∈ p.positions) : p.masked x r c = x r c := if_pos h

theorem masked_of_not_mem {r c : Nat} (h : (r, c) ∉ p.positions) : p.masked x r c = 0 := if_neg h

end Pattern

/-! ### Expressions and matrices -/

namespace MatrixGraph

variable {g h : MatrixGraph} {A : Algebra Id V} {given : MatrixId → Option (List V)}
  {e : MatrixId} {n : MatrixNode} {p : Pattern} {x y : Nat → Nat → V}

/-- Values are given for symbols only, and they fit the patterns; the constants on record were folded
without an error. -/
structure Admits (g : MatrixGraph) (A : Algebra Id V) (given : MatrixId → Option (List V)) :
    Prop where
  symbols : ∀ e n, g.node? e = some n → n.isSymbol = false → given e = none
  fits : ∀ e values p, given e = some values → g.pattern? e = some p → values.length = p.nnz
  exact : A.Exact g.folds

/-- Every entry of `g` is one of `h`, and every fold. -/
structure Within (g h : MatrixGraph) : Prop where
  entry : ∀ {i : Nat} {k : MatrixEntry}, g.entries.items[i]? = some k → h.entries.items[i]? = some k
  folds : g.folds <:+ h.folds

theorem Grows.within (hgrow : g.Grows h) : g.Within h := ⟨hgrow.entry, hgrow.folds⟩

namespace Within

theorem node? (hgh : g.Within h) (hn : g.node? e = some n) : h.node? e = some n := by
  obtain ⟨k, hk, rfl⟩ := Option.map_eq_some_iff.mp hn
  exact Option.map_eq_some_iff.mpr ⟨k, hgh.entry hk, rfl⟩

theorem pattern? (hgh : g.Within h) (hp : g.pattern? e = some p) : h.pattern? e = some p := by
  obtain ⟨k, hk, rfl⟩ := Option.map_eq_some_iff.mp hp
  exact Option.map_eq_some_iff.mpr ⟨k, hgh.entry hk, rfl⟩

theorem agreeBelow (hgh : g.Within h) : arena.AgreeBelow g h g.size := by
  intro i hi
  have hsize : i < g.entries.items.size := hi
  show g.entries.items[i]? = h.entries.items[i]?
  rw [Array.getElem?_eq_getElem hsize, hgh.entry (Array.getElem?_eq_getElem hsize)]

end Within

theorem Admits.of_within (hh : h.Admits A given) (hgh : g.Within h) : g.Admits A given :=
  ⟨fun e n hn => hh.symbols e n (hgh.node? hn),
    fun e values p hvalues hp => hh.fits e values p hvalues (hgh.pattern? hp),
    hh.exact.of_suffix hgh.folds⟩

/-- The expression is on `p` and stores the elements that the matrix has there. -/
structure Stores (g : MatrixGraph) (A : Algebra Id V) (given : MatrixId → Option (List V))
    (e : MatrixId) (p : Pattern) (x : Nat → Nat → V) : Prop where
  pattern : g.pattern? e = some p
  values : g.Admits A given → g.evaluate A given e = p.elements x

namespace Stores

theorem within (he : g.Stores A given e p x) (hgh : g.Within h) : h.Stores A given e p x := by
  refine ⟨hgh.pattern? he.pattern, fun hh => ?_⟩
  rw [← evaluate_congr hgh.agreeBelow (index_lt_of_pattern? he.pattern)]
  exact he.values (hh.of_within hgh)

theorem grow (he : g.Stores A given e p x) (hgrow : g.Grows h) : h.Stores A given e p x :=
  he.within hgrow.within

theorem congr (he : g.Stores A given e p x) (hxy : ∀ r c, (r, c) ∈ p.positions → x r c = y r c) :
    g.Stores A given e p y :=
  ⟨he.pattern, fun hg => (he.values hg).trans (Pattern.elements_congr hxy)⟩

theorem masked [Zero V] (he : g.Stores A given e p x) : g.Stores A given e p (p.masked x) :=
  he.congr fun _ _ h => (Pattern.masked_of_mem h).symm

end Stores

theorem stores_of_node? (hn : g.node? e = some n) (hp : g.pattern? e = some p)
    (hsymbol : n.isSymbol = false)
    (hvalues : g.Admits A given → n.apply A (MatrixTape.patternIn g) p (g.evaluate A given)
      = p.elements x) : g.Stores A given e p x := by
  refine ⟨hp, fun hg => ?_⟩
  rw [evaluate_of_node? (hg.symbols e n hn hsymbol) hn, patternIn_eq hp]
  exact hvalues hg

variable [Zero V]

/-- An entry of a gather map leads to a nonzero of an argument that stores the element `v`, or it leads
nowhere and `v` is zero. -/
inductive Takes (g : MatrixGraph) (A : Algebra Id V) (given : MatrixId → Option (List V))
    (arguments : List MatrixId) : Option (Nat × Nat) → V → Prop
  | nothing : Takes g A given arguments none 0
  | nonzero {i k a q x ij} : arguments[i]? = some a → g.Stores A given a q x →
      q.positions[k]? = some ij → Takes g A given arguments (some (i, k)) (x ij.1 ij.2)

theorem Takes.within {arguments : List MatrixId} {entry : Option (Nat × Nat)} {v : V}
    (htakes : g.Takes A given arguments entry v) (hgh : g.Within h) :
    h.Takes A given arguments entry v := by
  cases htakes with
  | nothing => exact .nothing
  | nonzero ha hstores hk => exact .nonzero ha (hstores.within hgh) hk

end MatrixGraph

/-! ### Builders -/

namespace MatrixBuilder

open MatrixGraph

variable {g : MatrixGraph} {A : Algebra Id V} {given : MatrixId → Option (List V)}
  {a b e : MatrixId} {p q : Pattern} {x y : Nat → Nat → V}

theorem stores_intern {n : MatrixNode} (hn : n.Typed g p) (hsymbol : n.isSymbol = false)
    (hvalues : ∀ h, g.Grows h → h.Admits A given →
      n.apply A (MatrixTape.patternIn h) p (h.evaluate A given) = p.elements x) :
    Keeps (intern n p) g fun e h => h.Stores A given e p x :=
  (yields_intern hn).keeps.imp fun _ h hgrow he =>
    stores_of_node? he.1 he.2 hsymbol (hvalues h hgrow)

/-! ### Constants -/

theorem stores_constant (m : SparseMatrix Binary64)
    (hx : ∀ h : MatrixGraph, g.Grows h → A.Exact h.folds → m.values.map A.constant = m.pattern.elements x) :
    Keeps (constant m) g fun e h => h.Stores A given e m.pattern x :=
  stores_intern (.constant m) rfl fun h hgrow hh => hx h hgrow hh.exact

variable [CommRing V]

theorem stores_zero (hA : A.OnRing) (hx : ∀ r c, (r, c) ∈ p.positions → x r c = 0) :
    Keeps (fill p 0.0) g fun e h => h.Stores A given e p x := by
  refine stores_constant _ fun h _ _ => ?_
  show ((List.range p.nnz).map fun _ => (0.0 : Binary64)).map A.constant = p.elements x
  have helements : p.elements x = List.replicate p.nnz 0 :=
    (Pattern.elements_congr hx).trans (List.map_const' ..)
  rw [List.map_map, helements, ← hA.zero]
  exact (List.map_const' ..).trans (by rw [List.length_range])

/-! ### Rearrangements -/

section Gather

variable {arguments : List MatrixId} {map : GatherMap}

theorem reaches_of_takes
    (hmap : List.Forall₂ (fun entry ij => g.Takes A given arguments entry (x ij.1 ij.2)) map
      p.positions) : g.Reaches arguments map := by
  intro i k hik
  obtain ⟨ij, -, htakes⟩ := exists_of_forall₂ hmap hik
  generalize x ij.1 ij.2 = v at htakes
  cases htakes with
  | nonzero ha hstores hk =>
    exact ⟨_, _, ha, hstores.pattern, (List.getElem?_eq_some_iff.mp hk).1⟩

omit [CommRing V] in
/-- A gather runs to what its map leads to. -/
theorem runGather_of_takes [Zero V] {z : V} (hz : z = 0) (hg : g.Admits A given)
    (hmap : List.Forall₂ (fun entry ij => g.Takes A given arguments entry (x ij.1 ij.2)) map
      p.positions) :
    MatrixOp.runGather z map (arguments.map (g.evaluate A given)) = p.elements x := by
  rw [MatrixOp.runGather]
  refine map_eq_map_of_forall₂ hmap fun entry _ ij htakes => ?_
  generalize x ij.1 ij.2 = v at htakes
  cases htakes with
  | nothing => exact hz
  | @nonzero i k a q y ij ha hstores hk =>
    have hsource : ((((arguments.map (g.evaluate A given)).map List.toArray).toArray).getD i #[])
        = (q.elements y).toArray := by
      rw [Pattern.getD_toArray, List.getD_eq_getElem?_getD, List.getElem?_map, List.getElem?_map, ha,
        ← hstores.values hg]
      rfl
    show ((((arguments.map (g.evaluate A given)).map List.toArray).toArray).getD i #[]).getD k z = _
    rw [hsource, Pattern.getD_toArray, List.getD_eq_getElem?_getD, Pattern.getElem?_elements, hk]
    rfl

omit [CommRing V] in
/-- Entries lead to the same after equal arguments were merged. -/
theorem takes_renumber [Zero V]
    (hmap : List.Forall₂ (fun entry ij => g.Takes A given arguments entry (x ij.1 ij.2)) map
      p.positions) :
    List.Forall₂ (fun entry ij => g.Takes A given (map.usedArguments arguments) entry (x ij.1 ij.2))
      (map.renumber arguments (map.usedArguments arguments)) p.positions := by
  rw [GatherMap.renumber, List.forall₂_map_left_iff]
  refine (forall₂_and_mem hmap).imp fun entry ij htakes => ?_
  obtain ⟨hentry, htakes⟩ := htakes
  generalize x ij.1 ij.2 = v at htakes
  cases htakes with
  | nothing => exact .nothing
  | @nonzero i k a q y ij ha hstores hk =>
    have hused : a ∈ map.usedArguments arguments :=
      GatherMap.mem_usedArguments.mpr ⟨i, k, ha, hentry⟩
    show g.Takes A given _ (some ((arguments.map (map.usedArguments arguments).idxOf).toArray.getD i 0,
      k)) _
    rw [GatherMap.getD_numbers ha]
    exact .nonzero (List.getElem?_idxOf hused) hstores hk

omit [CommRing V] in
theorem stores_of_gather [Zero V] (hzero : A.constant 0.0 = 0)
    (hn : g.node? e = some (.gather arguments map q)) (hp : g.pattern? e = some p)
    (hmap : List.Forall₂ (fun entry ij => g.Takes A given arguments entry (x ij.1 ij.2)) map
      p.positions) : g.Stores A given e p x :=
  stores_of_node? hn hp rfl fun hg => runGather_of_takes hzero hg hmap

omit [CommRing V] in
theorem runGather_of_isIdentity {z : V} {ys : List V} (hmap : map.isIdentity = true)
    (hlength : map.length = ys.length) : MatrixOp.runGather z map [ys] = ys := by
  refine List.ext_getElem? fun k => ?_
  rw [MatrixOp.runGather, List.getElem?_map]
  cases hk : map[k]? with
  | none =>
    have hle : ys.length ≤ k := hlength ▸ List.getElem?_eq_none_iff.mp hk
    rw [List.getElem?_eq_none hle]
    rfl
  | some entry =>
    have hentry := GatherMap.entry_of_isIdentity hmap hk
    have hlt : k < ys.length := hlength ▸ (List.getElem?_eq_some_iff.mp hk).1
    rw [hentry, List.getElem?_eq_getElem hlt]
    show some (ys.toArray.getD k z) = _
    rw [Pattern.getD_toArray, List.getD_eq_getElem _ _ hlt]

/-- **Rearrangements store what their maps lead to.** -/
theorem stores_gather (hA : A.OnRing)
    (hmap : List.Forall₂ (fun entry ij => g.Takes A given arguments entry (x ij.1 ij.2)) map
      p.positions) :
    Keeps (gather arguments map p) g fun e h => h.Stores A given e p x := by
  have hlength : map.length = p.nnz := hmap.length_eq
  have hreaches := reaches_of_takes hmap
  refine keeps_of_wellTyped fun htyped => ?_
  rw [Keeps]
  rcases gather_cases hreaches p with ⟨hnone, hrun⟩ | ⟨a, hused, ha, hidentity, hrun⟩ | hrun <;>
    rw [hrun]
  · refine stores_zero hA fun r c hrc => ?_
    obtain ⟨entry, hentry, htakes⟩ := exists_of_forall₂ hmap.flip hrc
    have hentry := GatherMap.eq_none_of_holes hnone entry hentry
    generalize x r c = v at htakes
    cases htakes with
    | nothing => rfl
    | nonzero => contradiction
  · refine fun _ => ⟨.refl g, htyped, ha, fun hg => ?_⟩
    have hrun := runGather_of_takes (z := (0 : V)) rfl hg (takes_renumber hmap)
    have hsame : (map.renumber arguments (map.usedArguments arguments)).length
        = (g.evaluate A given a).length := by
      rw [htyped.length_evaluate hg.fits ha, GatherMap.renumber, List.length_map, hlength]
    rw [← hused] at hidentity
    rwa [hused, List.map_singleton, ← hused, runGather_of_isIdentity hidentity hsame] at hrun
  · have hnode := GatherMap.gathers_renumber hlength hreaches
    exact (yields_intern (.gather hnode)).keeps.imp fun e h hgrow he =>
      stores_of_gather hA.zero he.1 he.2 (takes_renumber (hmap.imp fun _ _ h => h.within hgrow.within))

end Gather

theorem takes_find? (ha : g.Stores A given a q x) (r c : Nat) :
    g.Takes A given [a] ((q.find? r c).map (0, ·)) (q.masked x r c) := by
  cases hk : q.find? r c with
  | none =>
    rw [Pattern.masked_of_not_mem (Pattern.find?_eq_none_iff.mp hk)]
    exact .nothing
  | some k =>
    have hget := Pattern.find?_eq_some_iff.mp hk
    rw [Pattern.masked_of_mem (List.mem_of_getElem? hget)]
    exact .nonzero (i := 0) rfl ha hget

/-- Taking the nonzeros of one expression from where they are in its pattern. -/
theorem stores_gather_locate (hA : A.OnRing) (ha : g.Stores A given a q x) (p : Pattern) :
    Keeps (gather [a] (.ofSources (q.locate p)) p) g
      fun e h => h.Stores A given e p (q.masked x) := by
  refine stores_gather hA ?_
  rw [GatherMap.ofSources, Pattern.locate_eq_map_find?, List.map_map, List.forall₂_map_left_iff]
  exact List.forall₂_same.mpr fun ij _ => takes_find? ha ij.1 ij.2

theorem stores_project (hA : A.OnRing) (ha : g.Stores A given a q x) (p : Pattern) :
    Keeps (project a p) g
      fun e h => q.shape = p.shape ∧ h.Stores A given e p (q.masked x) := by
  refine keeps_patternOf_bind fun s hs => ?_
  obtain rfl := Option.some.inj (ha.pattern.symm.trans hs)
  split
  · exact keeps_throw _
  · rename_i hshape
    split
    · rename_i hsame
      exact keeps_pure ⟨not_not.mp hshape, hsame ▸ ha.masked⟩
    · exact (stores_gather_locate hA ha p).imp fun e h _ he => ⟨not_not.mp hshape, he⟩

theorem stores_densify (hA : A.OnRing) (ha : g.Stores A given a q x) :
    Keeps (densify a) g
      fun e h => h.Stores A given e (.dense q.nrows q.ncols) (q.masked x) := by
  refine keeps_patternOf_bind fun s hs => ?_
  obtain rfl := Option.some.inj (ha.pattern.symm.trans hs)
  refine keeps_ofExcept_bind fun p hp => ?_
  rw [Pattern.denseOf] at hp
  split at hp
  · obtain rfl := Except.ok.inj hp
    exact stores_gather_locate hA ha _
  · contradiction

theorem stores_densify_scalar (hA : A.OnRing) (ha : g.Stores A given a q x)
    (hscalar : q.isScalar = true) :
    Keeps (densify a) g fun e h => h.Stores A given e .scalar (q.masked x) := by
  have hshape : q.shape = (1, 1) := by simpa [Pattern.isScalar] using hscalar
  obtain ⟨hrows, hcols⟩ := Prod.mk.injEq .. ▸ hshape
  have hdense := stores_densify hA ha
  rwa [hrows, hcols] at hdense

theorem stores_broadcast (hA : A.OnRing) (ha : g.Stores A given a q x) (p : Pattern) :
    Keeps (broadcast a p) g fun e h => h.Stores A given e p (q.spread p x) := by
  refine keeps_patternOf_bind fun s hs => ?_
  obtain rfl := Option.some.inj (ha.pattern.symm.trans hs)
  split
  · rename_i hshape
    rw [Pattern.spread, if_pos hshape]
    exact (stores_project hA ha p).imp fun e h _ he => he.2
  · rename_i hshape
    rw [Pattern.spread, if_neg hshape]
    split
    · rename_i hscalar
      have hfirst : Pattern.scalar.positions[0]? = some (0, 0) := rfl
      refine (stores_densify_scalar hA ha hscalar).bind fun d h _ hd => stores_gather hA ?_
      rw [Pattern.nnz, ← List.map_const', List.forall₂_map_left_iff]
      exact List.forall₂_same.mpr fun ij _ => .nonzero (i := 0) rfl hd hfirst
    · exact keeps_throw _

theorem stores_transpose (hA : A.OnRing) (ha : g.Stores A given a q x) :
    Keeps (transpose a) g fun e h => h.Stores A given e q.transpose fun r c => x c r := by
  refine keeps_patternOf_bind fun s hs => ?_
  obtain rfl := Option.some.inj (ha.pattern.symm.trans hs)
  refine keeps_ofExcept_bind fun p hp => ?_
  rw [Pattern.transposeOf] at hp
  split at hp
  · obtain rfl := Except.ok.inj hp
    refine stores_gather hA ?_
    rw [GatherMap.ofSources, List.map_map, ← Pattern.map_transposeMap]
    refine forall₂_map_same _ fun k hk => ?_
    have hget := List.getElem?_eq_getElem (Pattern.lt_nnz_of_mem_transposeMap hk)
    rw [List.getD_eq_getElem _ _ (Pattern.lt_nnz_of_mem_transposeMap hk)]
    exact .nonzero (i := 0) rfl ha hget
  · contradiction

/-! ### Blocks -/

section Blocks

variable {parts : List MatrixId} {pat : MatrixId → Pattern} {z : MatrixId → Nat → Nat → V}

/-- Blocks with the elements that they store. -/
def blocksOf (pat : MatrixId → Pattern) (z : MatrixId → Nat → Nat → V) (parts : List MatrixId) :
    List (Pattern × (Nat → Nat → V)) :=
  parts.map fun a => (pat a, z a)

omit [CommRing V] in
theorem map_fst_blocksOf : (blocksOf pat z parts).map Prod.fst = parts.map pat := List.map_map

theorem BlockEntry.takes {entry : Option (Nat × Nat)} {v : V}
    (hentry : BlockEntry (blocksOf pat z parts) 0 entry v)
    (hparts : ∀ a ∈ parts, g.Stores A given a (pat a) (z a)) :
    g.Takes A given parts entry v := by
  obtain ⟨hb, hk⟩ := hentry
  rw [blocksOf, List.getElem?_map, Option.map_eq_some_iff] at hb
  obtain ⟨a, ha, rfl⟩ := hb
  rw [Nat.zero_add]
  exact .nonzero ha (hparts a (List.mem_of_getElem? ha)) hk

omit [CommRing V] in
theorem patterns_eq {patterns : List Pattern}
    (hparts : ∀ a ∈ parts, g.Stores A given a (pat a) (z a))
    (hpatterns : parts.map g.pattern? = patterns.map some) : patterns = parts.map pat := by
  have hsome : parts.map g.pattern? = (parts.map pat).map some := by
    rw [List.map_map]
    exact List.map_congr_left fun a ha => (hparts a ha).pattern
  exact List.map_injective_iff.mpr (Option.some_injective _) (hpatterns.symm.trans hsome)

theorem stores_vertcat (hA : A.OnRing) (hparts : ∀ a ∈ parts, g.Stores A given a (pat a) (z a)) :
    Keeps (vertcat parts) g fun e h => ∃ p, Pattern.vertcat (parts.map pat) = .ok p ∧
      (∀ a ∈ parts, (pat a).ncols = p.ncols) ∧
      h.Stores A given e p fun r c =>
        along (parts.map fun a => ((pat a).nrows, fun i => z a i c)) r := by
  refine (keeps_patternsOf parts).bind fun patterns h hgh hpatterns => ?_
  obtain rfl := patterns_eq hparts hpatterns
  have hparts := fun a ha => (hparts a ha).grow hgh
  cases parts with
  | nil =>
    refine (stores_zero hA fun r c hrc => ?_).imp fun e h _ he => ⟨_, rfl, by simp, he⟩
    simp [Pattern.empty, Pattern.positions] at hrc
  | cons a rest =>
    rw [List.map_cons]
    dsimp only
    split
    · exact keeps_throw _
    · rename_i hcols
      refine keeps_ofExcept_bind fun p hp => ?_
      have hstack : p = Pattern.stack ((a :: rest).map pat) := eq_stack_of_vertcat hp
      have hncols : p.ncols = (pat a).ncols := by
        rw [hstack]
        simp [Pattern.stack, Pattern.ncols]
      have hmap := forall₂_stackMap (blocksOf pat z (a :: rest))
      rw [map_fst_blocksOf] at hmap
      simp only [blocksOf, List.map_map] at hmap
      refine (stores_gather hA (hstack ▸ hmap.imp fun entry ij hentry => hentry.takes hparts)).imp
        fun e h _ he => ⟨p, hp, fun b hb => ?_, he⟩
      have := List.find?_eq_none.mp hcols (pat b) (List.mem_map_of_mem hb)
      rw [hncols]
      simpa using this

theorem stores_horzcat (hA : A.OnRing) (hparts : ∀ a ∈ parts, g.Stores A given a (pat a) (z a)) :
    Keeps (horzcat parts) g fun e h => ∃ p, Pattern.horzcat (parts.map pat) = .ok p ∧
      h.Stores A given e p fun r c =>
        along (parts.map fun a => ((pat a).ncols, fun j => z a r j)) c := by
  refine (keeps_patternsOf parts).bind fun patterns h hgh hpatterns => ?_
  obtain rfl := patterns_eq hparts hpatterns
  have hparts := fun a ha => (hparts a ha).grow hgh
  cases parts with
  | nil =>
    refine (stores_zero hA fun r c hrc => ?_).imp fun e h _ he => ⟨_, rfl, he⟩
    simp [Pattern.empty, Pattern.positions] at hrc
  | cons a rest =>
    rw [List.map_cons]
    dsimp only
    split
    · exact keeps_throw _
    · refine keeps_ofExcept_bind fun p hp => ?_
      have hmap := forall₂_besideMap (blocksOf pat z (a :: rest)) (map_fst_blocksOf ▸ hp)
      rw [map_fst_blocksOf] at hmap
      simp only [blocksOf, List.map_map] at hmap
      exact (stores_gather hA (hmap.imp fun entry ij hentry => hentry.takes hparts)).imp
        fun e h _ he => ⟨p, hp, he⟩

end Blocks

/-! ### Parts -/

theorem stores_element (hA : A.OnRing) (ha : g.Stores A given a q x) (r c : Nat) :
    Keeps (element a r c) g fun e h => r < q.nrows ∧ c < q.ncols ∧
      h.Stores A given e .scalar fun _ _ => q.masked x r c := by
  refine keeps_patternOf_bind fun s hs => ?_
  obtain rfl := Option.some.inj (ha.pattern.symm.trans hs)
  split
  · exact keeps_throw _
  · rename_i hinside
    have hmap : List.Forall₂ (fun entry _ => g.Takes A given [a] entry (q.masked x r c))
        (GatherMap.ofSources [q.find? r c]) Pattern.scalar.positions :=
      .cons (takes_find? ha r c) .nil
    exact (stores_gather hA hmap).imp fun e h _ he => ⟨by omega, by omega, he⟩

theorem stores_nonzeros (hA : A.OnRing) (ha : g.Stores A given a q x) (numbers : List Nat) :
    Keeps (nonzeros a numbers) g fun e h => (∀ k ∈ numbers, k < q.nnz) ∧
      h.Stores A given e (.denseColumn numbers.length) fun r _ =>
        (q.elements x).getD (numbers.getD r 0) 0 := by
  refine keeps_patternOf_bind fun s hs => ?_
  obtain rfl := Option.some.inj (ha.pattern.symm.trans hs)
  dsimp only
  split
  · exact keeps_throw _
  · rename_i hnone
    have hnumbers : ∀ k ∈ numbers, k < q.nnz := by simpa using hnone
    have hself : numbers = (List.range numbers.length).map (numbers.getD · 0) := by
      refine List.ext_getElem (by simp) fun k hk _ => ?_
      rw [List.getElem_map, List.getElem_range, List.getD_eq_getElem _ _ hk]
    refine (stores_gather hA ?_).imp fun e h _ he => ⟨hnumbers, he⟩
    rw [Pattern.positions_denseColumn, GatherMap.ofSources, List.map_map]
    conv in List.map _ numbers => rw [hself, List.map_map]
    refine forall₂_map_same _ fun r hr => ?_
    have hr := List.mem_range.mp hr
    have hk : numbers.getD r 0 < q.nnz := by
      rw [List.getD_eq_getElem _ _ hr]
      exact hnumbers _ (List.getElem_mem hr)
    have hget := List.getElem?_eq_getElem (show numbers.getD r 0 < q.positions.length from hk)
    rw [List.getD_eq_getElem?_getD, Pattern.getElem?_elements, hget]
    exact .nonzero (i := 0) rfl ha hget

end MatrixBuilder

end Fluxion
