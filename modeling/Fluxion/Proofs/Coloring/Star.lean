import Fluxion.Proofs.Coloring.Classes
import Mathlib.Algebra.GroupWithZero.Nat
import Mathlib.Data.Finset.Card

/-!
# Star colorings

Recovery looks for an entry of a symmetric matrix in its own row or in the one across the diagonal. It
is alone in its row of a sweep unless another vertex joined to the row has the color of its column. If
that happens on both sides, there is a path on four vertices with only two colors. A star coloring has
no such path, so recovery from it never fails.

The greedy construction sees such a path when its last vertex gets a color, which is at an end of the
path or inside of it.

## Main definitions

* `Pattern.Joined` — two vertices are joined in the symmetrized pattern
* `Coloring.IsStar` — joined vertices and paths on four vertices have enough colors

## Main results

* `Coloring.isStar_star` — the greedy coloring is a star coloring
* `Coloring.exists_recover_of_isStar` — **recovery from a star coloring is complete**
* `Coloring.sum_of_recover` — **recovery is sound for every coloring**
* `Coloring.star_recovers` — both together, with what a star coloring is
-/

namespace Fluxion

/-- Two vertices are joined if an entry is stored for them, in either order. -/
def Pattern.Joined (p : Pattern) (a b : Nat) : Prop :=
  a ≠ b ∧ ((a, b) ∈ p.positions ∨ (b, a) ∈ p.positions)

theorem Pattern.Joined.symm {p : Pattern} {a b : Nat} (h : p.Joined a b) : p.Joined b a :=
  ⟨h.1.symm, h.2.symm⟩

namespace Coloring

variable {p : Pattern} {hsquare : p.nrows = p.ncols} {coloring : Coloring} {a b c d i j n s : Nat}

/-- Joined vertices have different colors, and a path on four vertices has at least three. -/
structure IsStar (coloring : Coloring) (p : Pattern) : Prop where
  proper : ∀ a b, p.Joined a b → coloring.color? a ≠ coloring.color? b
  path : ∀ a b c d, [a, b, c, d].Nodup → p.Joined a b → p.Joined b c → p.Joined c d →
    2 < ({coloring.color? a, coloring.color? b, coloring.color? c, coloring.color? d} :
      Finset (Option Nat)).card

/-! ### What forbids a color -/

theorem mem_neighbors :
    b ∈ (neighbors (p.symmetrized hsquare)).getD a [] ↔ p.Joined a b := by
  have hcolumn : (neighbors (p.symmetrized hsquare)).getD a []
      = ((p.symmetrized hsquare).columns.toArray.getD a []).filter (· != a) := by
    rw [neighbors, Pattern.getD_toArray, Pattern.getD_toArray, List.getD_eq_getElem?_getD,
      List.getElem?_map, List.getElem?_zipIdx, List.getD_eq_getElem?_getD]
    rcases (p.symmetrized hsquare).columns[a]? with _ | joined
    · rfl
    · simp
  rw [hcolumn, List.mem_filter, Pattern.mem_columns_getD, mem_symmetrized, bne_iff_ne,
    Pattern.Joined, or_comm, and_comm, ne_comm]

theorem mem_neighborColors {adjacent : Nat → List Nat} {colors : Array Nat} {v : Nat} :
    s ∈ neighborColors adjacent colors v ↔ ∃ w ∈ adjacent v, colors[w]? = some s :=
  List.mem_filterMap

theorem mem_orderedPairs {vs : List Nat} (ha : a ∈ vs) (hb : b ∈ vs) (hab : a ≠ b) :
    (a, b) ∈ orderedPairs vs ∨ (b, a) ∈ orderedPairs vs := by
  induction vs with
  | nil => simp at ha
  | cons v rest ih =>
    simp only [orderedPairs, List.mem_append, List.mem_map, Prod.mk.injEq]
    rcases List.mem_cons.mp ha with rfl | ha'
    · rcases List.mem_cons.mp hb with rfl | hb'
      · exact absurd rfl hab
      · exact .inl (.inl ⟨b, hb', rfl, rfl⟩)
    · rcases List.mem_cons.mp hb with rfl | hb'
      · exact .inr (.inl ⟨a, ha', rfl, rfl⟩)
      · exact (ih ha' hb').imp .inr .inr

section Conflicts

variable {adjacent : Nat → List Nat} {colors : Array Nat} {v w x y : Nat} {cx cw : Nat}

/-- A color is forbidden by a neighbor, or else by the path that would end in the vertex. -/
theorem mem_conflicts_of_end (hw : w ∈ adjacent v) (hx : x ∈ adjacent w) (hy : y ∈ adjacent x)
    (hxv : x ≠ v) (hyw : y ≠ w) (hcw : colors[w]? = some cw) (hcx : colors[x]? = some cx)
    (hcy : colors[y]? = some cw) :
    cx ∈ neighborColors adjacent colors v ∨ cx ∈ endConflicts adjacent colors v := by
  by_cases hnear : cx ∈ neighborColors adjacent colors v
  · exact .inl hnear
  · refine .inr (List.mem_flatMap.mpr ⟨w, hw, ?_⟩)
    rw [hcw]
    refine List.mem_filterMap.mpr ⟨x, hx, ?_⟩
    rw [hcx, Option.filter_some, if_pos]
    rw [Bool.and_eq_true, Bool.and_eq_true, bne_iff_ne, Bool.not_eq_true', NumberSet.contains_ofList,
      List.any_eq_true]
    refine ⟨⟨hxv, by simpa using hnear⟩, y, hy, ?_⟩
    rw [hcy, Bool.and_eq_true, bne_iff_ne]
    exact ⟨hyw, by simp⟩

/-- A color is forbidden by a path in which the vertex would be inside. -/
theorem mem_middleConflicts {u : Nat} (hu : u ∈ adjacent v) (hw : w ∈ adjacent v) (huw : u ≠ w)
    (hx : x ∈ adjacent u) (hxv : x ≠ v) (hcu : colors[u]? = some cw) (hcw : colors[w]? = some cw)
    (hcx : colors[x]? = some cx) : cx ∈ middleConflicts adjacent colors v := by
  have hsame : (colors[u]?).isSome && colors[u]? == colors[w]? := by simp [hcu, hcw]
  have hsame' : (colors[w]?).isSome && colors[w]? == colors[u]? := by simp [hcu, hcw]
  have hcolor : (if x != v then colors[x]? else none) = some cx := by
    rw [if_pos (bne_iff_ne.mpr hxv), hcx]
  refine List.mem_flatMap.mpr ?_
  rcases mem_orderedPairs hu hw huw with hpair | hpair
  · refine ⟨(u, w), hpair, ?_⟩
    dsimp only
    rw [if_pos hsame]
    exact List.mem_filterMap.mpr ⟨x, List.mem_append_right _ hx, hcolor⟩
  · refine ⟨(w, u), hpair, ?_⟩
    dsimp only
    rw [if_pos hsame']
    exact List.mem_filterMap.mpr ⟨x, List.mem_append_left _ hx, hcolor⟩

end Conflicts

/-- Only colors that were given are forbidden. -/
theorem mem_of_mem_starConflicts {table : Array (List Nat)} {colors : Array Nat}
    (h : s ∈ starConflicts table colors) : s ∈ colors := by
  rw [starConflicts, List.mem_append, List.mem_append] at h
  rcases h with (h | h) | h
  · obtain ⟨w, -, hw⟩ := mem_neighborColors.mp h
    exact Array.mem_of_getElem? hw
  · obtain ⟨w, -, h⟩ := List.mem_flatMap.mp h
    split at h
    · simp at h
    · obtain ⟨x, -, hx⟩ := List.mem_filterMap.mp h
      exact Array.mem_of_getElem? (Option.eq_some_of_filter_eq_some hx)
  · obtain ⟨⟨u, w⟩, -, h⟩ := List.mem_flatMap.mp h
    dsimp only at h
    split at h
    · obtain ⟨x, -, hx⟩ := List.mem_filterMap.mp h
      split at hx
      · exact Array.mem_of_getElem? hx
      · simp at hx
    · simp at h

/-! ### The greedy coloring is a star coloring -/

@[simp] theorem size_star : (star p hsquare).colors.size = p.ncols := size_greedy _

theorem Joined.lt_ncols (hsquare : p.nrows = p.ncols) (h : p.Joined a b) : a < p.ncols := by
  rcases h.2 with h | h
  · exact hsquare ▸ Pattern.row_lt_of_mem_positions h
  · exact Pattern.column_lt_of_mem_positions h

/-- The color of a vertex, if another one gets its color later. -/
theorem color?_star_of_lt (hab : a < b) (hb : b < p.ncols)
    (ha : (star p hsquare).color? a = some s) :
    (greedy (starConflicts (neighbors (p.symmetrized hsquare))) b).colors[a]? = some s := by
  rw [star, color?_greedy_of_le hab hb.le] at ha
  exact ha

/-- The color of a vertex was not forbidden when it was given. -/
theorem star_notMem (hv : a < p.ncols) (ha : (star p hsquare).color? a = some s) :
    s ∉ starConflicts (neighbors (p.symmetrized hsquare))
      (greedy (starConflicts (neighbors (p.symmetrized hsquare))) a).colors :=
  color?_greedy_notMem (fun _ _ => mem_of_mem_starConflicts) hv ha

theorem star_proper_of_lt (hab : a < b) (h : p.Joined a b)
    (ha : (star p hsquare).color? a = some s) : (star p hsquare).color? b ≠ some s := by
  intro hb
  have hlt := Joined.lt_ncols hsquare h.symm
  refine star_notMem hlt hb (List.mem_append_left _ (List.mem_append_left _ ?_))
  refine mem_neighborColors.mpr ⟨a, ?_, color?_star_of_lt hab hlt ha⟩
  rw [size_greedy]
  exact mem_neighbors.mpr h.symm

theorem exists_color?_star (h : p.Joined a b) : ∃ s, (star p hsquare).color? a = some s :=
  exists_color? (by rw [size_star]; exact Joined.lt_ncols hsquare h)

theorem star_proper (h : p.Joined a b) :
    (star p hsquare).color? a ≠ (star p hsquare).color? b := by
  obtain ⟨s, hs⟩ := exists_color?_star h
  intro hab
  rcases Nat.lt_or_gt_of_ne h.1 with hlt | hlt
  · exact star_proper_of_lt hlt h hs (hab ▸ hs)
  · exact star_proper_of_lt hlt h.symm (hab ▸ hs) hs

/-- No path has its second color taken by a vertex that gets its color last, at an end. -/
theorem star_end (hab : p.Joined a b) (hbc : p.Joined b c) (hcd : p.Joined c d)
    (hac : a ≠ c) (hbd : b ≠ d) (hla : a < d) (hlb : b < d) (hlc : c < d)
    (hsame : (star p hsquare).color? a = (star p hsquare).color? c) :
    (star p hsquare).color? b ≠ (star p hsquare).color? d := by
  intro hsame'
  have hd := Joined.lt_ncols hsquare hcd.symm
  obtain ⟨s, hs⟩ := exists_color?_star hab
  obtain ⟨t, ht⟩ := exists_color?_star hbc
  refine star_notMem hd (hsame' ▸ ht) (List.mem_append_left _ (List.mem_append.mpr ?_))
  simp only [size_greedy]
  exact mem_conflicts_of_end (mem_neighbors.mpr hcd.symm) (mem_neighbors.mpr hbc.symm)
    (mem_neighbors.mpr hab.symm) hbd hac (color?_star_of_lt hlc hd (hsame ▸ hs))
    (color?_star_of_lt hlb hd ht) (color?_star_of_lt hla hd hs)

/-- The same for a vertex inside. -/
theorem star_middle (hab : p.Joined a b) (hbc : p.Joined b c) (hcd : p.Joined c d)
    (hac : a ≠ c) (hbd : b ≠ d) (hla : a < c) (hlb : b < c) (hld : d < c)
    (hsame : (star p hsquare).color? b = (star p hsquare).color? d) :
    (star p hsquare).color? a ≠ (star p hsquare).color? c := by
  intro hsame'
  have hc := Joined.lt_ncols hsquare hcd
  obtain ⟨s, hs⟩ := exists_color?_star hab
  obtain ⟨t, ht⟩ := exists_color?_star hbc
  refine star_notMem hc (hsame' ▸ hs) (List.mem_append_right _ ?_)
  simp only [size_greedy]
  exact mem_middleConflicts (mem_neighbors.mpr hbc.symm) (mem_neighbors.mpr hcd) hbd
    (mem_neighbors.mpr hab.symm) hac (color?_star_of_lt hlb hc ht)
    (color?_star_of_lt hld hc (hsame ▸ ht)) (color?_star_of_lt hla hc hs)

/-- A path on four vertices does not alternate between two colors. -/
theorem star_path (hnodup : [a, b, c, d].Nodup) (hab : p.Joined a b) (hbc : p.Joined b c)
    (hcd : p.Joined c d) (hsame : (star p hsquare).color? a = (star p hsquare).color? c) :
    (star p hsquare).color? b ≠ (star p hsquare).color? d := by
  simp only [List.nodup_cons, List.mem_cons, List.not_mem_nil, or_false, not_or, not_false_eq_true,
    List.nodup_nil, and_true] at hnodup
  obtain ⟨⟨nab, nac, nad⟩, ⟨nbc, nbd⟩, ncd⟩ := hnodup
  -- which of the four gets its color last
  have hlast : (a < d ∧ b < d ∧ c < d) ∨ (a < c ∧ b < c ∧ d < c) ∨ (a < b ∧ c < b ∧ d < b) ∨
      (b < a ∧ c < a ∧ d < a) := by omega
  rcases hlast with ⟨ha, hb, hc⟩ | ⟨ha, hb, hd⟩ | ⟨ha, hc, hd⟩ | ⟨hb, hc, hd⟩
  · exact star_end hab hbc hcd nac nbd ha hb hc hsame
  · exact fun hsame' => star_middle hab hbc hcd nac nbd ha hb hd hsame' hsame
  · exact fun hsame' => star_middle hcd.symm hbc.symm hab.symm (Ne.symm nbd) (Ne.symm nac) hd hc ha
      hsame.symm hsame'.symm
  · exact fun hsame' => star_end hcd.symm hbc.symm hab.symm (Ne.symm nbd) (Ne.symm nac) hd hc hb
      hsame'.symm hsame.symm

/-- Two colors that alternate are the only way to have no third. -/
theorem two_lt_card {α : Type} [DecidableEq α] {w x y z : α} (hwx : w ≠ x) (hxy : x ≠ y)
    (hyz : y ≠ z) (h : w = y → x ≠ z) : 2 < ({w, x, y, z} : Finset α).card := by
  rw [Finset.two_lt_card]
  by_cases hwy : w = y
  · exact ⟨w, by simp, x, by simp, z, by simp, hwx, fun hwz => hyz (hwy ▸ hwz), h hwy⟩
  · exact ⟨w, by simp, x, by simp, y, by simp, hwx, hwy, hxy⟩

/-- **The greedy coloring is a star coloring.** -/
theorem isStar_star (p : Pattern) (hsquare : p.nrows = p.ncols) : (star p hsquare).IsStar p where
  proper _ _ := star_proper
  path _ _ _ _ hnodup hab hbc hcd :=
    two_lt_card (star_proper hab) (star_proper hbc) (star_proper hcd)
      (star_path hnodup hab hbc hcd)

/-! ### Recovery is complete -/

theorem onlyOne_of_forall {ks : List Nat} (hks : ∀ k ∈ ks, k < coloring.colors.size)
    (h : ∀ k ∈ ks, coloring.color? k = some s → k = j) : onlyOne coloring s j ks = .ok true := by
  induction ks with
  | nil => rfl
  | cons k rest ih =>
    have hrest := ih (fun k hk => hks k (List.mem_cons_of_mem _ hk)) fun k hk =>
      h k (List.mem_cons_of_mem _ hk)
    obtain ⟨ck, hck⟩ := exists_color? (hks k List.mem_cons_self)
    rw [onlyOne]
    split
    · exact hrest
    · rename_i hkj
      rw [hck]
      dsimp only
      rw [if_neg fun hcolor : ck = s => hkj (h k List.mem_cons_self (hcolor ▸ hck))]
      exact hrest

theorem onlyOne_of_exists {ks : List Nat} (hks : ∀ k ∈ ks, k < coloring.colors.size)
    (h : ∃ k ∈ ks, coloring.color? k = some s ∧ k ≠ j) :
    onlyOne coloring s j ks = .ok false := by
  induction ks with
  | nil => simp at h
  | cons k rest ih =>
    have hrest := ih fun k hk => hks k (List.mem_cons_of_mem _ hk)
    obtain ⟨ck, hck⟩ := exists_color? (hks k List.mem_cons_self)
    obtain ⟨l, hl, hcolor, hlj⟩ := h
    rw [onlyOne]
    split
    · rename_i hkj
      rcases List.mem_cons.mp hl with rfl | hl
      · exact absurd hkj hlj
      · exact hrest ⟨l, hl, hcolor, hlj⟩
    · rw [hck]
      dsimp only
      split
      · rfl
      · rename_i hne
        rcases List.mem_cons.mp hl with rfl | hl
        · exact absurd (Option.some.inj (hck.symm.trans hcolor)) hne
        · exact hrest ⟨l, hl, hcolor, hlj⟩

/-- The vertices that recovery looks at in a row: those joined to it, and the row itself. -/
theorem mem_row {k : Nat} :
    k ∈ (p.symmetrized hsquare).columns.toArray.getD i [] ++ [i] ↔ p.Joined i k ∨ k = i := by
  rw [List.mem_append, List.mem_singleton, Pattern.mem_columns_getD, mem_symmetrized]
  by_cases hki : k = i
  · simp [hki]
  · rw [Pattern.Joined, or_comm (a := (k, i) ∈ p.positions)]
    simp [hki, Ne.symm hki]

/-- An entry is read in its own place, unless a vertex that is joined to the row, or the row itself,
has the color of the column. -/
theorem sweepFor?_eq (hsize : coloring.colors.size = p.ncols) (hi : i < p.ncols) (hj : j < p.ncols) :
    (∃ s, coloring.sweepFor? (p.symmetrized hsquare).columns.toArray i j = .ok (some s)) ∨
    coloring.sweepFor? (p.symmetrized hsquare).columns.toArray i j = .ok none ∧
      ∃ k, (p.Joined i k ∨ k = i) ∧ coloring.color? k = coloring.color? j ∧ k ≠ j := by
  obtain ⟨s, hs⟩ := exists_color? (hsize ▸ hj)
  have hks : ∀ k ∈ (p.symmetrized hsquare).columns.toArray.getD i [] ++ [i],
      k < coloring.colors.size := by
    intro k hk
    rw [hsize]
    rcases mem_row.mp hk with hk | rfl
    · exact Joined.lt_ncols hsquare hk.symm
    · exact hi
  rw [sweepFor?, hs]
  dsimp only
  by_cases h : ∃ k ∈ (p.symmetrized hsquare).columns.toArray.getD i [] ++ [i],
      coloring.color? k = some s ∧ k ≠ j
  · rw [onlyOne_of_exists hks h]
    obtain ⟨k, hk, hcolor, hkj⟩ := h
    exact .inr ⟨rfl, k, mem_row.mp hk, hcolor, hkj⟩
  · rw [onlyOne_of_forall hks fun k hk hcolor => by
      by_contra hkj
      exact h ⟨k, hk, hcolor, hkj⟩]
    exact .inl ⟨s, rfl⟩

/-- In a star coloring every entry is read in its own place or in the one across the diagonal. -/
theorem exists_readEntry (hstar : coloring.IsStar p) (hsize : coloring.colors.size = p.ncols)
    (hij : (i, j) ∈ p.positions) :
    ∃ place, coloring.readEntry (p.symmetrized hsquare).columns.toArray i j = .ok (some place) := by
  have hi : i < p.ncols := hsquare ▸ Pattern.row_lt_of_mem_positions hij
  have hj := Pattern.column_lt_of_mem_positions hij
  rw [readEntry]
  rcases sweepFor?_eq hsize hi hj with ⟨s, hs⟩ | ⟨hnone, k, hk, hcolor, hkj⟩
  · rw [hs]
    exact ⟨_, rfl⟩
  rw [hnone]
  dsimp only
  rcases sweepFor?_eq hsize hj hi with ⟨s, hs⟩ | ⟨-, l, hl, hcolor', hli⟩
  · rw [hs]
    exact ⟨_, rfl⟩
  exfalso
  by_cases heq : i = j
  · -- on the diagonal, a neighbor would have the color of the vertex
    subst heq
    rcases hk with hk | hk
    · exact hstar.proper _ _ hk hcolor.symm
    · exact hkj hk
  · have hjoined : p.Joined i j := ⟨heq, .inl hij⟩
    have hproper := hstar.proper _ _ hjoined
    have hki : p.Joined i k := hk.resolve_right fun h => hproper (h ▸ hcolor)
    have hlj : p.Joined j l := hl.resolve_right fun h => hproper.symm (h ▸ hcolor')
    have hkl : k ≠ l := fun h => hproper (hcolor'.symm.trans (h ▸ hcolor))
    have hnodup : [k, i, j, l].Nodup := by
      simp [hki.1.symm, hkj, hkl, heq, hli.symm, hlj.1]
    have hcard := hstar.path k i j l hnodup hki.symm hjoined hlj
    have htwo : ({coloring.color? k, coloring.color? i, coloring.color? j, coloring.color? l} :
        Finset (Option Nat)) ⊆ {coloring.color? i, coloring.color? j} := by
      rw [hcolor, hcolor']
      intro x hx
      simp only [Finset.mem_insert, Finset.mem_singleton] at hx ⊢
      tauto
    exact absurd hcard (Nat.not_lt.mpr ((Finset.card_le_card htwo).trans Finset.card_le_two))

theorem exists_readEntries {columns : Array (List Nat)} {entries : List (Nat × Nat)}
    (h : ∀ entry ∈ entries, ∃ place,
      coloring.readEntry columns entry.1 entry.2 = .ok (some place)) :
    ∃ places, coloring.readEntries columns entries = .ok (some places) := by
  induction entries with
  | nil => exact ⟨[], rfl⟩
  | cons entry rest ih =>
    obtain ⟨place, hplace⟩ := h entry List.mem_cons_self
    obtain ⟨places, hplaces⟩ := ih fun entry hentry => h entry (List.mem_cons_of_mem _ hentry)
    obtain ⟨i, j⟩ := entry
    refine ⟨place :: places, ?_⟩
    rw [readEntries, hplace]
    dsimp only
    rw [hplaces]
    rfl

/-- **Recovery from a star coloring is complete.** -/
theorem exists_recover_of_isStar (hsquare : p.nrows = p.ncols) (hstar : coloring.IsStar p)
    (hsize : coloring.colors.size = p.ncols) :
    ∃ places, recover p coloring = .ok (some places) := by
  rw [recover, dif_pos hsquare]
  exact exists_readEntries fun entry hentry => exists_readEntry hstar hsize hentry

/-! ### Recovery is sound -/

/-- The place that recovery gives for an entry shows it in every symmetric matrix, whatever the
coloring is. -/
theorem sum_of_recover {V : Type*} [AddCommMonoid V] {places : List (Nat × Nat)}
    (h : recover p coloring = .ok (some places)) {H : Nat → Nat → V}
    (hsupport : ∀ i j, (i, j) ∉ p.positions → H i j = 0) (hsymmetric : ∀ i j, H i j = H j i) :
    List.Forall₂ (fun position place =>
      (((List.range p.ncols).filter fun k => coloring.color? k = some place.1).map
        (H place.2)).sum = H position.1 position.2) p.positions places := by
  have hsquare : p.nrows = p.ncols := by
    by_contra hne
    rw [recover, dif_neg hne] at h
    contradiction
  have hshown : ∀ {s i j}, coloring.Isolates p s i j → j < p.ncols →
      (((List.range p.ncols).filter fun k => coloring.color? k = some s).map (H i)).sum = H i j := by
    intro s i j hisolates hj
    rw [← hisolates.seeded_eq hj fun k => hsupport i k, seeded]
    simp only [mem_groups]
  refine ((List.forall₂_and_left _ _).mpr ⟨fun _ h => h, isolates_of_recover h⟩).imp ?_
  rintro ⟨i, j⟩ ⟨s, k⟩ ⟨hij, ⟨rfl, hisolates⟩ | ⟨rfl, hisolates⟩⟩
  · exact hshown hisolates (Pattern.column_lt_of_mem_positions hij)
  · exact (hshown hisolates (hsquare ▸ Pattern.row_lt_of_mem_positions hij)).trans (hsymmetric _ _)

/-- **Symmetric recovery** never fails for the star coloring, whose colors are the numbers below its
count, and what it finds is right for every coloring. -/
theorem star_recovers (p : Pattern) (hsquare : p.nrows = p.ncols) :
    (∃ places, recover p (star p hsquare) = .ok (some places)) ∧
    (star p hsquare).colors.size = p.ncols ∧
    (∀ s, s < (star p hsquare).count ↔ ∃ j, (star p hsquare).color? j = some s) ∧
    (star p hsquare).IsStar p ∧
    ∀ (coloring : Coloring) (places : List (Nat × Nat)),
      recover p coloring = .ok (some places) →
      ∀ {V : Type*} [AddCommMonoid V] (H : Nat → Nat → V),
        (∀ i j, (i, j) ∉ p.positions → H i j = 0) → (∀ i j, H i j = H j i) →
        List.Forall₂ (fun position place =>
          (((List.range p.ncols).filter fun k => coloring.color? k = some place.1).map
            (H place.2)).sum = H position.1 position.2) p.positions places :=
  ⟨exists_recover_of_isStar hsquare (isStar_star p hsquare) size_star, size_star,
    fun _ => lt_count_greedy_iff, isStar_star p hsquare,
    fun _ _ h _ _ _ hsupport hsymmetric => sum_of_recover h hsupport hsymmetric⟩

end Coloring

/-! ### An arrow -/

namespace Arrow

/-- The first row, the first column and the diagonal. -/
def pattern : Pattern := .tabulate 4 4 fun r c => r == 0 || c == 0 || r == c

/-- A symmetric matrix on the arrow. -/
def matrix (i j : Nat) : Nat :=
  if i < 4 ∧ j < 4 ∧ (i = 0 ∨ j = 0 ∨ i = j) then (i + 1) * (j + 1) else 0

theorem matrix_of_not_mem {i j : Nat} (h : (i, j) ∉ pattern.positions) : matrix i j = 0 := by
  refine if_neg fun hij => h ?_
  simp only [pattern, Pattern.mem_positions_tabulate, Bool.or_eq_true, beq_iff_eq]
  omega

theorem matrix_comm (i j : Nat) : matrix i j = matrix j i := by
  rw [matrix, matrix, Nat.mul_comm]
  exact if_congr (by omega) rfl rfl

/-- Two sweeps show the whole arrow. The entries of the first row are read in the first column. -/
theorem star_recovers_arrow :
    pattern.nrows = pattern.ncols ∧ (Coloring.star pattern rfl).IsStar pattern ∧
    Coloring.recover pattern (Coloring.star pattern rfl) = .ok (some
      [(0, 0), (0, 1), (0, 2), (0, 3), (0, 1), (1, 1), (0, 2), (1, 2), (0, 3), (1, 3)]) ∧
    List.Forall₂ (fun position place =>
      (((List.range 4).filter fun k => (Coloring.star pattern rfl).color? k = some place.1).map
        (matrix place.2)).sum = matrix position.1 position.2) pattern.positions
      [(0, 0), (0, 1), (0, 2), (0, 3), (0, 1), (1, 1), (0, 2), (1, 2), (0, 3), (1, 3)] := by
  obtain ⟨-, -, -, hstar, hsound⟩ := Coloring.star_recovers pattern rfl
  exact ⟨rfl, hstar, rfl, hsound _ _ rfl matrix (fun _ _ => matrix_of_not_mem) matrix_comm⟩

end Arrow

end Fluxion
