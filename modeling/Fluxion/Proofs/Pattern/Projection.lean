import Fluxion.Proofs.History.Calls
import Fluxion.Proofs.Matrix.Reference
import Fluxion.Proofs.Pattern.Sets

/-!
# Elements of sparse matrices

An element of a matrix is reached in three ways. Reading looks for the position in its column.
Projection goes through two patterns at once, and keeps the number of each nonzero that it meets. A
dense copy is written nonzero by nonzero, each at its place among all elements. That all three lead
to the same element is the content of this module, and all that has to be known of a projected matrix
or of a dense copy: both are said by what reading finds.

Places are a count down the columns, so different positions have different places and nothing is
overwritten. A dense copy has an entry for each element, stored or not, and is refused where these
do not fit into a table. That can happen to a matrix that stores next to nothing.

## Main results

* `SparseMatrix.get?_onPattern` — elements of a projected matrix
* `SparseMatrix.getElem?_toDense` — entries of a dense copy
* `SparseMatrix.onPattern_onPattern`, `SparseMatrix.toDense_onPattern` — projection onto a larger
  pattern loses nothing
* `SparseMatrix.reads_agree` — **the three ways agree**
* `SparseMatrix.toDenseOf_tooLarge` — a dense copy that is refused
-/

namespace Fluxion

variable {α : Type}

/-! ### Writing at places -/

theorem size_foldl_setIfInBounds (entries : List (Nat × α)) (data : Array α) :
    (entries.foldl (fun data (place, value) => data.setIfInBounds place value) data).size
      = data.size := by
  induction entries generalizing data with
  | nil => rfl
  | cons entry rest ih => rw [List.foldl_cons, ih, Array.size_setIfInBounds]

/-- What is not written stays. -/
theorem getElem?_foldl_of_notMem {entries : List (Nat × α)} {data : Array α} {i : Nat}
    (h : i ∉ entries.map Prod.fst) :
    (entries.foldl (fun data (place, value) => data.setIfInBounds place value) data)[i]?
      = data[i]? := by
  induction entries generalizing data with
  | nil => rfl
  | cons entry rest ih =>
    rw [List.map_cons, List.mem_cons, not_or] at h
    rw [List.foldl_cons, ih h.2, Array.getElem?_setIfInBounds_ne fun heq => h.1 heq.symm]

/-- What is written once is there in the end. -/
theorem getElem?_foldl_of_mem {entries : List (Nat × α)} {data : Array α} {i : Nat} {a : α}
    (hnodup : (entries.map Prod.fst).Nodup) (hi : i < data.size) (h : (i, a) ∈ entries) :
    (entries.foldl (fun data (place, value) => data.setIfInBounds place value) data)[i]?
      = some a := by
  induction entries generalizing data with
  | nil => cases h
  | cons entry rest ih =>
    rw [List.map_cons, List.nodup_cons] at hnodup
    rw [List.foldl_cons]
    rcases List.mem_cons.mp h with rfl | h
    · rw [getElem?_foldl_of_notMem hnodup.1]
      exact Array.getElem?_setIfInBounds_self_of_lt hi
    · exact ih hnodup.2 (by rwa [Array.size_setIfInBounds]) h

/-! ### Places -/

namespace Pattern

variable {p : Pattern}

/-- Different positions have different places. -/
theorem mem_linearIndices_iff {r c : Nat} (hr : r < p.nrows) :
    r + c * p.nrows ∈ p.linearIndices ↔ (r, c) ∈ p.positions := by
  refine ⟨fun h => ?_, fun h => List.mem_map.mpr ⟨(r, c), h, rfl⟩⟩
  obtain ⟨⟨s, d⟩, hmem, heq⟩ := List.mem_map.mp h
  have hs := row_lt_of_mem_positions hmem
  have heq : s + d * p.nrows = r + c * p.nrows := heq
  have hrow : s = r := by
    have := congrArg (· % p.nrows) heq
    simpa [Nat.add_mul_mod_self_right, Nat.mod_eq_of_lt hs, Nat.mod_eq_of_lt hr] using this
  subst hrow
  have hcolumn : d = c := Nat.eq_of_mul_eq_mul_right (Nat.zero_lt_of_lt hr) (Nat.add_left_cancel heq)
  rwa [hcolumn] at hmem

/-- A place is that of some row and some column. -/
theorem exists_place {i : Nat} (h : i < p.numel) :
    ∃ r < p.nrows, ∃ c < p.ncols, i = r + c * p.nrows := by
  rw [numel] at h
  have hpos : 0 < p.nrows := Nat.pos_of_mul_pos_right (Nat.zero_lt_of_lt h)
  refine ⟨i % p.nrows, Nat.mod_lt _ hpos, i / p.nrows, Nat.div_lt_of_lt_mul h, ?_⟩
  rw [Nat.mul_comm, Nat.mod_add_div]

end Pattern

namespace SparseMatrix

variable {m q : SparseMatrix α} {target : Pattern} {zero other : α} {r c : Nat}

/-! ### Projection -/

theorem onPattern_eq (m : SparseMatrix α) (target : Pattern) (zero : α) :
    m.onPattern target zero =
      ⟨target, target.elements fun r c => m.getD r c zero, Pattern.length_elements⟩ := by
  rw [SparseMatrix.mk.injEq, ← values_onPattern]
  exact ⟨rfl, rfl⟩

/-- **A projected matrix has the elements that the matrix has** where the target has a position. -/
theorem get?_onPattern : (m.onPattern target zero).get? r c =
    if (r, c) ∈ target.positions then some (m.getD r c zero) else none := by
  rw [onPattern_eq, get?_elements]

/-- Read with the zero that was filled in, nothing has changed if the target has all positions. -/
theorem getD_onPattern (h : m.pattern.positions ⊆ target.positions) :
    (m.onPattern target zero).getD r c zero = m.getD r c zero := by
  rw [getD, get?_onPattern]
  split
  · rfl
  · rename_i hrc
    exact (getD_of_not_mem m zero fun hm => hrc (h hm)).symm

/-- There and back, over any pattern that has all positions, and whatever is filled in. -/
theorem onPattern_onPattern (h : m.pattern.positions ⊆ target.positions) :
    (m.onPattern target zero).onPattern m.pattern other = m := by
  have hvalues : (m.pattern.elements fun r c => (m.onPattern target zero).getD r c other)
      = m.values := by
    rw [← elements_getD m zero]
    refine Pattern.elements_congr fun r c hrc => ?_
    rw [getD, get?_onPattern, if_pos (h hrc)]
    rfl
  rw [onPattern_eq, SparseMatrix.mk.injEq]
  exact ⟨rfl, hvalues⟩

/-! ### Dense copies -/

theorem length_toDense (m : SparseMatrix α) (zero : α) :
    (m.toDense zero).length = m.pattern.numel := by
  rw [toDense, Array.length_toList]
  exact (size_foldl_setIfInBounds _ _).trans Array.size_replicate

theorem length_linearIndices_le (m : SparseMatrix α) :
    m.pattern.linearIndices.length ≤ m.values.length := by
  rw [Pattern.length_linearIndices, m.length_values]

/-- **An entry of a dense copy is what reading finds** at its position. -/
theorem getElem?_toDense (hr : r < m.pattern.nrows) (hc : c < m.pattern.ncols) :
    (m.toDense zero)[r + c * m.pattern.nrows]? = some (m.getD r c zero) := by
  have hplace := Pattern.place_lt_numel hr hc
  have hkeys := List.map_fst_zip m.length_linearIndices_le
  rw [toDense, Array.getElem?_toList, getD, get?]
  cases hfind : m.pattern.find? r c with
  | none =>
    have hnone : r + c * m.pattern.nrows ∉ m.pattern.linearIndices := fun h =>
      Pattern.find?_eq_none_iff.mp hfind ((Pattern.mem_linearIndices_iff hr).mp h)
    rw [getElem?_foldl_of_notMem (hkeys.symm ▸ hnone), Array.getElem?_replicate, if_pos hplace]
    rfl
  | some k =>
    have hk := Pattern.find?_eq_some_iff.mp hfind
    have hlt : k < m.values.length := m.length_values ▸ (List.getElem?_eq_some_iff.mp hk).1
    have hentry : (r + c * m.pattern.nrows, m.values[k])
        ∈ m.pattern.linearIndices.zip m.values := by
      refine List.mem_of_getElem? (i := k) ?_
      rw [List.getElem?_zip_eq_some, List.getElem?_eq_getElem hlt, Pattern.linearIndices,
        List.getElem?_map, hk]
      exact ⟨rfl, rfl⟩
    rw [getElem?_foldl_of_mem (hkeys.symm ▸ m.pattern.pairwise_linearIndices.nodup)
      (by rwa [Array.size_replicate]) hentry, Option.bind_some, List.getElem?_eq_getElem hlt]
    rfl

/-- Matrices of one shape with the same elements have the same dense copy. -/
theorem toDense_congr (hshape : q.shape = m.shape) (h : ∀ r c, q.getD r c zero = m.getD r c zero) :
    q.toDense zero = m.toDense zero := by
  have hrows : q.pattern.nrows = m.pattern.nrows := congrArg Prod.fst hshape
  have hcols : q.pattern.ncols = m.pattern.ncols := congrArg Prod.snd hshape
  refine List.ext_getElem? fun i => ?_
  by_cases hi : i < m.pattern.numel
  · obtain ⟨r, hr, c, hc, rfl⟩ := Pattern.exists_place hi
    rw [getElem?_toDense hr hc, ← hrows, getElem?_toDense (hrows ▸ hr) (hcols ▸ hc), h]
  · have hi := Nat.le_of_not_lt hi
    have hnumel : q.pattern.numel = m.pattern.numel := by
      rw [Pattern.numel, Pattern.numel, hrows, hcols]
    rw [List.getElem?_eq_none ((m.length_toDense zero).trans_le hi),
      List.getElem?_eq_none ((q.length_toDense zero).trans_le (hnumel ▸ hi))]

/-- A dense copy does not see positions that were added. -/
theorem toDense_onPattern (hshape : m.shape = target.shape)
    (h : m.pattern.positions ⊆ target.positions) :
    (m.onPattern target zero).toDense zero = m.toDense zero :=
  toDense_congr hshape.symm fun _ _ => getD_onPattern h

/-! ### The three ways -/

theorem project_eq (hshape : m.shape = target.shape) :
    m.project target zero = .ok (m.onPattern target zero) :=
  if_pos hshape

theorem toDenseOf_eq [EntrySize α] (hcount : m.pattern.numel < countLimit)
    (hfits : m.pattern.numel * EntrySize.bytes α < byteLimit) :
    m.toDenseOf zero = .ok (m.toDense zero) :=
  if_pos ⟨hcount, hfits⟩

theorem toDenseOf_of_large [EntrySize α]
    (hlarge : byteLimit ≤ m.pattern.numel * EntrySize.bytes α) :
    m.toDenseOf zero = .error .tooLarge :=
  if_neg fun h => Nat.not_lt.mpr hlarge h.2

/-- Projection onto a larger pattern is undone by projection back, and a dense copy of the projected
matrix is refused where one of the matrix is. -/
theorem project_larger [EntrySize α] (hshape : m.shape = target.shape)
    (hlarger : m.pattern.positions ⊆ target.positions) (other : α) :
    ∃ q, m.project target zero = .ok q ∧ q.project m.pattern other = .ok m ∧
      q.toDenseOf zero = m.toDenseOf zero := by
  have hnumel : (m.onPattern target zero).pattern.numel = m.pattern.numel := by
    have hrows : target.nrows = m.pattern.nrows := congrArg Prod.fst hshape.symm
    have hcols : target.ncols = m.pattern.ncols := congrArg Prod.snd hshape.symm
    rw [Pattern.numel, Pattern.numel, ← hrows, ← hcols]
    rfl
  refine ⟨m.onPattern target zero, project_eq hshape, ?_, ?_⟩
  · rw [project_eq (show (m.onPattern target zero).shape = m.pattern.shape from hshape.symm),
      onPattern_onPattern hlarger]
  · rw [toDenseOf, toDenseOf, hnumel, toDense_onPattern hshape hlarger]

/-- **Reading, projection and dense copies agree**, where a dense copy fits into a table. How many
elements that are depends on the bytes that a value takes. -/
theorem reads_agree [EntrySize α] (m : SparseMatrix α) (zero : α) :
    (∀ target : Pattern, m.shape = target.shape →
      ∃ q, m.project target zero = .ok q ∧ q.pattern = target ∧
        ∀ r c, q.get? r c = if (r, c) ∈ target.positions then some (m.getD r c zero) else none) ∧
    (m.pattern.numel < countLimit → m.pattern.numel * EntrySize.bytes α < byteLimit →
      ∃ data, m.toDenseOf zero = .ok data ∧ data.length = m.pattern.numel ∧
        ∀ r < m.pattern.nrows, ∀ c < m.pattern.ncols,
          data[r + c * m.pattern.nrows]? = some (m.getD r c zero)) ∧
    (byteLimit ≤ m.pattern.numel * EntrySize.bytes α → m.toDenseOf zero = .error .tooLarge) ∧
    ∀ target : Pattern, m.shape = target.shape → m.pattern.positions ⊆ target.positions →
      ∀ other, ∃ q, m.project target zero = .ok q ∧ q.project m.pattern other = .ok m ∧
        q.toDenseOf zero = m.toDenseOf zero := by
  refine ⟨fun target hshape => ?_, fun hcount hfits => ?_, toDenseOf_of_large,
    fun target hshape hlarger other => project_larger hshape hlarger other⟩
  · exact ⟨m.onPattern target zero, project_eq hshape, rfl, fun r c => get?_onPattern⟩
  · exact ⟨m.toDense zero, toDenseOf_eq hcount hfits, m.length_toDense zero, fun r hr c hc =>
      getElem?_toDense hr hc⟩

/-- A diagonal of expressions among all elements, and columns without a stored element: of
expressions, which take four bytes, twice as many fit into a table as of numbers. -/
theorem reads_agree_diagonal :
    let m : SparseMatrix ScalarId := ⟨.diagonal 2, [⟨5⟩, ⟨7⟩], rfl⟩
    (m.shape = (Pattern.dense 2 2).shape ∧
      ∃ q, m.project (.dense 2 2) .zero = .ok q ∧ q.pattern = .dense 2 2 ∧ ∀ r c,
        q.get? r c = if (r, c) ∈ (Pattern.dense 2 2).positions then some (m.getD r c .zero)
          else none) ∧
    (m.pattern.numel < countLimit ∧ m.pattern.numel * EntrySize.bytes ScalarId < byteLimit ∧
      ∃ data, m.toDenseOf .zero = .ok data ∧ data.length = 4 ∧ ∀ r < 2, ∀ c < 2,
        data[r + c * 2]? = some (m.getD r c .zero)) ∧
    (m.pattern.positions ⊆ (Pattern.dense 2 2).positions ∧
      ∃ q, m.project (.dense 2 2) .zero = .ok q ∧ q.project m.pattern .one = .ok m ∧
        q.toDenseOf .zero = m.toDenseOf .zero) ∧
    (∃ data, (⟨.empty tableLimit 1, [], rfl⟩ : SparseMatrix ScalarId).toDenseOf .zero = .ok data ∧
      data.length = tableLimit) ∧
    (⟨.empty (2 * tableLimit) 1, [], rfl⟩ : SparseMatrix ScalarId).toDenseOf .zero
      = .error .tooLarge ∧
    (⟨.empty tableLimit 1, [], rfl⟩ : SparseMatrix Binary64).toDenseOf 0.0 = .error .tooLarge := by
  intro m
  have hdiagonal := reads_agree m .zero
  obtain ⟨data, hdata, hlength, -⟩ := (reads_agree
    (⟨.empty tableLimit 1, [], rfl⟩ : SparseMatrix ScalarId) .zero).2.1 (by decide) (by decide)
  exact ⟨⟨rfl, hdiagonal.1 (.dense 2 2) rfl⟩,
    ⟨by decide, by decide, hdiagonal.2.1 (by decide) (by decide)⟩,
    ⟨by decide, hdiagonal.2.2.2 (.dense 2 2) rfl (by decide) .one⟩, ⟨data, hdata, hlength⟩,
    (reads_agree (⟨.empty (2 * tableLimit) 1, [], rfl⟩ : SparseMatrix ScalarId) .zero).2.2.1
      (by decide),
    (reads_agree (⟨.empty tableLimit 1, [], rfl⟩ : SparseMatrix Binary64) 0.0).2.2.1 (by decide)⟩

/-- A count of elements that is a count need not be one of a table, however few are stored. -/
theorem toDenseOf_tooLarge :
    (Pattern.empty tableLimit 1).numel < countLimit ∧
      (⟨.empty tableLimit 1, [], rfl⟩ : SparseMatrix Binary64).toDenseOf 0.0
        = .error .tooLarge :=
  ⟨by decide, if_neg (by decide)⟩

end SparseMatrix

end Fluxion
