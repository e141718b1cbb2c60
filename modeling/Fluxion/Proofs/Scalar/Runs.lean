import Fluxion.Proofs.Lists
import Fluxion.Sweep.Scalar

/-!
# Runs of scalar tapes

What a run holds is read slot by slot and output by output. A write to a place that does not exist is
lost, and a place that does not exist reads as zero; so two runs stay in step as long as they have the
same places.

Over an algebra without effects a run is a fold over the instructions. Such runs are what runs over
expressions are compared with.

## Main definitions

* `Bundle.Related` — two bundles have the same places, and related values in them
* `ScalarTape.Run.Related` — two runs have the same places, and related values in them
* `ScalarTape.execute`, `ScalarTape.finish` — runs over an algebra without effects

## Main results

* `ScalarTape.Run.read_write`, `Grid.read_store` — what is read after a write
* `ScalarTape.Run.Related.write`, `ScalarTape.Run.Related.store` — writes keep runs in step
* `ScalarTape.replay_eq` — a replay without effects is a fold
-/

namespace Fluxion

/-! ### Grids -/

namespace Grid

variable {V W : Type}

/-- The number of values of matrix `i`. -/
def width (grid : Grid V) (i : Nat) : Nat := (grid.getD i #[]).size

theorem getD_store (grid : Grid V) (i k : Nat) (v : V) (j : Nat) :
    (grid.store i k v).getD j #[]
      = if i = j then (grid.getD i #[]).setIfInBounds k v else grid.getD j #[] := by
  rw [store, Array.getD_eq_getD_getElem?, Array.getElem?_modify]
  split
  · rename_i h
    subst h
    rw [Array.getD_eq_getD_getElem?]
    cases grid[i]? <;> simp
  · rw [Array.getD_eq_getD_getElem?]

@[simp] theorem width_store (grid : Grid V) (i k : Nat) (v : V) (j : Nat) :
    (grid.store i k v).width j = grid.width j := by
  rw [width, getD_store]
  split
  · rename_i h
    rw [Array.size_setIfInBounds, h, width]
  · rfl

/-- A value that has been stored is read in its place, if there is such a place. -/
theorem read_store (zero : V) (grid : Grid V) (i k : Nat) (v : V) (j l : Nat) :
    (grid.store i k v).read zero j l
      = if (i = j ∧ k = l) ∧ k < grid.width i then v else grid.read zero j l := by
  rw [read, getD_store, read, width]
  by_cases hi : i = j
  · subst hi
    generalize grid.getD i #[] = row
    rw [if_pos rfl, Array.getD_eq_getD_getElem?, Array.getElem?_setIfInBounds]
    by_cases hk : k = l
    · subst hk
      by_cases hlt : k < row.size
      · simp [hlt]
      · simp [hlt, Array.getD_eq_getD_getElem?]
    · rw [if_neg hk, if_neg fun h => hk h.1.2, Array.getD_eq_getD_getElem?]
  · rw [if_neg hi, if_neg fun h => hi h.1.1]

theorem width_fill (v : V) (counts : List Nat) (i : Nat) :
    (fill v counts).width i = counts.getD i 0 := by
  rw [width, fill, Array.getD_eq_getD_getElem?, List.getElem?_toArray, List.getElem?_map,
    List.getD_eq_getElem?_getD]
  cases counts[i]? <;> simp

@[simp] theorem read_fill (v : V) (counts : List Nat) (i k : Nat) :
    (fill v counts).read v i k = v := by
  simp only [read, fill, Array.getD_eq_getD_getElem?, List.getElem?_toArray, List.getElem?_map]
  cases counts[i]? with
  | none => simp
  | some n =>
    rw [Option.map_some, Option.getD_some, Array.getElem?_replicate]
    split <;> rfl

/-- A value of a bundle is read off the grid that the bundle was made from. -/
theorem getD_toBundle (zero : V) (grid : Grid V) (i k : Nat) :
    (grid.toBundle.getD i []).getD k zero = grid.read zero i k := by
  simp only [toBundle, List.getD_eq_getElem?_getD, List.getElem?_map, read,
    Array.getD_eq_getD_getElem?, Array.getElem?_toList]
  cases grid[i]? with
  | none => simp
  | some row => simp

theorem length_getD_toBundle (grid : Grid V) (i : Nat) :
    (grid.toBundle.getD i []).length = grid.width i := by
  rw [toBundle, List.getD_eq_getElem?_getD, List.getElem?_map, width, Array.getD_eq_getD_getElem?,
    Array.getElem?_toList]
  cases grid[i]? <;> simp

/-- A bundle has as many values as the grid that it was made from. -/
theorem map_length_toBundle {grid : Grid V} {counts : List Nat} (hsize : grid.size = counts.length)
    (hwidth : ∀ i, grid.width i = counts.getD i 0) : grid.toBundle.map List.length = counts := by
  refine List.ext_getElem (by simpa [toBundle] using hsize) fun i hi hi' => ?_
  rw [List.length_map] at hi
  have hi'' := hwidth i
  rw [← length_getD_toBundle, List.getD_eq_getElem?_getD, List.getD_eq_getElem?_getD,
    List.getElem?_eq_getElem hi, List.getElem?_eq_getElem hi', Option.getD_some,
    Option.getD_some] at hi''
  rw [List.getElem_map, hi'']

end Grid

/-- Two bundles have the same places, and related values in them. -/
def Bundle.Related {V W : Type} (R : V → W → Prop) (xs : Bundle V) (ys : Bundle W) : Prop :=
  ∀ i k : Nat, Option.Rel R (xs.getD i [])[k]? (ys.getD i [])[k]?

namespace Bundle.Related

variable {V W : Type} {R : V → W → Prop} {xs : Bundle V} {ys : Bundle W}

theorem imp {S : V → W → Prop} (h : Related R xs ys) (himp : ∀ v w, R v w → S v w) :
    Related S xs ys := by
  intro i k
  have hrel := h i k
  generalize (xs.getD i [])[k]? = v at hrel ⊢
  generalize (ys.getD i [])[k]? = w at hrel ⊢
  cases hrel with
  | some hvw => exact .some (himp _ _ hvw)
  | none => exact .none

theorem getD (h : Related R xs ys) {zero : V} {zero' : W} (hzero : R zero zero') (i k : Nat) :
    R ((xs.getD i []).getD k zero) ((ys.getD i []).getD k zero') := by
  have hrel := h i k
  simp only [List.getD_eq_getElem?_getD] at hrel ⊢
  generalize (xs[i]?.getD [])[k]? = v at hrel ⊢
  generalize (ys[i]?.getD [])[k]? = w at hrel ⊢
  cases hrel with
  | some hvw => exact hvw
  | none => exact hzero

theorem of_forall₂ (h : List.Forall₂ (List.Forall₂ R) xs ys) : Related R xs ys := by
  have row : ∀ {vs : List V} {ws : List W}, List.Forall₂ R vs ws →
      ∀ k : Nat, Option.Rel R vs[k]? ws[k]? := by
    intro vs ws hrow
    induction hrow with
    | nil => intro k; exact .none
    | cons hvw _ ih =>
      intro k
      cases k with
      | zero => exact .some hvw
      | succ k => exact ih k
  intro i k
  induction h generalizing i with
  | nil => exact .none
  | cons hrow _ ih =>
    cases i with
    | zero => exact row hrow k
    | succ i => exact ih i

theorem map_right {U : Type} {R : V → U → Prop} {f : W → U}
    (h : Related (fun x y => R x (f y)) xs ys) : Related R xs (ys.map (·.map f)) := by
  intro i k
  have hrow : ((ys.map (·.map f)).getD i [])[k]? = (ys.getD i [])[k]?.map f := by
    simp only [List.getD_eq_getElem?_getD, List.getElem?_map]
    cases ys[i]? <;> simp
  have hrel := h i k
  rw [hrow]
  generalize (xs.getD i [])[k]? = v at hrel ⊢
  generalize (ys.getD i [])[k]? = w at hrel ⊢
  cases hrel with
  | some hvw => exact .some hvw
  | none => exact .none

theorem of_grids {a : Grid V} {b : Grid W} {zero : V} {zero' : W}
    (hwidth : ∀ i, a.width i = b.width i)
    (hread : ∀ i k, R (a.read zero i k) (b.read zero' i k)) :
    Related R a.toBundle b.toBundle := by
  intro i k
  have hlengths := hwidth i
  rw [← Grid.length_getD_toBundle, ← Grid.length_getD_toBundle] at hlengths
  have hvw := hread i k
  rw [← Grid.getD_toBundle, ← Grid.getD_toBundle] at hvw
  generalize a.toBundle.getD i [] = vs at hlengths hvw ⊢
  generalize b.toBundle.getD i [] = ws at hlengths hvw ⊢
  rw [List.getD_eq_getElem?_getD, List.getD_eq_getElem?_getD] at hvw
  by_cases hk : k < vs.length
  · rw [List.getElem?_eq_getElem hk, List.getElem?_eq_getElem (hlengths ▸ hk)] at hvw ⊢
    exact .some hvw
  · rw [List.getElem?_eq_none (by omega), List.getElem?_eq_none (by omega)]
    exact .none

end Bundle.Related

namespace ScalarTape

/-! ### Slots -/

namespace Run

variable {V W : Type}

/-- What is read from the slots after a write. -/
theorem read_write (zero : V) (r : Run V) (s : Nat) (v : V) (t : Nat) :
    (r.write s v).read zero t = if s = t ∧ s < r.slots.size then v else r.read zero t := by
  rw [read, write, Array.getD_eq_getD_getElem?, Array.getElem?_setIfInBounds]
  by_cases hst : s = t
  · subst hst
    by_cases hlt : s < r.slots.size
    · rw [if_pos rfl, if_pos hlt, if_pos ⟨rfl, hlt⟩]
      rfl
    · rw [if_pos rfl, if_neg hlt, if_neg fun h => hlt h.2, read, Array.getD_eq_getD_getElem?,
        Array.getElem?_eq_none (Nat.le_of_not_lt hlt)]
  · rw [if_neg hst, if_neg fun h => hst h.1, read, Array.getD_eq_getD_getElem?]

@[simp] theorem size_slots_write (r : Run V) (s : Nat) (v : V) :
    (r.write s v).slots.size = r.slots.size := by
  simp [write]

@[simp] theorem outputs_write (r : Run V) (s : Nat) (v : V) : (r.write s v).outputs = r.outputs :=
  rfl

@[simp] theorem slots_store (r : Run V) (i k : Nat) (v : V) : (r.store i k v).slots = r.slots :=
  rfl

@[simp] theorem outputs_store (r : Run V) (i k : Nat) (v : V) :
    (r.store i k v).outputs = r.outputs.store i k v :=
  rfl

@[simp] theorem read_store (zero : V) (r : Run V) (i k : Nat) (v : V) (s : Nat) :
    (r.store i k v).read zero s = r.read zero s :=
  rfl

@[simp] theorem read_start (zero : V) (workSize : Nat) (counts : List Nat) (s : Nat) :
    (start zero workSize counts).read zero s = zero := by
  rw [read, start, Array.getD_eq_getD_getElem?, Array.getElem?_replicate]
  split <;> rfl

/-- The runs have the same places, and what they hold in the same place is related. -/
structure Related (R : V → W → Prop) (zero : V) (zero' : W) (r : Run V) (q : Run W) : Prop where
  size : r.slots.size = q.slots.size
  width : ∀ i, r.outputs.width i = q.outputs.width i
  read : ∀ s, R (r.read zero s) (q.read zero' s)
  stored : ∀ i k, R (r.outputs.read zero i k) (q.outputs.read zero' i k)

namespace Related

variable {R S : V → W → Prop} {zero : V} {zero' : W} {r : Run V} {q : Run W}

theorem imp (h : Related R zero zero' r q) (himp : ∀ v w, R v w → S v w) :
    Related S zero zero' r q :=
  ⟨h.size, h.width, fun s => himp _ _ (h.read s), fun i k => himp _ _ (h.stored i k)⟩

theorem start (h : R zero zero') (workSize : Nat) (counts : List Nat) :
    Related R zero zero' (.start zero workSize counts) (.start zero' workSize counts) where
  size := by simp [Run.start]
  width i := by simp [Run.start, Grid.width_fill]
  read s := by simpa using h
  stored i k := by simpa [Run.start] using h

theorem write (h : Related R zero zero' r q) {v : V} {w : W} (hvw : R v w) (s : Nat) :
    Related R zero zero' (r.write s v) (q.write s w) where
  size := by simp [h.size]
  width := h.width
  read t := by
    rw [read_write, read_write, h.size]
    split
    · exact hvw
    · exact h.read t
  stored := h.stored

/-- A write on one side alone, of a value that is related to what is there on the other. -/
theorem write_right (h : Related R zero zero' r q) {s : Nat} {w : W} (hw : R (r.read zero s) w) :
    Related R zero zero' r (q.write s w) where
  size := by simp [h.size]
  width := h.width
  read t := by
    rw [read_write]
    split
    · rename_i hst
      rw [← hst.1]
      exact hw
    · exact h.read t
  stored := h.stored

theorem store (h : Related R zero zero' r q) {v : V} {w : W} (hvw : R v w) (i k : Nat) :
    Related R zero zero' (r.store i k v) (q.store i k w) where
  size := h.size
  width j := by simp [h.width]
  read := h.read
  stored j l := by
    rw [outputs_store, outputs_store, Grid.read_store, Grid.read_store, h.width]
    split
    · exact hvw
    · exact h.stored j l

end Related

end Run

/-! ### Runs without effects -/

section Execute

variable {W : Type}

/-- Carry out one instruction over an algebra without effects. -/
def execute (A : Algebra Id W) (zero : W) (inputs : Grid W) (free : Array W) (r : Run W) :
    ScalarInstr → Run W
  | .input i k result => r.write result (inputs.read zero i k)
  | .constant v result => r.write result (A.constant v)
  | .free k result => r.write result (free.getD k zero)
  | .unary op a result => r.write result (A.unary op (r.read zero a))
  | .binary op a b result => r.write result (A.binary op (r.read zero a) (r.read zero b))
  | .output i k a => r.store i k (r.read zero a)

theorem foldlM_exec (A : Algebra Id W) (zero : W) (inputs : Grid W) (free : Array W)
    (instrs : List ScalarInstr) (r : Run W) :
    Id.run (instrs.foldlM (exec A zero inputs free) r)
      = instrs.foldl (execute A zero inputs free) r := by
  induction instrs generalizing r with
  | nil => rfl
  | cons instr rest ih =>
    have hexec : exec A zero inputs free r instr = execute A zero inputs free r instr := by
      cases instr <;> rfl
    rw [List.foldl_cons, ← hexec]
    exact ih _

/-- The state at the end of a run over an algebra without effects. -/
def finish (tape : ScalarTape) (A : Algebra Id W) (inputs : Bundle W) (free : List W)
    (counts : List Nat) : Run W :=
  tape.instrs.foldl (execute A (A.constant 0.0) (.ofBundle inputs) free.toArray)
    (.start (A.constant 0.0) tape.workSize counts)

theorem replay_eq (tape : ScalarTape) (A : Algebra Id W) (inputs : Bundle W) (free : List W)
    (counts : List Nat) :
    Id.run (tape.replay A inputs free counts)
      = (tape.finish A inputs free counts).outputs.toBundle :=
  congrArg (fun r : Run W => r.outputs.toBundle) (foldlM_exec ..)

/-- A run keeps the number of places of each output. -/
theorem width_execute (A : Algebra Id W) (zero : W) (inputs : Grid W) (free : Array W) (r : Run W)
    (instr : ScalarInstr) (i : Nat) :
    (execute A zero inputs free r instr).outputs.width i = r.outputs.width i := by
  cases instr <;> simp [execute]

theorem width_finish (tape : ScalarTape) (A : Algebra Id W) (inputs : Bundle W) (free : List W)
    (counts : List Nat) (o : Nat) :
    (tape.finish A inputs free counts).outputs.width o = counts.getD o 0 := by
  have hfold : ∀ (instrs : List ScalarInstr) (r : Run W),
      (instrs.foldl (execute A (A.constant 0.0) (.ofBundle inputs) free.toArray) r).outputs.width o
        = r.outputs.width o := by
    intro instrs
    induction instrs with
    | nil => exact fun _ => rfl
    | cons instr rest ih =>
      intro r
      rw [List.foldl_cons, ih, width_execute]
  rw [finish, hfold]
  exact Grid.width_fill _ counts o

/-- A run keeps the number of outputs. -/
theorem size_finish (tape : ScalarTape) (A : Algebra Id W) (inputs : Bundle W) (free : List W)
    (counts : List Nat) : (tape.finish A inputs free counts).outputs.size = counts.length := by
  have hfold : ∀ (instrs : List ScalarInstr) (r : Run W),
      (instrs.foldl (execute A (A.constant 0.0) (.ofBundle inputs) free.toArray) r).outputs.size
        = r.outputs.size := by
    intro instrs
    induction instrs with
    | nil => exact fun _ => rfl
    | cons instr rest ih =>
      intro r
      rw [List.foldl_cons, ih]
      cases instr <;> simp [execute, Run.write, Run.store, Grid.store]
  rw [finish, hfold]
  simp [Run.start, Grid.fill]

/-- A replay gives as many values as were asked for. -/
theorem map_length_replay (tape : ScalarTape) (A : Algebra Id W) (inputs : Bundle W)
    (free : List W) (counts : List Nat) :
    (Id.run (tape.replay A inputs free counts)).map List.length = counts := by
  rw [replay_eq]
  exact Grid.map_length_toBundle (size_finish ..) (width_finish tape A inputs free counts)

end Execute

end ScalarTape

end Fluxion
