import Fluxion.Proofs.Matrix.Stored
import Mathlib.Algebra.BigOperators.Ring.Finset

/-!
# Dense matrices

The matrices of the textbook: a shape, and an element at every position. Operations on them are given by
a shape and a formula for the elements of the result, and no formula mentions a pattern.

## What is deliberately absent

Elements outside the shape mean nothing, and no formula looks at them as long as the operands fit. That
they fit is not part of an operation: what does not fit is refused where expressions are built, so it is
never compared with this.

## Main definitions

* `DenseMatrix` — a shape and elements
* `DenseMatrix.ofSparse` — a sparse matrix, read with zeros
* `DenseMatrix.map`, `DenseMatrix.zipWith` — elementwise operations; a 1x1 matrix is repeated
* `DenseMatrix.mul`, `DenseMatrix.transpose`, `DenseMatrix.total` — product, transpose, sum
* `DenseMatrix.vertcat`, `DenseMatrix.horzcat` — blocks
* `DenseMatrix.select`, `DenseMatrix.masked` — some of the elements
-/

namespace Fluxion

variable {V : Type}

/-- A shape, and an element at every position of it. -/
structure DenseMatrix (V : Type) where
  nrows : Nat
  ncols : Nat
  elements : Nat → Nat → V

namespace DenseMatrix

/-- The row count and the column count. -/
def shape (x : DenseMatrix V) : Shape := (x.nrows, x.ncols)

/-- The shape of a pattern, and elements. -/
def on (p : Pattern) (elements : Nat → Nat → V) : DenseMatrix V := ⟨p.nrows, p.ncols, elements⟩

/-- One row, one column. -/
def scalar (v : V) : DenseMatrix V := ⟨1, 1, fun _ _ => v⟩

/-- A sparse matrix, read with zeros where nothing is stored. -/
def ofSparse [Zero V] (m : SparseMatrix V) : DenseMatrix V := .on m.pattern fun r c => m.getD r c 0

/-- A function of every element. -/
def map (f : V → V) (x : DenseMatrix V) : DenseMatrix V :=
  ⟨x.nrows, x.ncols, fun r c => f (x.elements r c)⟩

/-- The element at a position; a 1x1 matrix is repeated. -/
def repeated (x : DenseMatrix V) (r c : Nat) : V :=
  if x.shape = (1, 1) then x.elements 0 0 else x.elements r c

/-- The shape of an elementwise operation: that of both operands, or of the one that is not repeated. -/
def commonShape (x y : DenseMatrix V) : Shape := if x.shape = (1, 1) then y.shape else x.shape

/-- A function of the elements at the same position. -/
def zipWith (f : V → V → V) (x y : DenseMatrix V) : DenseMatrix V :=
  ⟨(x.commonShape y).1, (x.commonShape y).2, fun r c => f (x.repeated r c) (y.repeated r c)⟩

theorem elements_zipWith (f : V → V → V) (x y : DenseMatrix V) (r c : Nat) :
    (x.zipWith f y).elements r c = f (x.repeated r c) (y.repeated r c) := rfl

/-- Rows become columns. -/
def transpose (x : DenseMatrix V) : DenseMatrix V := ⟨x.ncols, x.nrows, fun r c => x.elements c r⟩

/-- The elements at some positions, as a column. -/
def select (x : DenseMatrix V) (places : List (Nat × Nat)) : DenseMatrix V :=
  ⟨places.length, 1, fun r _ => x.elements (places.getD r (0, 0)).1 (places.getD r (0, 0)).2⟩

theorem elements_select (x : DenseMatrix V) (places : List (Nat × Nat)) (r c : Nat) :
    (x.select places).elements r c
      = x.elements (places.getD r (0, 0)).1 (places.getD r (0, 0)).2 := rfl

section Zero

variable [Zero V]

/-- Blocks on top of each other, with the columns of the first. -/
def vertcat (parts : List (DenseMatrix V)) : DenseMatrix V where
  nrows := (parts.map nrows).sum
  ncols := parts.head?.elim 0 ncols
  elements := fun r c => along (parts.map fun x => (x.nrows, fun i => x.elements i c)) r

/-- Blocks side by side, with the rows of the first. -/
def horzcat (parts : List (DenseMatrix V)) : DenseMatrix V where
  nrows := parts.head?.elim 0 nrows
  ncols := (parts.map ncols).sum
  elements := fun r c => along (parts.map fun x => (x.ncols, fun j => x.elements r j)) c

/-- Zeros at all positions but those of a pattern. -/
def masked (x : DenseMatrix V) (p : Pattern) : DenseMatrix V :=
  ⟨x.nrows, x.ncols, p.masked x.elements⟩

end Zero

section Ring

variable [CommRing V]

/-- The matrix product. -/
def mul (x y : DenseMatrix V) : DenseMatrix V :=
  ⟨x.nrows, y.ncols, fun r c => ∑ l ∈ Finset.range x.ncols, x.elements r l * y.elements l c⟩

/-- The sum of all elements. -/
def total (x : DenseMatrix V) : V :=
  ∑ i ∈ Finset.range x.nrows, ∑ j ∈ Finset.range x.ncols, x.elements i j

end Ring

/-! ### Blocks on patterns -/

section Blocks

variable [Zero V] {ι : Type} (parts : List ι) (pat : ι → Pattern) (x : ι → Nat → Nat → V)

theorem shape_vertcat : (vertcat (parts.map fun a => on (pat a) (x a))).shape
    = (((parts.map pat).map Pattern.nrows).sum, (parts.map pat).head?.elim 0 Pattern.ncols) := by
  cases parts <;> simp [shape, vertcat, on, Function.comp_def]

theorem shape_horzcat : (horzcat (parts.map fun a => on (pat a) (x a))).shape
    = ((parts.map pat).head?.elim 0 Pattern.nrows, ((parts.map pat).map Pattern.ncols).sum) := by
  cases parts <;> simp [shape, horzcat, on, Function.comp_def]

theorem elements_vertcat (r c : Nat) : (vertcat (parts.map fun a => on (pat a) (x a))).elements r c
    = along (parts.map fun a => ((pat a).nrows, fun i => x a i c)) r := by
  simp only [vertcat, List.map_map]
  rfl

theorem elements_horzcat (r c : Nat) : (horzcat (parts.map fun a => on (pat a) (x a))).elements r c
    = along (parts.map fun a => ((pat a).ncols, fun j => x a r j)) c := by
  simp only [horzcat, List.map_map]
  rfl

end Blocks

/-! ### Shapes of patterns -/

variable {p q : Pattern} {x : Nat → Nat → V} {r c : Nat}

theorem shape_eq_iff : (on p x).shape = (1, 1) ↔ p.isScalar = true := by
  rw [Pattern.isScalar, beq_iff_eq]
  rfl

/-- A matrix of the shape of a result is not repeated there. -/
theorem repeated_eq (hshape : q.shape = p.shape) (hr : r < p.nrows) (hc : c < p.ncols) :
    (on q x).repeated r c = x r c := by
  rw [repeated]
  split
  · rename_i hscalar
    have hp : p.shape = (1, 1) := hshape.symm.trans hscalar
    have hrows : p.nrows = 1 := congrArg Prod.fst hp
    have hcols : p.ncols = 1 := congrArg Prod.snd hp
    rw [show r = 0 by omega, show c = 0 by omega]
    rfl
  · rfl

end DenseMatrix

end Fluxion
