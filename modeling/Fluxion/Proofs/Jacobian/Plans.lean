import Fluxion.Proofs.Coloring.Classes

/-!
# Plans lose nothing

A plan seeds every column, or every row, in exactly one of its sweeps, and says of each nonzero in
which sweep and component it is found. Whatever the options are, and whether the plan was made by
columns, by rows or for a symmetric matrix, that component is the entry itself: the other entries that
the sweep adds to it are not stored.

## Main definitions

* `JacobianPlan.seededCount` — how many components the sweeps of a plan seed together
* `JacobianPlan.swept` — a component of a sweep over a matrix
* `JacobianPlan.Lossless` — the sweeps partition what is seeded, and every entry is found

## Main results

* `JacobianPlan.lossless_make` — **every plan is lossless**
-/

namespace Fluxion

namespace JacobianPlan

universe u

variable {p : Pattern} {plan : JacobianPlan}

/-- The number of components that are seeded: columns in forward sweeps, rows in reverse ones. -/
def seededCount (plan : JacobianPlan) (p : Pattern) : Nat :=
  match plan.direction with
  | .forward => p.ncols
  | .reverse => p.nrows

/-- Component `c` of sweep `s` over a matrix: the sum of row `c` over the columns that are seeded, or
of column `c` over the rows that are. -/
def swept {V : Type u} [AddCommMonoid V] (plan : JacobianPlan) (J : Nat → Nat → V) (s c : Nat) : V :=
  match plan.direction with
  | .forward => ((plan.sweeps.getD s []).map fun m => J c m).sum
  | .reverse => ((plan.sweeps.getD s []).map fun m => J m c).sum

/-- The sweeps partition the components that are seeded. There is a place for each nonzero in storage
order, and it shows the entry of every matrix that is zero outside the pattern; if the plan was told
that the matrix is symmetric, of every symmetric one. -/
structure Lossless (p : Pattern) (symmetric : Bool) (plan : JacobianPlan) : Prop where
  partition : plan.sweeps.flatten.Perm (List.range (plan.seededCount p))
  ne_nil : ∀ group ∈ plan.sweeps, group ≠ []
  length_lookup : plan.lookup.length = p.nnz
  shows : ∀ {V : Type u} [AddCommMonoid V] (J : Nat → Nat → V),
    (∀ i j, (i, j) ∉ p.positions → J i j = 0) →
    (symmetric = true → p.nrows = p.ncols → ∀ i j, J i j = J j i) →
    List.Forall₂ (fun position place => place.1 < plan.sweeps.length ∧
      place.2 < plan.components p ∧ plan.swept J place.1 place.2 = J position.1 position.2)
      p.positions plan.lookup

/-! ### Sweeps as groups of a coloring -/

/-- The sweeps are the groups of a coloring of the components that are seeded, in which every color
is used. -/
def ByColoring (p : Pattern) (plan : JacobianPlan) : Prop :=
  ∃ coloring : Coloring, plan.sweeps = coloring.groups ∧
    coloring.colors.size = plan.seededCount p ∧ coloring.UsesAll

theorem ByColoring.partition (h : plan.ByColoring p) :
    plan.sweeps.flatten.Perm (List.range (plan.seededCount p)) := by
  obtain ⟨coloring, hsweeps, hsize, -⟩ := h
  rw [hsweeps, ← hsize]
  exact coloring.flatten_groups_perm

theorem ByColoring.ne_nil (h : plan.ByColoring p) : ∀ group ∈ plan.sweeps, group ≠ [] := by
  obtain ⟨coloring, hsweeps, -, huses⟩ := h
  exact fun group hgroup => huses.ne_nil (hsweeps ▸ hgroup)

/-- What a sweep shows is the sum over its group. -/
theorem ByColoring.shown_eq_swept (h : plan.ByColoring p) {V : Type u} [AddCommMonoid V]
    (J : Nat → Nat → V) (s c : Nat) : plan.shown p J s c = plan.swept J s c := by
  obtain ⟨coloring, hsweeps, hsize, -⟩ := h
  have hnodup : (coloring.groups.getD s []).Nodup := (Coloring.pairwise_groups s).nodup
  have hlt : ∀ k ∈ coloring.groups.getD s [], k < plan.seededCount p := fun k hk =>
    hsize ▸ Coloring.lt_size_of_color? (Coloring.mem_groups.mp hk)
  obtain ⟨direction, sweeps, lookup⟩ := plan
  obtain rfl : sweeps = coloring.groups := hsweeps
  cases direction with
  | forward => exact seeded_eq_sum hnodup hlt
  | reverse => exact seeded_eq_sum hnodup hlt

theorem byColoring_general (p : Pattern) (options : FunctionOptions) :
    (general p options).ByColoring p := by
  have hcolumns : ∀ q : Pattern, (if options.compress then Coloring.column q
      else Coloring.identity q.ncols).colors.size = q.ncols ∧
      (if options.compress then Coloring.column q else Coloring.identity q.ncols).UsesAll := by
    intro q
    split
    · exact ⟨Coloring.size_greedy _, Coloring.usesAll_greedy _ _⟩
    · exact ⟨Coloring.size_identity _, Coloring.usesAll_identity _⟩
  simp only [general]
  split
  · exact ⟨_, rfl, hcolumns p⟩
  · have hrows := hcolumns p.transpose
    rw [Pattern.ncols_transpose] at hrows
    exact ⟨_, rfl, hrows⟩

theorem byColoring_symmetric {options : FunctionOptions} {hsquare : p.nrows = p.ncols}
    (h : symmetric? p options hsquare = some plan) : plan.ByColoring p := by
  simp only [symmetric?] at h
  split at h
  · obtain rfl := Option.some.inj h
    refine ⟨_, rfl, ?_⟩
    split
    · exact ⟨Coloring.size_greedy _, Coloring.usesAll_greedy _ _⟩
    · exact ⟨Coloring.size_identity _, Coloring.usesAll_identity _⟩
  · contradiction

theorem byColoring_make (p : Pattern) (options : FunctionOptions) (symmetric : Bool) :
    (make p options symmetric).ByColoring p := by
  rw [make]
  split
  · rename_i hsquare
    split
    · rcases hplan : symmetric? p options hsquare with _ | plan
      · exact byColoring_general p options
      · exact byColoring_symmetric hplan
    · exact byColoring_general p options
  · exact byColoring_general p options

/-- **Every plan is lossless**, whatever the options are and whether a symmetric matrix was promised
or not. -/
theorem lossless_make (p : Pattern) (options : FunctionOptions) (symmetric : Bool) :
    Lossless.{u} p symmetric (make p options symmetric) := by
  have hcoloring := byColoring_make p options symmetric
  refine ⟨hcoloring.partition, hcoloring.ne_nil, ?_, fun J hsupport hsymmetric => ?_⟩
  · have hshows : List.Forall₂ ((make p options symmetric).Shows p (0 : Nat → Nat → Nat))
        p.positions (make p options symmetric).lookup :=
      shows_make options (fun _ _ _ => rfl) fun _ _ _ _ => rfl
    exact hshows.length_eq.symm
  · refine (shows_make options hsupport hsymmetric).imp fun position place hplace => ?_
    exact ⟨hplace.1, hplace.2.1, (hcoloring.shown_eq_swept J _ _).symm.trans hplace.2.2⟩

end JacobianPlan

end Fluxion
