import Fluxion.Proofs.Scalar.Transpose

/-!
# Directions of a forward sweep

Directions of a sweep share its partial derivatives, and which of them are made at all depends on
which directions come first. None of that can be seen in a result. A forward sweep over several
directions is, direction by direction, one and the same run over dual numbers, and that run knows a
single direction.

The law behind it asks for no ring. What counts as known to be zero has to be the constant zero,
neutral in sums and absorbing in products. Rounded numbers have no zeros in that sense, since a zero
still turns infinities into undefined numbers; so for them nothing is left out and results agree to
the last bit.

## Main definitions

* `ScalarTape.replayAlong` — a run over dual numbers, with the inputs moving and all else still

## Main results

* `ScalarTape.map_fst_replayAlong` — its values are those of a replay
* `ScalarTape.forward_replays_duals` — **a forward sweep is a replay, and a replay over dual numbers
  in each direction by itself**
-/

namespace Fluxion

open TrivSqZeroExt (fst snd)

variable {V : Type} {A : Algebra Id V}

/-- Numbers leave nothing out. -/
theorem skipsZeros_floatAlgebra : floatAlgebra.SkipsZeros where
  eq_zero _ h := nomatch h
  add_left _ _ h := nomatch h
  add_right _ _ h := nomatch h
  mul_right _ _ h := nomatch h

namespace ScalarTape

/-- The outputs of a run over dual numbers. The inputs `x` move along `t`, and the free symbols do not
move. -/
def replayAlong (tape : ScalarTape) (A : Algebra Id V) (x : Bundle V) (free : List V)
    (counts : List Nat) (t : Bundle V) : Bundle (DualNumber V) :=
  Id.run (tape.replay A.dual (Bundle.beside (A.constant 0.0) x t) (still (A.constant 0.0) free)
    counts)

theorem map_fst_foldl_moving (zero : V) (x : Bundle V) (free : List V) (t : Bundle V)
    (instrs : List ScalarInstr) (q : Run (DualNumber V)) :
    (instrs.foldl (moving A zero x free t) q).map fst
      = instrs.foldl (execute A zero (.ofBundle x) free.toArray) (q.map fst) := by
  induction instrs generalizing q with
  | nil => rfl
  | cons instr rest ih => rw [List.foldl_cons, ih, map_fst_moving, List.foldl_cons]

/-- Along whatever direction, the values are those of a replay. -/
theorem map_fst_replayAlong (tape : ScalarTape) (A : Algebra Id V) (x : Bundle V) (free : List V)
    (counts : List Nat) (t : Bundle V) :
    (tape.replayAlong A x free counts t).map (·.map fst) = Id.run (tape.replay A x free counts) := by
  have hfold := map_fst_foldl_moving (A := A) (A.constant 0.0) x free t tape.instrs
    (.start (A.dual.constant 0.0) tape.workSize counts)
  have hstart : (Run.start (A.dual.constant 0.0) tape.workSize counts).map fst
      = .start (A.constant 0.0) tape.workSize counts := Run.map_start ..
  rw [hstart] at hfold
  rw [replayAlong, replay_eq, replay_eq, ← Run.toBundle_map]
  exact congrArg (fun r : Run V => r.outputs.toBundle) hfold

/-- **A forward sweep is a replay, and a replay over dual numbers in each direction by itself.** The
outputs are those of the replay, and so are the values beside the derivatives. What is found along a
seed is the same whichever seeds come with it, at whichever place. Numbers are a case of this. -/
theorem forward_replays_duals :
    floatAlgebra.SkipsZeros ∧
      ∀ {V : Type} {A : Algebra Id V}, A.SkipsZeros →
        ∀ (tape : ScalarTape) (x : Bundle V) (free : List V) (counts : List Nat)
          (seeds others : List (Bundle V)),
          (Id.run (tape.forward A x free seeds counts)).1 = Id.run (tape.replay A x free counts) ∧
            (Id.run (tape.forward A x free seeds counts)).2
              = seeds.map (fun t => (tape.replayAlong A x free counts t).map (·.map snd)) ∧
            (∀ t ∈ seeds, (tape.replayAlong A x free counts t).map (·.map fst)
              = Id.run (tape.replay A x free counts)) ∧
            ∀ i j : Nat, seeds[i]? = others[j]? →
              (Id.run (tape.forward A x free seeds counts)).2[i]?
                = (Id.run (tape.forward A x free others counts)).2[j]? := by
  refine ⟨skipsZeros_floatAlgebra, fun {V A} hA tape x free counts seeds others => ?_⟩
  have hforward : ∀ ts, Id.run (tape.forward A x free ts counts)
      = (Id.run (tape.replay A x free counts),
        ts.map fun t => (tape.replayAlong A x free counts t).map (·.map snd)) :=
    fun ts => forward_eq hA rfl tape x free ts counts
  refine ⟨congrArg Prod.fst (hforward seeds), congrArg Prod.snd (hforward seeds),
    fun t _ => map_fst_replayAlong tape A x free counts t, fun i j hseed => ?_⟩
  rw [hforward seeds, hforward others, List.getElem?_map, List.getElem?_map, hseed]

end ScalarTape

namespace DampedSine

/-- A direction that stands still goes first, and nothing is made for it. What the second direction
gives is what it gives alone. -/
theorem forward_replays_duals_squares :
    Id.run (tape.forward squares [[3]] [5] [[[0]], [[2]]] [1, 2])
        = ([[9], [45, 9]], [[[0], [0, 0]], [[12], [60, 12]]]) ∧
      (Id.run (tape.forward squares [[3]] [5] [[[0]], [[2]]] [1, 2])).2[1]?
        = (Id.run (tape.forward squares [[3]] [5] [[[2]]] [1, 2])).2[0]? := by
  obtain ⟨hvalues, hmoved, -, halone⟩ := ScalarTape.forward_replays_duals.2
    differentiates_squares.skipsZeros tape [[3]] [5] [1, 2] [[[0]], [[2]]] [[[2]]]
  have hreplay : Id.run (tape.replay squares [[3]] [5] [1, 2]) = [[9], [45, 9]] := by decide
  have hstill : (tape.replayAlong squares [[3]] [5] [1, 2] [[0]]).map (·.map snd)
      = [[0], [0, 0]] := by decide
  have hmoving : (tape.replayAlong squares [[3]] [5] [1, 2] [[2]]).map (·.map snd)
      = [[12], [60, 12]] := by decide
  rw [List.map_cons, List.map_singleton, hstill, hmoving] at hmoved
  exact ⟨Prod.ext (hvalues.trans hreplay) hmoved, halone 1 0 rfl⟩

end DampedSine

end Fluxion
