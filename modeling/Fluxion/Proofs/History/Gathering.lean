import Fluxion.Proofs.History.Matrix
import Fluxion.Proofs.Matrix.Checked
import Fluxion.Proofs.Matrix.Stored

/-!
# What is gathered

A gather is asked for by a list of arguments, in which an expression may stand twice or not be read
at all, and a map that says of each nonzero of the result which nonzero of which argument it is, or
that it is zero. Read naively, that already says what the result is. The node that is made says it
in other words: equal arguments are merged and those that are not read are dropped, so that entries
count arguments anew, and no node is made where the result is zero or is one of the arguments.

Whatever comes out, it means what the naive reading says, and a tape that computes it next to the
arguments takes from them what the naive reading takes. Nothing is asked of how values are calculated
with, for nonzeros are only taken from one place to another.

## Main definitions

* `GatherMap.Compacts` — arguments and a map after merging and dropping
* `MatrixGraph.ReadsNaively` — an expression means what the naive reading says
* `MatrixGraph.Gathered` — a constant, an argument or a node

## Main results

* `GatherMap.compacts_renumber` — merging and dropping keeps first occurrences, in their order
* `MatrixNode.gatherFrom_renumber` — the naive reading does not see it
* `MatrixBuilder.yields_gather_naively` — what comes out, in every well-typed graph
* `MatrixHistory.gathers_naively` — **gathers mean what their maps say**, in the graphs of histories
-/

namespace Fluxion

/-! ### Lists -/

/-- Without repetitions, elements are in the order in which they come first. -/
theorem pairwise_idxOf_eraseDups {α : Type} [DecidableEq α] (l : List α) :
    l.eraseDups.Pairwise fun a b => l.idxOf a < l.idxOf b := by
  -- On the last element: it is new and comes after all others, or it changes nothing.
  induction l using List.reverseRecOn with
  | nil => exact .nil
  | append_singleton l x ih =>
    have hl : l.eraseDups.Pairwise fun a b => (l ++ [x]).idxOf a < (l ++ [x]).idxOf b := by
      refine ih.imp_of_mem fun {a b} ha hb hab => ?_
      rwa [List.idxOf_append_of_mem (List.mem_eraseDups.mp ha),
        List.idxOf_append_of_mem (List.mem_eraseDups.mp hb)]
    rw [List.eraseDups_append]
    by_cases hx : x ∈ l
    · have hnone : [x].removeAll l = [] := by simp [List.removeAll, hx]
      rw [hnone, List.eraseDups_nil, List.append_nil]
      exact hl
    · have hone : [x].removeAll l = [x] := by simp [List.removeAll, hx]
      rw [hone, List.eraseDups_cons, List.filter_nil, List.eraseDups_nil]
      refine List.pairwise_append.mpr ⟨hl, List.pairwise_singleton .., fun a ha b hb => ?_⟩
      obtain rfl := List.mem_singleton.mp hb
      have hlt := List.idxOf_lt_length_of_mem (List.mem_eraseDups.mp ha)
      rw [List.idxOf_append_of_mem (List.mem_eraseDups.mp ha), List.idxOf_append_of_notMem hx]
      omega

theorem mapM_congr_left {α β : Type} {f f' : α → Option β} {l : List α}
    (h : ∀ a ∈ l, f a = f' a) : l.mapM f = l.mapM f' := by
  induction l with
  | nil => rfl
  | cons a rest ih =>
    obtain ⟨ha, hrest⟩ := List.forall_mem_cons.mp h
    rw [List.mapM_cons, List.mapM_cons, ha, ih hrest]

/-! ### Merging and dropping arguments -/

namespace GatherMap

variable {arguments : List MatrixId} {map : GatherMap}

/-- The arguments `kept` are those that `map` reads of `arguments`, each once and in the order of
their first occurrences, and `map'` reads each of them. -/
structure Compacts (arguments : List MatrixId) (map : GatherMap) (kept : List MatrixId)
    (map' : GatherMap) : Prop where
  nodup : kept.Nodup
  mem_iff : ∀ a, a ∈ kept ↔ ∃ i k, arguments[i]? = some a ∧ some (i, k) ∈ map
  ordered : kept.Pairwise fun a b => arguments.idxOf a < arguments.idxOf b
  used : ∀ j < kept.length, ∃ k, some (j, k) ∈ map'

/-- **Merging and dropping keeps first occurrences, in their order.** -/
theorem compacts_renumber (map : GatherMap) (arguments : List MatrixId) :
    Compacts arguments map (map.usedArguments arguments)
      (map.renumber arguments (map.usedArguments arguments)) where
  nodup := nodup_usedArguments map arguments
  mem_iff _ := mem_usedArguments
  ordered := (pairwise_idxOf_eraseDups arguments).filter _
  used := exists_mem_renumber map arguments

/-- If the map is the identity after all but one argument have been dropped, each entry is the
nonzero of its own number of that argument, wherever it stands. -/
theorem getElem?_of_isIdentity {g : MatrixGraph} {a : MatrixId} (hmap : g.Reaches arguments map)
    (hused : map.usedArguments arguments = [a])
    (hidentity : (map.renumber arguments [a]).isIdentity = true) {k : Nat}
    {entry : Option (Nat × Nat)} (hk : map[k]? = some entry) :
    ∃ i, entry = some (i, k) ∧ arguments[i]? = some a := by
  have hrenumbered : (map.renumber arguments [a])[k]?
      = some (entry.map fun ik => ((arguments.map [a].idxOf).toArray.getD ik.1 0, ik.2)) := by
    rw [renumber, List.getElem?_map, hk]
    rfl
  obtain ⟨⟨i, l⟩, rfl, hil⟩ :=
    Option.map_eq_some_iff.mp (entry_of_isIdentity hidentity hrenumbered)
  obtain ⟨-, rfl⟩ := Prod.mk.inj hil
  obtain ⟨b, q, hb, -, -⟩ := hmap i l (List.mem_of_getElem? hk)
  have hkept : b ∈ [a] := hused ▸ mem_usedArguments.mpr ⟨i, l, hb, List.mem_of_getElem? hk⟩
  obtain rfl := List.mem_singleton.mp hkept
  exact ⟨i, rfl, hb⟩

end GatherMap

/-! ### The naive reading -/

namespace MatrixNode

open ScalarTape (mapM_some)

variable {V : Type} {z : V} {g : MatrixGraph} {arguments : List MatrixId} {map : GatherMap}

/-- **The naive reading does not see that arguments were merged and dropped.** -/
theorem gatherFrom_renumber (hmap : g.Reaches arguments map) (value : MatrixId → List V) :
    gatherFrom z (map.renumber arguments (map.usedArguments arguments))
        ((map.usedArguments arguments).map value)
      = gatherFrom z map (arguments.map value) := by
  rw [gatherFrom, gatherFrom, GatherMap.renumber, List.mapM_map]
  refine mapM_congr_left fun entry hentry => ?_
  cases entry with
  | none => rfl
  | some ik =>
    obtain ⟨i, k⟩ := ik
    obtain ⟨a, q, ha, -, -⟩ := hmap i k hentry
    have hkept := List.getElem?_idxOf (GatherMap.mem_usedArguments.mpr ⟨i, k, ha, hentry⟩)
    show (((map.usedArguments arguments).map value)[
        (arguments.map (map.usedArguments arguments).idxOf).toArray.getD i 0]?).bind (·[k]?)
      = ((arguments.map value)[i]?).bind (·[k]?)
    rw [GatherMap.getD_numbers ha, List.getElem?_map, List.getElem?_map, hkept, ha]

/-- Holes are zeros. -/
theorem gatherFrom_of_holes (xs : Bundle V) (hnone : map.all Option.isNone = true) :
    gatherFrom z map xs = some (List.replicate map.length z) := by
  have hzeros : gatherFrom z map xs = some (map.map fun _ => z) := by
    refine mapM_some fun entry hentry => ?_
    obtain rfl := GatherMap.eq_none_of_holes hnone entry hentry
    rfl
  rw [hzeros, List.map_const']

theorem gatherFrom_of_isIdentity {x : List V} (hidentity : map.isIdentity = true)
    (hlength : map.length = x.length) : gatherFrom z map [x] = some x := by
  rw [gatherFrom_eq, MatrixBuilder.runGather_of_isIdentity hidentity hlength]
  intro i k hik
  obtain ⟨l, hl⟩ := List.mem_iff_getElem?.mp hik
  obtain ⟨rfl, rfl⟩ := Prod.mk.inj (Option.some.inj (GatherMap.entry_of_isIdentity hidentity hl))
  exact ⟨x, rfl, hlength ▸ (List.getElem?_eq_some_iff.mp hl).1⟩

end MatrixNode

/-! ### What comes out -/

namespace MatrixGraph

open MatrixNode

variable {g h : MatrixGraph} {arguments : List MatrixId} {map : GatherMap} {p : Pattern}
  {e : MatrixId}

/-- The expression is on `p` and has the nonzeros that the map takes from the arguments. This is said
of values, and of what a tape with any inputs computes for the expression and for the arguments. -/
structure ReadsNaively (h : MatrixGraph) (arguments : List MatrixId) (map : GatherMap) (p : Pattern)
    (e : MatrixId) : Prop where
  pattern : h.pattern? e = some p
  values : ∀ {V : Type} (A : Algebra Id V) (given : MatrixId → Option (List V)), h.Gives given →
    gatherFrom (A.constant 0.0) map (arguments.map (h.evaluate A given)) = some (h.evaluate A given e)
  replays : ∀ inputs : List MatrixId, inputs.Nodup → (∀ x ∈ inputs, h.isSymbol x = true) →
    (∀ a ∈ arguments, ∃ n, h.node? a = some n) →
    ∃ tape, MatrixTape.compile h inputs (e :: arguments) = .ok tape ∧
      ∀ {V : Type} (A : Algebra Id V) (values : Bundle V),
        values.map List.length = inputs.map (fun x => (MatrixTape.patternIn h x).nnz) →
        ∃ x xs, Id.run (tape.replay A values (e :: arguments).length) = x :: xs ∧
          gatherFrom (A.constant 0.0) map xs = some x

/-- Tapes compute values, so it is enough to know what values are. -/
theorem readsNaively_of_values (hp : h.pattern? e = some p)
    (hvalues : ∀ {V : Type} (A : Algebra Id V) (given : MatrixId → Option (List V)), h.Gives given →
      gatherFrom (A.constant 0.0) map (arguments.map (h.evaluate A given))
        = some (h.evaluate A given e)) : h.ReadsNaively arguments map p e where
  pattern := hp
  values := hvalues
  replays inputs hnodup hsymbols hknown := by
    obtain ⟨n, hn⟩ := exists_node?_of_pattern? hp
    obtain ⟨tape, htape⟩ := MatrixTape.exists_compile hsymbols hnodup
      (List.forall_mem_cons.mpr ⟨⟨n, hn⟩, hknown⟩)
    have hcompiled := MatrixTape.compiled_of_compile htape
    refine ⟨tape, htape, fun A values hfits => ?_⟩
    exact ⟨_, _, hcompiled.replay_eq A values, hvalues A _ (hcompiled.gives hfits)⟩

/-- How a gather that was asked for in `g` has come out in `h`. -/
inductive Gathered (g h : MatrixGraph) (arguments : List MatrixId) (map : GatherMap) (p : Pattern)
    (e : MatrixId) : Prop
  | zero : (∀ entry ∈ map, entry = none) →
      h.node? e = some (.constant (.tabulate p fun _ => 0.0)) → Gathered g h arguments map p e
  | argument :
      (∀ (k : Nat) entry, map[k]? = some entry → ∃ i, entry = some (i, k) ∧ arguments[i]? = some e) →
      h = g → Gathered g h arguments map p e
  | node {kept map'} : GatherMap.Compacts arguments map kept map' →
      h.node? e = some (.gather kept map' p) → Gathered g h arguments map p e

/-! ### Each of the three means what the map says -/

section Values

variable {V : Type} {A : Algebra Id V} {given : MatrixId → Option (List V)}

theorem gatherFrom_zero (hgiven : h.Gives given) (hlength : map.length = p.nnz)
    (hnone : map.all Option.isNone = true)
    (hn : h.node? e = some (.constant (.tabulate p fun _ => 0.0))) :
    gatherFrom (A.constant 0.0) map (arguments.map (h.evaluate A given))
      = some (h.evaluate A given e) := by
  have hvalue : h.evaluate A given e
      = ((List.range p.nnz).map fun _ => (0.0 : Binary64)).map A.constant :=
    evaluate_of_node? (hgiven.eq_none hn rfl) hn
  rw [gatherFrom_of_holes _ hnone, hvalue, hlength, List.map_map]
  refine congrArg some (Eq.symm ?_)
  exact (List.map_const' ..).trans (by rw [List.length_range])

theorem gatherFrom_argument (hg : g.WellTyped) (hgiven : g.Gives given)
    (hlength : map.length = p.nnz) (hmap : g.Reaches arguments map) (he : g.pattern? e = some p)
    (hused : map.usedArguments arguments = [e])
    (hidentity : (map.renumber arguments [e]).isIdentity = true) :
    gatherFrom (A.constant 0.0) map (arguments.map (g.evaluate A given))
      = some (g.evaluate A given e) := by
  have hsame : (map.renumber arguments [e]).length = (g.evaluate A given e).length := by
    rw [hg.length_evaluate hgiven.fits he, GatherMap.renumber, List.length_map, hlength]
  have hrenumbered := gatherFrom_renumber (z := A.constant 0.0) hmap (g.evaluate A given)
  rw [hused, List.map_singleton] at hrenumbered
  exact hrenumbered.symm.trans (gatherFrom_of_isIdentity hidentity hsame)

theorem gatherFrom_node (hh : h.WellTyped) (hgiven : h.Gives given) (hmap : h.Reaches arguments map)
    (hn : h.node? e = some (.gather (map.usedArguments arguments)
      (map.renumber arguments (map.usedArguments arguments)) p)) :
    gatherFrom (A.constant 0.0) map (arguments.map (h.evaluate A given))
      = some (h.evaluate A given e) :=
  (gatherFrom_renumber hmap _).symm.trans (gatherFrom_evaluate hh hgiven hn)

end Values

end MatrixGraph

namespace MatrixBuilder

open MatrixGraph

variable {g : MatrixGraph} {arguments : List MatrixId} {map : GatherMap} {p : Pattern}

/-- Gathers succeed in every well-typed graph, and what comes out means what the map says. -/
theorem yields_gather_naively (hlength : map.length = p.nnz) (hmap : g.Reaches arguments map) :
    Yields (gather arguments map p) g fun e h =>
      h.ReadsNaively arguments map p e ∧ Gathered g h arguments map p e := by
  intro hg
  rcases gather_cases hmap p with ⟨hnone, hrun⟩ | ⟨a, hused, ha, hidentity, hrun⟩ | hrun
  · obtain ⟨e, h, hintern, hgrow, hh, hn, hp⟩ :=
      yields_intern (.constant (.tabulate p fun _ => 0.0)) hg
    refine ⟨e, h, hrun.trans hintern, hgrow, hh, ?_, ?_⟩
    · exact readsNaively_of_values hp fun A given hgiven =>
        gatherFrom_zero hgiven hlength hnone hn
    · exact .zero (GatherMap.eq_none_of_holes hnone) hn
  · refine ⟨a, g, hrun, .refl g, hg, ?_, ?_⟩
    · exact readsNaively_of_values ha fun A given hgiven =>
        gatherFrom_argument hg hgiven hlength hmap ha hused hidentity
    · exact .argument (fun k entry hk => GatherMap.getElem?_of_isIdentity hmap hused hidentity hk) rfl
  · obtain ⟨e, h, hintern, hgrow, hh, hn, hp⟩ :=
      yields_intern (.gather (GatherMap.gathers_renumber hlength hmap)) hg
    refine ⟨e, h, hrun.trans hintern, hgrow, hh, ?_, ?_⟩
    · exact readsNaively_of_values hp fun A given hgiven =>
        gatherFrom_node hh hgiven (hmap.grow hgrow.pattern?) hn
    · exact .node (GatherMap.compacts_renumber map arguments) hn

end MatrixBuilder

namespace MatrixHistory

variable {gs : GraphId → Option MatrixGraph} {fs : List MatrixFunction} {i : GraphId}
  {g : MatrixGraph} {arguments : List MatrixId} {map : GatherMap} {p : Pattern}

/-- **Gathers mean what their maps say.** In a graph of any history, nonzeros of any arguments are
gathered by any map that has an entry or a hole for each nonzero of the pattern and is in range. What
is returned is on the pattern and reads as the map does, whether it is a constant, an argument or a
node whose arguments are those that are read, each once and in the order in which they come first. -/
theorem gathers_naively (hist : MatrixHistory gs fs) (hg : gs i = some g)
    (hlength : map.length = p.nnz) (hmap : g.Reaches arguments map) :
    ∃ e h, MatrixBuilder.gather arguments map p g = .ok e h ∧ g.Grows h ∧ h.WellTyped ∧
      h.ReadsNaively arguments map p e ∧ MatrixGraph.Gathered g h arguments map p e :=
  MatrixBuilder.yields_gather_naively hlength hmap (hist.wellTyped hg)

end MatrixHistory

/-! ### A column that is named twice -/

namespace RepeatedColumn

/-- A column of two elements, and two single elements. -/
def requests : List MatrixRequest :=
  [.symbol "x" (.denseColumn 2), .symbol "y" .scalar, .symbol "z" .scalar]

def graph : MatrixGraph := requests.foldl (fun g r => r.after g) (.new (.numbered 0))

/-- The column stands twice, and the first of the single elements is not read. -/
def arguments : List MatrixId := [⟨0⟩, ⟨1⟩, ⟨2⟩, ⟨0⟩]

/-- The second element of the column, a zero, and the second of the single elements. -/
def map : GatherMap := [some (3, 1), none, some (2, 0)]

def gathered : MatrixGraph :=
  match MatrixBuilder.gather arguments map (.denseColumn 3) graph with
  | .ok _ h | .error _ h => h

/-- The gather and its arguments as functions of the three symbols. -/
def tape : MatrixTape where
  instrs := [⟨.input 0, [], some 0, .denseColumn 2, ⟨0⟩⟩, ⟨.input 2, [], some 1, .scalar, ⟨2⟩⟩,
    ⟨.gather [some (0, 1), none, some (1, 0)], [0, 1], some 2, .denseColumn 3, ⟨3⟩⟩,
    ⟨.output 0, [2], none, .denseColumn 3, ⟨3⟩⟩, ⟨.output 1, [0], none, .denseColumn 2, ⟨0⟩⟩,
    ⟨.input 1, [], some 2, .scalar, ⟨1⟩⟩, ⟨.output 2, [2], none, .scalar, ⟨1⟩⟩,
    ⟨.output 3, [1], none, .scalar, ⟨2⟩⟩, ⟨.output 4, [0], none, .denseColumn 2, ⟨0⟩⟩]
  freeSymbols := []
  freeNames := []
  workSize := 3

theorem history : MatrixHistory (Function.update (fun _ => none) (.numbered 0) (some graph)) [] :=
  @MatrixHistory.afterAll _ _ _ _ requests (by decide) (.new (.numbered 0) .start rfl)

theorem reaches : graph.Reaches arguments map := by
  intro i k hik
  simp only [map, List.mem_cons, List.not_mem_nil, Option.some.injEq, Prod.mk.injEq, reduceCtorEq,
    false_or, or_false] at hik
  rcases hik with ⟨rfl, rfl⟩ | ⟨rfl, rfl⟩
  · exact ⟨⟨0⟩, .denseColumn 2, rfl, rfl, by decide⟩
  · exact ⟨⟨2⟩, .scalar, rfl, rfl, by decide⟩

/-- The column is kept once and the element that is not read is dropped. The tape has the same three
numbers for the gather as the map finds among those for the arguments. -/
theorem gathers_naively_repeated :
    MatrixBuilder.gather arguments map (.denseColumn 3) graph = .ok ⟨3⟩ gathered ∧
      gathered.node? ⟨3⟩
        = some (.gather [⟨0⟩, ⟨2⟩] [some (0, 1), none, some (1, 0)] (.denseColumn 3)) ∧
      GatherMap.Compacts arguments map [⟨0⟩, ⟨2⟩] [some (0, 1), none, some (1, 0)] ∧
      MatrixTape.compile gathered [⟨0⟩, ⟨1⟩, ⟨2⟩] (⟨3⟩ :: arguments) = .ok tape ∧
        ∃ xs, Id.run (tape.replay floatAlgebra [[3.0, 4.0], [5.0], [6.0]] 5)
            = [4.0, 0.0, 6.0] :: xs ∧
          MatrixNode.gatherFrom 0.0 map xs = some [4.0, 0.0, 6.0] := by
  have hrun : MatrixBuilder.gather arguments map (.denseColumn 3) graph = .ok ⟨3⟩ gathered := rfl
  have hnode : gathered.node? ⟨3⟩
      = some (.gather [⟨0⟩, ⟨2⟩] [some (0, 1), none, some (1, 0)] (.denseColumn 3)) := rfl
  obtain ⟨e, h, hrun', -, -, hreads, hgathered⟩ :=
    history.gathers_naively (i := .numbered 0) (p := .denseColumn 3) (Function.update_self ..) rfl
      reaches
  obtain ⟨rfl, rfl⟩ := EStateM.Result.ok.inj (hrun.symm.trans hrun')
  refine ⟨hrun, hnode, ?_, ?_⟩
  · cases hgathered with
    | zero hholes => exact absurd (hholes _ List.mem_cons_self) (by simp)
    | argument hall =>
      obtain ⟨i, hentry, -⟩ := hall 1 none rfl
      contradiction
    | node hcompacts hn =>
      cases hn.symm.trans hnode
      exact hcompacts
  · obtain ⟨tape', htape, hreplays⟩ := hreads.replays [⟨0⟩, ⟨1⟩, ⟨2⟩] (by decide)
      (by decide) (fun a ha => Option.isSome_iff_exists.mp (by revert a; decide))
    obtain ⟨x, xs, hreplay, hvalues⟩ := hreplays floatAlgebra [[3.0, 4.0], [5.0], [6.0]] rfl
    have hcompile : MatrixTape.compile gathered [⟨0⟩, ⟨1⟩, ⟨2⟩] (⟨3⟩ :: arguments) = .ok tape := rfl
    have hresults : Id.run (tape.replay floatAlgebra [[3.0, 4.0], [5.0], [6.0]] 5)
        = [[4.0, 0.0, 6.0], [3.0, 4.0], [5.0], [6.0], [3.0, 4.0]] := by decide
    obtain rfl := Except.ok.inj (hcompile.symm.trans htape)
    obtain ⟨rfl, -⟩ := List.cons.inj (hreplay.symm.trans hresults)
    exact ⟨hcompile, xs, hreplay, hvalues⟩

end RepeatedColumn

end Fluxion
