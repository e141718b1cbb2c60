import Fluxion.Proofs.Scalar.Compile
import Fluxion.Proofs.Text.Spelling
import Mathlib.Data.List.Sigma

/-!
# Printing is faithful

The walk that prints an expression lists what the expression reaches, each node after everything below
it. So when a node is written, there are texts for all its operands, and the bound ones among them have
been bound before.

A node that is not bound is written wherever it is read. That an operation is written once all the same
is shown downwards, from the expression to its operands: an operation that is neither bound nor the
expression itself is read in one place, by a node that is written once.

## Main definitions

* `Printed` — a text with bindings in front of it
* `ScalarGraph.ReadTwice` — two operand positions hold a node
* `ScalarGraph.printed` — the bindings and the last text of an expression
* `ScalarGraph.Prints` — these say what the expression is, and spell out each operation once

## Main results

* `ScalarGraph.exists_prints` — **printing is faithful**
-/

namespace Fluxion

open Postorder (Reaches)

/-! ### Texts with bindings -/

/-- A text, and the texts that are bound to names in front of it. -/
structure Printed where
  bindings : List String
  last : String

namespace Printed

/-- The bindings as they are written, numbered from 1. -/
def front (bindings : List String) : String :=
  .join (bindings.zipIdx.map fun (s, k) => reference (k + 1) ++ "=" ++ s ++ ", ")

/-- The whole text. -/
def text (p : Printed) : String := front p.bindings ++ p.last

theorem front_concat (bindings : List String) (s : String) :
    front (bindings ++ [s])
      = front bindings ++ reference (bindings.length + 1) ++ "=" ++ s ++ ", " := by
  simp only [front, List.zipIdx_append, List.map_append, String.join, List.foldl_append]
  simp [String.append_assoc]

end Printed

/-! ### Counting -/

section

variable {α β : Type} [DecidableEq β]

/-- How often an element occurs in lists that are put one after the other depends on how often those
that have it are among them. -/
theorem count_flatMap_congr [DecidableEq α] {f : α → List β} {as bs : List α} {x : β}
    (h : ∀ a, x ∈ f a → as.count a = bs.count a) :
    (as.flatMap f).count x = (bs.flatMap f).count x := by
  have hfilter : ∀ l : List α,
      (l.flatMap f).count x = ((l.filter fun a => x ∈ f a).flatMap f).count x := by
    intro l
    induction l with
    | nil => rfl
    | cons a rest ih =>
      rw [List.flatMap_cons, List.count_append, ih, List.filter_cons]
      split
      · rw [List.flatMap_cons, List.count_append]
      · rename_i hno
        rw [List.count_eq_zero.mpr (by simpa using hno), Nat.zero_add]
  rw [hfilter as, hfilter bs]
  refine (List.Perm.flatMap_right f (List.perm_iff_count.mpr fun a => ?_)).count_eq x
  by_cases ha : x ∈ f a
  · rw [List.count_filter (by simpa using ha), List.count_filter (by simpa using ha), h a ha]
  · rw [List.count_eq_zero.mpr (by simp [ha]), List.count_eq_zero.mpr (by simp [ha])]

/-- Where an element occurs in lists that are put one after the other: in which one, and where there. -/
def occurrences (f : α → List β) (as : List α) (x : β) : List (α × Nat) :=
  as.flatMap fun a => ((f a).zipIdx.filter (·.1 = x)).map fun b => (a, b.2)

theorem mem_occurrences {f : α → List β} {as : List α} {x : β} {p : α × Nat} :
    p ∈ occurrences f as x ↔ p.1 ∈ as ∧ (f p.1)[p.2]? = some x := by
  obtain ⟨a, i⟩ := p
  simp only [occurrences, List.mem_flatMap, List.mem_map, List.mem_filter, decide_eq_true_eq]
  constructor
  · rintro ⟨a, ha, ⟨b, i⟩, ⟨hb, rfl⟩, heq⟩
    obtain ⟨rfl, rfl⟩ := Prod.mk.inj heq
    exact ⟨ha, List.mk_mem_zipIdx_iff_getElem?.mp hb⟩
  · rintro ⟨ha, hx⟩
    exact ⟨a, ha, (x, i), ⟨List.mk_mem_zipIdx_iff_getElem?.mpr hx, rfl⟩, rfl⟩

theorem length_occurrences (f : α → List β) (as : List α) (x : β) :
    (occurrences f as x).length = (as.flatMap f).count x := by
  rw [occurrences, List.count_flatMap, List.length_flatMap]
  refine congrArg List.sum (List.map_congr_left fun a _ => ?_)
  rw [List.length_map, ← List.countP_eq_length_filter, Function.comp_apply, List.count,
    ← List.zipIdx_map_fst 0 (f a), List.countP_map, List.zipIdx_map_fst]
  rfl

theorem nodup_occurrences {as : List α} (hnodup : as.Nodup) (f : α → List β) (x : β) :
    (occurrences f as x).Nodup := by
  refine List.nodup_flatMap.mpr ⟨fun a _ => ?_, ?_⟩
  · have hnumbers : (((f a).zipIdx.filter (·.1 = x)).map Prod.snd).Nodup :=
      (List.nodup_zipIdx_map_snd (f a)).sublist (List.filter_sublist.map Prod.snd)
    have hpairs := hnumbers.map (Prod.mk_right_injective a)
    rwa [List.map_map] at hpairs
  · refine hnodup.imp fun {a b} hab p hpa hpb => hab ?_
    obtain ⟨_, -, rfl⟩ := List.mem_map.mp hpa
    obtain ⟨_, -, heq⟩ := List.mem_map.mp hpb
    exact (Prod.mk.inj heq).1.symm

/-- An element occurs more than once in lists that are put one after the other if there are two
positions that have it. -/
theorem one_lt_count_flatMap_iff [DecidableEq α] {as : List α} (hnodup : as.Nodup) (f : α → List β)
    (x : β) : 1 < (as.flatMap f).count x ↔ ∃ p q : α × Nat, p ≠ q ∧
      (p.1 ∈ as ∧ (f p.1)[p.2]? = some x) ∧ q.1 ∈ as ∧ (f q.1)[q.2]? = some x := by
  rw [← length_occurrences, ← List.toFinset_card_of_nodup (nodup_occurrences hnodup f x),
    Finset.one_lt_card]
  simp only [List.mem_toFinset, mem_occurrences]
  constructor
  · rintro ⟨p, hp, q, hq, hne⟩
    exact ⟨p, q, hne, hp, hq⟩
  · rintro ⟨p, q, hne, hp, hq⟩
    exact ⟨p, hp, q, hq, hne⟩

end

namespace ScalarGraph

variable {g : ScalarGraph} {e x : ScalarId}

/-! ### The order of the walk -/

/-- What an expression reaches is listed, each node after everything below it. -/
structure ListsBelow (g : ScalarGraph) (e : ScalarId) (order : List ScalarId) : Prop where
  nodup : order.Nodup
  mem_iff : ∀ x, x ∈ order ↔ Reaches g.operandNumbers e.index x.index
  mem_front : ∀ front x back, order = front ++ x :: back → ∀ y, g.Below x y → y ∈ front

theorem reaches_operandNumbersReversed (g : ScalarGraph) :
    Reaches g.operandNumbersReversed = Reaches g.operandNumbers := by
  simp only [Reaches, operandNumbersReversed, List.mem_reverse]

theorem listsBelow_textOrder (he : g.Has e) : g.ListsBelow e (g.textOrder e) := by
  have hless : ∀ n, ∀ c ∈ g.operandNumbersReversed n, c < n := fun n c hc => by
    rw [operandNumbersReversed, List.mem_reverse] at hc
    obtain ⟨a, ha, rfl⟩ := List.mem_map.mp hc
    exact lt_of_mem_operands ha
  have hempty : ∀ n, NumberSet.empty.contains n = true ↔ n ∈ ([] : List Nat) := by simp
  obtain ⟨hlisting, -, -, -⟩ := Postorder.visit_spec hless (stepBound_operandNumbersReversed_le g)
    he.index_lt Postorder.isListing_nil hempty
  have hvisited := Postorder.append_visit hless (stepBound_operandNumbersReversed_le g) he.index_lt
    Postorder.isListing_nil hempty
  rw [List.nil_append] at hlisting
  rw [List.nil_append, List.nil_append] at hvisited
  rw [textOrder]
  generalize (Postorder.visit g.operandNumbersReversed (3 * g.size) .empty e.index).2 = nodes
    at hlisting hvisited
  refine ⟨hlisting.nodup.map fun _ _ h => congrArg ScalarId.index h, fun x => ?_, ?_⟩
  · have hmem : x.index ∈ nodes ↔ Reaches g.operandNumbers e.index x.index := by
      rw [hvisited, List.mem_eraseDups, Postorder.mem_traversal hless, reaches_operandNumbersReversed]
    exact (List.mem_map_of_injective fun _ _ h => congrArg ScalarId.index h).trans hmem
  · rintro front x back heq y ⟨a, ha, hy⟩
    obtain ⟨front', rest, rfl, rfl, hrest⟩ := List.map_eq_append_iff.mp heq
    obtain ⟨n, back', rfl, rfl, rfl⟩ := List.map_eq_cons_iff.mp hrest
    have hc : a.index ∈ g.operandNumbersReversed n :=
      List.mem_reverse.mpr (mem_operandNumbers_iff (e := ⟨n⟩) |>.mpr ha)
    rw [← reaches_operandNumbersReversed] at hy
    exact List.mem_map_of_mem (hlisting.mem_front_of_reaches hc hy)

variable {order : List ScalarId} {p : ScalarId → Bool}

theorem ListsBelow.mem (h : g.ListsBelow e order) : e ∈ order := (h.mem_iff e).mpr .refl

theorem ListsBelow.mem_of_mem_operands (h : g.ListsBelow e order) {a : ScalarId} (hx : x ∈ order)
    (ha : a ∈ g.operands x) : a ∈ order :=
  (h.mem_iff a).mpr (((h.mem_iff x).mp hx).tail (mem_operandNumbers_iff.mpr ha))

/-- Nodes can be bound in the order in which they are listed. -/
theorem ListsBelow.boundInOrder (h : g.ListsBelow e order) (p : ScalarId → Bool) :
    g.BoundInOrder (order.filter p) where
  nodup := h.nodup.filter p
  lt_of_below := by
    intro j k x y hx hy hbelow
    have hnodup := h.nodup.filter p
    have hxmem := List.mem_filter.mp (List.mem_of_getElem? hx)
    have hymem := List.mem_filter.mp (List.mem_of_getElem? hy)
    obtain ⟨front, back, horder⟩ := List.append_of_mem hymem.1
    have hfront : x ∈ front.filter p :=
      List.mem_filter.mpr ⟨h.mem_front front y back horder x hbelow, hxmem.2⟩
    obtain ⟨i, hi, hxi⟩ := List.getElem_of_mem hfront
    rw [horder, List.filter_append, List.filter_cons, if_pos hymem.2] at hx hy hnodup
    have hyat : (front.filter p ++ y :: back.filter p)[(front.filter p).length]? = some y := by simp
    have hxat : (front.filter p ++ y :: back.filter p)[i]? = some x := by
      rw [List.getElem?_append_left hi, List.getElem?_eq_getElem hi, hxi]
    have hj := (idxOf?_of_getElem? hnodup hx).symm.trans (idxOf?_of_getElem? hnodup hxat)
    have hk := (idxOf?_of_getElem? hnodup hy).symm.trans (idxOf?_of_getElem? hnodup hyat)
    rw [Option.some.inj hj, Option.some.inj hk]
    exact hi

/-! ### What is written -/

/-- A draft has a text for each of the nodes that are done, and has bound those that are to be
bound. -/
structure Draft.Holds (d : Draft) (g : ScalarGraph) (bound : List ScalarId) (p : ScalarId → Bool)
    (done : List ScalarId) : Prop where
  texts : ∀ x ∈ done, d.textOf x = (g.operandSpelling bound x).text
  bindings : d.bindings = Printed.front ((done.filter p).map fun x => (g.spell bound x).text)
  count : d.bound = (done.filter p).length

theorem Draft.textOf_add (d : Draft) (e : ScalarId) (text : String) (bind : Bool) (x : ScalarId) :
    (d.add e text bind).textOf x
      = if x = e then (if bind then reference (d.bound + 1) else text) else d.textOf x := by
  have hindex : x.index = e.index ↔ x = e :=
    ⟨fun h => congrArg ScalarId.mk h, congrArg ScalarId.index⟩
  cases bind <;> simp [Draft.add, Draft.textOf, hindex] <;> split <;> rfl

/-- One more node is written, and bound if it is to be. -/
theorem ListsBelow.holds_add (h : g.ListsBelow e order) {done rest : List ScalarId}
    (horder : order = done ++ x :: rest) {d : Draft} (hd : d.Holds g (order.filter p) p done) :
    (d.add x (g.nodeText d.textOf x) (p x)).Holds g (order.filter p) p (done ++ [x]) := by
  have htext : g.nodeText d.textOf x = (g.spell (order.filter p) x).text := by
    rw [text_spell]
    exact nodeText_congr fun a ha =>
      hd.texts a (h.mem_front done x rest horder a (below_of_mem_operands ha))
  have hx : (if p x then reference (d.bound + 1) else g.nodeText d.textOf x)
      = (g.operandSpelling (order.filter p) x).text := by
    by_cases hp : p x = true
    · have hget : (order.filter p)[d.bound]? = some x := by
        rw [horder, List.filter_append, List.filter_cons, if_pos hp, hd.count]
        simp
      rw [if_pos hp, operandSpelling_of_getElem? (h.nodup.filter p) hget]
    · have hno : x ∉ order.filter p := fun hmem => hp (List.mem_filter.mp hmem).2
      rw [if_neg hp, operandSpelling_of_notMem hno, htext]
  refine ⟨fun y hy => ?_, ?_, ?_⟩
  · rw [Draft.textOf_add]
    by_cases hyx : y = x
    · rw [if_pos hyx, hx, hyx]
    · rw [if_neg hyx]
      exact hd.texts y ((List.mem_append.mp hy).resolve_right (mt List.mem_singleton.mp hyx))
  · rw [List.filter_append, List.filter_singleton, htext]
    cases p x with
    | true =>
      rw [cond_true, List.map_append, List.map_singleton, Printed.front_concat, List.length_map,
        ← hd.bindings, ← hd.count]
      rfl
    | false =>
      rw [cond_false, List.append_nil, ← hd.bindings]
      rfl
  · rw [List.filter_append, List.filter_singleton]
    cases p x <;> simp [Draft.add, hd.count]

/-- When all nodes have been written, there is a text for each of them. -/
theorem ListsBelow.holds_foldl (h : g.ListsBelow e order) {done rest : List ScalarId}
    (horder : order = done ++ rest) {d : Draft} (hd : d.Holds g (order.filter p) p done) :
    (rest.foldl (fun d x => d.add x (g.nodeText d.textOf x) (p x)) d).Holds g (order.filter p) p
      order := by
  induction rest generalizing done d with
  | nil =>
    rw [List.append_nil] at horder
    exact horder ▸ hd
  | cons x rest ih =>
    exact ih (by rw [horder, List.append_assoc, List.singleton_append]) (h.holds_add horder hd)

/-! ### How often nodes are written -/

/-- An operand position that holds `x`, of a node that `e` reaches: the node, and which of its
operands. -/
def ReadAt (g : ScalarGraph) (e x : ScalarId) (position : ScalarId × Nat) : Prop :=
  Reaches g.operandNumbers e.index position.1.index ∧
    (g.operands position.1)[position.2]? = some x

/-- There are two operand positions that hold `x` and are reached from `e`. -/
def ReadTwice (g : ScalarGraph) (e x : ScalarId) : Prop :=
  ∃ p q, p ≠ q ∧ g.ReadAt e x p ∧ g.ReadAt e x q

theorem ReadTwice.reaches (h : g.ReadTwice e x) : Reaches g.operandNumbers e.index x.index := by
  obtain ⟨p, -, -, ⟨hreader, hx⟩, -⟩ := h
  exact hreader.tail (mem_operandNumbers_iff.mpr (List.mem_of_getElem? hx))

theorem ListsBelow.one_lt_count_iff (h : g.ListsBelow e order) (x : ScalarId) :
    1 < (order.flatMap g.operands).count x ↔ g.ReadTwice e x := by
  rw [one_lt_count_flatMap_iff h.nodup]
  simp only [h.mem_iff]
  rfl

theorem count_operandNumbers (nodes : List ScalarId) (x : ScalarId) :
    (nodes.flatMap fun y => g.operandNumbers y.index).count x.index
      = (nodes.flatMap g.operands).count x := by
  have hmap : (nodes.flatMap fun y => g.operandNumbers y.index)
      = (nodes.flatMap g.operands).map ScalarId.index := List.map_flatMap.symm
  rw [hmap]
  exact List.count_map_of_injective _ _ (fun _ _ h => congrArg ScalarId.mk h) x

/-- What is bound: what is read twice, but no leaves and not the expression itself. -/
theorem ListsBelow.isShared_iff (h : g.ListsBelow e order) (x : ScalarId) :
    g.isShared (.ofRepeated (order.flatMap fun y => g.operandNumbers y.index)) e x = true
      ↔ x ≠ e ∧ g.operands x ≠ [] ∧ g.ReadTwice e x := by
  rw [← h.one_lt_count_iff, ← count_operandNumbers, isShared, NumberSet.contains_ofRepeated]
  simp [and_assoc]

/-- A node other than the expression is read by one that is listed. -/
theorem ListsBelow.exists_reader (h : g.ListsBelow e order) (hx : x ∈ order) (hne : x ≠ e) :
    ∃ y ∈ order, x ∈ g.operands y := by
  rcases Relation.ReflTransGen.cases_tail ((h.mem_iff x).mp hx) with heq | ⟨n, hn, hxn⟩
  · exact absurd (congrArg ScalarId.mk heq) hne
  · exact ⟨⟨n⟩, (h.mem_iff ⟨n⟩).mpr hn, mem_operandNumbers_iff (e := ⟨n⟩) |>.mp hxn⟩

theorem ListsBelow.index_le (h : g.ListsBelow e order) (hx : x ∈ order) : x.index ≤ e.index :=
  Postorder.le_of_reaches (ScalarTape.operandNumbers_lt g) ((h.mem_iff x).mp hx)

/-- What is not listed is not read, and neither is the expression itself. -/
theorem ListsBelow.count_operands_eq_zero (h : g.ListsBelow e order) (hx : x ∈ order → x = e) :
    (order.flatMap g.operands).count x = 0 := by
  rw [List.count_eq_zero, List.mem_flatMap]
  rintro ⟨y, hy, hxy⟩
  obtain rfl := hx (h.mem_of_mem_operands hy hxy)
  exact Nat.not_le.mpr (lt_of_mem_operands hxy) (h.index_le hy)

/-- What is not read twice is read once, except for the expression itself. -/
theorem ListsBelow.count_operands_eq_one (h : g.ListsBelow e order) (hx : x ∈ order) (hne : x ≠ e)
    (honce : ¬ g.ReadTwice e x) : (order.flatMap g.operands).count x = 1 := by
  obtain ⟨y, hy, hxy⟩ := h.exists_reader hx hne
  have hsome : 0 < (order.flatMap g.operands).count x :=
    List.count_pos_iff.mpr (List.mem_flatMap.mpr ⟨y, hy, hxy⟩)
  rw [← h.one_lt_count_iff] at honce
  omega

theorem count_flatMap_openOperands (bound nodes : List ScalarId) (x : ScalarId) :
    (nodes.flatMap (g.openOperands bound)).count x
      = if x ∈ bound then 0 else (nodes.flatMap g.operands).count x := by
  rw [show nodes.flatMap (g.openOperands bound) = (nodes.flatMap g.operands).filter (· ∉ bound)
    from List.filter_flatMap.symm]
  split
  · rename_i hmem
    exact List.count_eq_zero.mpr fun hfilter =>
      of_decide_eq_true (List.mem_filter.mp hfilter).2 hmem
  · exact List.count_filter (decide_eq_true ‹_›)

/-- How often an operation is spelled out: once where it is bound, once if it is the expression, and
where it is read if it is neither. -/
theorem ListsBelow.count_roots (h : g.ListsBelow e order)
    (hp : ∀ x, p x = true ↔ x ≠ e ∧ g.operands x ≠ [] ∧ g.ReadTwice e x) (hx : g.operands x ≠ []) :
    (order.filter p ++ [e]).count x + (order.flatMap (g.openOperands (order.filter p))).count x
      = order.count x := by
  rw [List.count_append, count_flatMap_openOperands]
  by_cases hmem : x ∈ order.filter p
  · have hne := ((hp x).mp (List.mem_filter.mp hmem).2).1
    rw [if_pos hmem, List.count_eq_one_of_mem (h.nodup.filter p) hmem,
      List.count_eq_one_of_mem h.nodup (List.mem_filter.mp hmem).1,
      List.count_eq_zero.mpr (mt List.mem_singleton.mp hne)]
  · rw [if_neg hmem, List.count_eq_zero.mpr hmem, Nat.zero_add]
    by_cases hne : x = e
    · rw [h.count_operands_eq_zero fun _ => hne, hne, List.count_singleton_self,
        List.count_eq_one_of_mem h.nodup h.mem]
    · rw [List.count_eq_zero.mpr (mt List.mem_singleton.mp hne), Nat.zero_add]
      by_cases hlisted : x ∈ order
      · have honce : ¬ g.ReadTwice e x := fun htwice =>
          hmem (List.mem_filter.mpr ⟨hlisted, (hp x).mpr ⟨hne, hx, htwice⟩⟩)
        rw [h.count_operands_eq_one hlisted hne honce, List.count_eq_one_of_mem h.nodup hlisted]
      · rw [h.count_operands_eq_zero fun hmem => absurd hmem hlisted, List.count_eq_zero.mpr hlisted]

theorem ListsBelow.mem_of_mem_roots (h : g.ListsBelow e order) {r : ScalarId}
    (hr : r ∈ order.filter p ++ [e]) : r ∈ order :=
  (List.mem_append.mp hr).elim List.mem_of_mem_filter fun hr => List.mem_singleton.mp hr ▸ h.mem

/-- What is spelled out is listed. -/
theorem ListsBelow.mem_of_mem_spelledOut (h : g.ListsBelow e order)
    (hx : x ∈ g.spelledOut (order.filter p) e) : x ∈ order := by
  obtain ⟨r, hr, hx⟩ := List.mem_flatMap.mp hx
  exact (h.mem_iff x).mpr
    (((h.mem_iff r).mp (h.mem_of_mem_roots hr)).trans (reaches_of_mem_nodes_spell hx))

/-- **Each operation is spelled out once**, in all bindings and the last text together. -/
theorem ListsBelow.count_spelledOut (h : g.ListsBelow e order)
    (hp : ∀ x, p x = true ↔ x ≠ e ∧ g.operands x ≠ [] ∧ g.ReadTwice e x) (hx : g.operands x ≠ []) :
    (g.spelledOut (order.filter p) e).count x = order.count x := by
  -- readers have larger numbers, so the induction goes down from above the expression
  suffices hall : ∀ (bound : Nat) (x : ScalarId), e.index < x.index + bound → g.operands x ≠ [] →
      (g.spelledOut (order.filter p) e).count x = order.count x from
    hall (e.index + 1) x (by omega) hx
  intro bound
  induction bound with
  | zero =>
    intro x hlt _
    have hno : x ∉ order := fun hmem => Nat.not_le.mpr hlt (h.index_le hmem)
    rw [List.count_eq_zero.mpr hno,
      List.count_eq_zero.mpr fun hmem => hno (h.mem_of_mem_spelledOut hmem)]
  | succ bound ih =>
    intro x hlt hx
    have hreaders : ∀ y, x ∈ g.openOperands (order.filter p) y →
        (g.spelledOut (order.filter p) e).count y = order.count y := by
      intro y hy
      have hxy := List.mem_of_mem_filter hy
      have hless := lt_of_mem_operands hxy
      exact ih y (by omega) (List.ne_nil_of_mem hxy)
    rw [(g.perm_spelledOut (order.filter p) e).count_eq, List.count_append,
      count_flatMap_congr hreaders, h.count_roots hp hx]

theorem length_operands_le (g : ScalarGraph) (e : ScalarId) : (g.operands e).length ≤ 2 := by
  have hle := g.length_operandNumbersReversed_le e.index
  rwa [operandNumbersReversed, List.length_reverse, operandNumbers, List.length_map] at hle

/-- No node has more than two operands, and only operations have any. -/
theorem length_flatMap_openOperands_le (bound nodes : List ScalarId) :
    (nodes.flatMap (g.openOperands bound)).length
      ≤ 2 * nodes.countP fun x => g.operands x ≠ [] := by
  induction nodes with
  | nil => rfl
  | cons x rest ih =>
    have hopen : (g.openOperands bound x).length ≤ (g.operands x).length := List.length_filter_le ..
    have htwo := g.length_operands_le x
    rw [List.flatMap_cons, List.length_append, List.countP_cons]
    split
    · omega
    · rename_i hnone
      have hempty : g.operands x = [] := by simpa using hnone
      rw [hempty, List.length_nil] at hopen
      omega

theorem ListsBelow.countP_operations (h : g.ListsBelow e order) :
    order.countP (fun x => g.operands x ≠ [])
      = {x | g.operands x ≠ [] ∧ Reaches g.operandNumbers e.index x.index}.ncard := by
  have hset : {x | g.operands x ≠ [] ∧ Reaches g.operandNumbers e.index x.index}
      = ((order.filter fun x => g.operands x ≠ []).toFinset : Set ScalarId) := by
    ext x
    simp [h.mem_iff, and_comm]
  rw [hset, Set.ncard_coe_finset, List.toFinset_card_of_nodup (h.nodup.filter _),
    List.countP_eq_length_filter]

/-- As many operations are spelled out as are listed. -/
theorem ListsBelow.countP_spelledOut (h : g.ListsBelow e order)
    (hp : ∀ x, p x = true ↔ x ≠ e ∧ g.operands x ≠ [] ∧ g.ReadTwice e x) :
    (g.spelledOut (order.filter p) e).countP (fun x => g.operands x ≠ [])
      = order.countP fun x => g.operands x ≠ [] := by
  rw [List.countP_eq_length_filter, List.countP_eq_length_filter]
  refine (List.perm_iff_count.mpr fun x => ?_).length_eq
  by_cases hx : g.operands x ≠ []
  · have hsame : ∀ l : List ScalarId,
        (l.filter fun x => g.operands x ≠ []).count x = l.count x := fun l =>
      List.count_filter (p := fun x => decide (g.operands x ≠ [])) (decide_eq_true hx)
    rw [hsame, hsame, h.count_spelledOut hp hx]
  · have hno : ∀ l : List ScalarId, x ∉ l.filter fun x => g.operands x ≠ [] := fun l hmem =>
      hx (of_decide_eq_true (List.mem_filter.mp hmem).2)
    rw [List.count_eq_zero.mpr (hno _), List.count_eq_zero.mpr (hno _)]

/-- At most three nodes are spelled out for each operation, and one more. -/
theorem ListsBelow.length_spelledOut_le (h : g.ListsBelow e order)
    (hp : ∀ x, p x = true ↔ x ≠ e ∧ g.operands x ≠ [] ∧ g.ReadTwice e x) :
    (g.spelledOut (order.filter p) e).length
      ≤ 3 * {x | g.operands x ≠ [] ∧ Reaches g.operandNumbers e.index x.index}.ncard + 1 := by
  have hbound : (order.filter p).length ≤ order.countP fun x => g.operands x ≠ [] := by
    rw [← List.countP_eq_length_filter]
    exact List.countP_mono_left fun x _ hx => decide_eq_true ((hp x).mp hx).2.1
  have hopen := length_flatMap_openOperands_le (g := g) (order.filter p)
    (g.spelledOut (order.filter p) e)
  rw [h.countP_spelledOut hp] at hopen
  rw [(g.perm_spelledOut (order.filter p) e).length_eq, List.length_append, List.length_append,
    List.length_singleton, ← h.countP_operations]
  omega

/-! ### Printed expressions -/

/-- The texts of bound nodes, and after them that of an expression. -/
def printed (g : ScalarGraph) (bound : List ScalarId) (e : ScalarId) : Printed where
  bindings := bound.map fun x => (g.spell bound x).text
  last := (g.spell bound e).text

/-- What is printed when the nodes in `bound` are bound says what the expression is. -/
structure Prints (g : ScalarGraph) (bound : List ScalarId) (e : ScalarId) : Prop where
  /-- Bound are operations that are read from two operand positions, each one once. -/
  nodup : bound.Nodup
  mem_bound_iff : ∀ x, x ∈ bound ↔ x ≠ e ∧ g.operands x ≠ [] ∧ g.ReadTwice e x
  /-- Names stand after the bindings of these names. -/
  references_bindings : ∀ (k : Nat) (s : String), (g.printed bound e).bindings[k]? = some s →
    ∀ n ∈ references s.toList, 1 ≤ n ∧ n ≤ k
  references_last : ∀ n ∈ references (g.printed bound e).last.toList, 1 ≤ n ∧ n ≤ bound.length
  /-- Replacing the names, the last one first, spells out everything. -/
  expand : expand (g.printed bound e).bindings (g.printed bound e).last = g.plain e
  /-- Each operation is spelled out once, and nothing else than what the expression reaches. -/
  spelled_once : ∀ x, g.operands x ≠ [] → Reaches g.operandNumbers e.index x.index →
    (g.spelledOut bound e).count x = 1
  spelled : ∀ x ∈ g.spelledOut bound e, Reaches g.operandNumbers e.index x.index
  /-- So there are at most three nodes for each operation, and one more. -/
  length_spelled : (g.spelledOut bound e).length
    ≤ 3 * {x | g.operands x ≠ [] ∧ Reaches g.operandNumbers e.index x.index}.ncard + 1

theorem ListsBelow.prints (h : g.ListsBelow e order)
    (hp : ∀ x, p x = true ↔ x ≠ e ∧ g.operands x ≠ [] ∧ g.ReadTwice e x)
    (hnames : ∀ name ∈ g.names, '@' ∉ name.toList) : g.Prints (order.filter p) e where
  nodup := h.nodup.filter p
  mem_bound_iff x := by
    rw [List.mem_filter, hp]
    exact and_iff_right_of_imp fun hx => (h.mem_iff x).mpr hx.2.2.reaches
  references_bindings := by
    intro k s hs n hn
    rw [printed, List.getElem?_map] at hs
    obtain ⟨y, hy, rfl⟩ := Option.map_eq_some_iff.mp hs
    obtain ⟨j, x, hj, rfl, hbelow⟩ := of_mem_references_spell hnames hn
    exact ⟨Nat.succ_pos j, (h.boundInOrder p).lt_of_below hj hy hbelow⟩
  references_last := by
    intro n hn
    obtain ⟨j, x, hj, rfl, -⟩ := of_mem_references_spell hnames hn
    exact ⟨Nat.succ_pos j, (List.getElem?_eq_some_iff.mp hj).1⟩
  expand := (h.boundInOrder p).expand_spell hnames e
  spelled_once x hx hreaches := by
    rw [h.count_spelledOut hp hx]
    exact List.count_eq_one_of_mem h.nodup ((h.mem_iff x).mpr hreaches)
  spelled x hx := (h.mem_iff x).mp (h.mem_of_mem_spelledOut hx)
  length_spelled := h.length_spelledOut_le hp

/-- What the fold over the order of the walk leaves is what is printed. -/
theorem ListsBelow.text_eq (h : g.ListsBelow e order) (hp : p e = false) {d : Draft}
    (hd : order.foldl (fun (d : Draft) x => d.add x (g.nodeText d.textOf x) (p x)) {} = d) :
    d.bindings ++ d.textOf e = (g.printed (order.filter p) e).text := by
  have hstart : Draft.Holds {} g (order.filter p) p [] := ⟨by simp, rfl, rfl⟩
  have hdraft := h.holds_foldl (List.nil_append order).symm hstart
  have hno : e ∉ order.filter p := fun hmem =>
    Bool.false_ne_true (hp.symm.trans (List.mem_filter.mp hmem).2)
  rw [hd] at hdraft
  rw [hdraft.bindings, hdraft.texts e h.mem, operandSpelling_of_notMem hno]
  rfl

/-- **Printing is faithful.** Where no symbol has `@` in its name, the text of an expression is made of
bindings that are numbered without gaps and of a last text, and these say what the expression is. -/
theorem exists_prints (g : ScalarGraph) (hnames : ∀ name ∈ g.names, '@' ∉ name.toList)
    (he : g.Has e) : ∃ bound, g.text e = .ok (g.printed bound e).text ∧ g.Prints bound e := by
  have hlists := listsBelow_textOrder he
  have hshared := hlists.isShared_iff
  have hroot : g.isShared (.ofRepeated ((g.textOrder e).flatMap fun y => g.operandNumbers y.index)) e e
      = false := by simp [isShared]
  obtain ⟨node, hnode⟩ := he
  refine ⟨_, ?_, hlists.prints hshared hnames⟩
  rw [text, hnode]
  exact congrArg Except.ok (hlists.text_eq hroot rfl)

end ScalarGraph

/-! ### A shared operation -/

namespace SharedSine

/-- The square of a sine, and the sine added to it. -/
def graph : ScalarGraph :=
  (ScalarBuilder.binary .add ⟨5⟩ ⟨4⟩).after <| (ScalarBuilder.binary .mul ⟨4⟩ ⟨4⟩).after <|
    (ScalarBuilder.unary .sin ⟨3⟩).after ((ScalarGraph.new (.numbered 0)).symbol "x").2

/-- The sine is read three times, and written once. -/
theorem exists_prints_sine :
    graph.text ⟨6⟩ = .ok "@1=sin(x), ((@1 * @1) + @1)" ∧
      ∃ bound, graph.text ⟨6⟩ = .ok (graph.printed bound ⟨6⟩).text ∧ graph.Prints bound ⟨6⟩ :=
  ⟨by rfl, ScalarGraph.exists_prints graph (by decide) ⟨_, rfl⟩⟩

end SharedSine

end Fluxion
