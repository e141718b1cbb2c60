import Fluxion.Expression.MatrixBuilder
import Fluxion.Proofs.History.Family
import Mathlib.Data.List.Infix

/-!
# Types of matrix expressions

The type of a matrix expression is its pattern. It is kept beside the node, and every reader trusts
it: values are read by number without a look at bounds. So each kind of node has a typing rule, which
says what the patterns of the operands are and that numbers in maps are in range.

A node determines its pattern, so a node that is there already may be returned in place of a new one.
Rules only look at operands, which stay what they are when the graph grows.

## Main definitions

* `MatrixGraph.Grows` — entries, names, folds and derivative functions are only added
* `MatrixNode.Typed` — the typing rules
* `MatrixGraph.WellTyped` — every entry follows its rule, and no node is there twice

## Main results

* `MatrixNode.Typed.unique` — a node has one pattern
* `MatrixGraph.wellTyped_intern` — **interning a typed node keeps graphs well typed**
-/

namespace Fluxion

/-! ### Growth -/

namespace MatrixGraph

variable {g h k : MatrixGraph} {a e : MatrixId} {n : MatrixNode} {p q : Pattern}

/-- `h` has come from `g` by adding entries, names, folds and derivative functions. -/
structure Grows (g h : MatrixGraph) : Prop where
  lineage : h.lineage = g.lineage
  entry : ∀ {i : Nat} {k : MatrixEntry}, g.entries.items[i]? = some k → h.entries.items[i]? = some k
  names : ∀ {i : Nat} {name : String}, g.names[i]? = some name → h.names[i]? = some name
  folds : g.folds <:+ h.folds
  derived : g.derived <:+ h.derived

theorem index_lt_of_entry {k : MatrixEntry} {i : Nat} (hi : g.entries.items[i]? = some k) :
    i < g.size :=
  (Array.getElem?_eq_some_iff.mp hi).1

namespace Grows

theorem refl (g : MatrixGraph) : Grows g g :=
  ⟨rfl, id, id, List.suffix_rfl, List.suffix_rfl⟩

theorem trans (hgh : Grows g h) (hhk : Grows h k) : Grows g k :=
  ⟨hhk.lineage.trans hgh.lineage, fun hn => hhk.entry (hgh.entry hn),
    fun hn => hhk.names (hgh.names hn), hgh.folds.trans hhk.folds, hgh.derived.trans hhk.derived⟩

theorem node? (hgrow : Grows g h) (hn : g.node? e = some n) : h.node? e = some n := by
  obtain ⟨k, hk, rfl⟩ := Option.map_eq_some_iff.mp hn
  exact Option.map_eq_some_iff.mpr ⟨k, hgrow.entry hk, rfl⟩

theorem pattern? (hgrow : Grows g h) (hp : g.pattern? e = some p) : h.pattern? e = some p := by
  obtain ⟨k, hk, rfl⟩ := Option.map_eq_some_iff.mp hp
  exact Option.map_eq_some_iff.mpr ⟨k, hgrow.entry hk, rfl⟩

theorem size_le (hgrow : Grows g h) : g.size ≤ h.size := by
  by_contra hlt
  have hsize : h.size < g.entries.items.size := Nat.lt_of_not_le hlt
  have hi := hgrow.entry (Array.getElem?_eq_getElem hsize)
  exact absurd (index_lt_of_entry hi) (Nat.lt_irrefl _)

theorem size_names_le (hgrow : Grows g h) : g.names.size ≤ h.names.size := by
  by_contra hlt
  have hi := hgrow.names (Array.getElem?_eq_getElem (Nat.lt_of_not_le hlt))
  exact absurd (Array.getElem?_eq_some_iff.mp hi).1 (Nat.lt_irrefl _)

end Grows

/-- Matrix graphs by their entries. -/
def arena : Arena MatrixGraph (Option MatrixEntry) :=
  ⟨(·.lineage), (·.size), fun g i => g.entries.items[i]?⟩

theorem Grows.arena (hgrow : Grows g h) : arena.Grows g h := by
  refine ⟨hgrow.lineage, hgrow.size_le, fun i hi => ?_⟩
  have hsize : i < g.entries.items.size := hi
  show g.entries.items[i]? = h.entries.items[i]?
  rw [Array.getElem?_eq_getElem hsize, hgrow.entry (Array.getElem?_eq_getElem hsize)]

theorem node?_eq_some_iff :
    g.node? e = some n ↔ ∃ p, g.entries.items[e.index]? = some ⟨n, p⟩ := by
  rw [node?, Option.map_eq_some_iff]
  constructor
  · rintro ⟨⟨n, p⟩, hk, rfl⟩
    exact ⟨p, hk⟩
  · rintro ⟨p, hk⟩
    exact ⟨_, hk, rfl⟩

theorem index_lt_of_node? (hn : g.node? e = some n) : e.index < g.size := by
  obtain ⟨p, hk⟩ := node?_eq_some_iff.mp hn
  exact index_lt_of_entry hk

theorem index_lt_of_pattern? (hp : g.pattern? e = some p) : e.index < g.size := by
  obtain ⟨k, hk, -⟩ := Option.map_eq_some_iff.mp hp
  exact index_lt_of_entry hk

theorem exists_node?_of_pattern? (hp : g.pattern? e = some p) : ∃ n, g.node? e = some n := by
  obtain ⟨k, hk, -⟩ := Option.map_eq_some_iff.mp hp
  exact ⟨k.node, Option.map_eq_some_iff.mpr ⟨k, hk, rfl⟩⟩

theorem grows_push (k : MatrixEntry) (hk : ∀ a ∈ k.node.operands, a.index < g.entries.size) :
    Grows g (g.push k hk) := by
  refine ⟨rfl, ?_, id, List.suffix_rfl, List.suffix_rfl⟩
  intro i j hj
  have hlt := index_lt_of_entry hj
  change (g.entries.items.push k)[i]? = some j
  rw [Array.getElem?_push_lt hlt]
  exact (Array.getElem?_eq_getElem hlt).symm.trans hj

theorem grows_names (g : MatrixGraph) (name : String) :
    Grows g { g with names := g.names.push name } := by
  refine ⟨rfl, id, ?_, List.suffix_rfl, List.suffix_rfl⟩
  intro i s hs
  obtain ⟨hi, -⟩ := Array.getElem?_eq_some_iff.mp hs
  exact (Array.getElem?_push_lt hi).trans (Array.getElem?_eq_getElem hi ▸ hs)

/-! ### Typing rules -/

/-- An operand of an elementwise operation on `p`: it is on `p`, or it is a single stored element that
is repeated. -/
def Fits (g : MatrixGraph) (p : Pattern) (a : MatrixId) : Prop :=
  g.pattern? a = some p ∨ g.pattern? a = some .scalar

/-- The map reads nonzeros that the arguments have. -/
def Reaches (g : MatrixGraph) (arguments : List MatrixId) (map : GatherMap) : Prop :=
  ∀ i k, some (i, k) ∈ map →
    ∃ a p, arguments[i]? = some a ∧ g.pattern? a = some p ∧ k < p.nnz

/-- What a gather on `p` has: a map with an entry for each nonzero, and arguments that are all read
and different from each other. -/
structure Gathers (g : MatrixGraph) (arguments : List MatrixId) (map : GatherMap) (p : Pattern) :
    Prop where
  length : map.length = p.nnz
  reaches : g.Reaches arguments map
  nodup : arguments.Nodup
  used : ∀ i < arguments.length, ∃ k, some (i, k) ∈ map

theorem Reaches.grow {arguments : List MatrixId} {map : GatherMap} (hmap : g.Reaches arguments map)
    (hpatterns : ∀ {a p}, g.pattern? a = some p → h.pattern? a = some p) :
    h.Reaches arguments map := by
  intro i k hik
  obtain ⟨a, p, ha, hp, hk⟩ := hmap i k hik
  exact ⟨a, p, ha, hpatterns hp, hk⟩

end MatrixGraph

namespace MatrixNode

variable {g h : MatrixGraph} {n : MatrixNode} {p q : Pattern}

/-- The typing rules: the pattern of a node by the patterns of its operands. -/
inductive Typed (g : MatrixGraph) : MatrixNode → Pattern → Prop
  | symbol {serial p} : serial < g.names.size → Typed g (.symbol serial p) p
  | constant (m) : Typed g (.constant m) m.pattern
  | unary {op a p} : g.pattern? a = some p → (op.keepsZero = false → p.isDense = true) →
      Typed g (.unary op a) p
  | binary {op a b p} : g.Fits p a → g.Fits p b → g.pattern? a = some p ∨ g.pattern? b = some p →
      Typed g (.binary op a b) p
  | product {a b p q} : g.pattern? a = some p → g.pattern? b = some q → p.ncols = q.nrows →
      Typed g (.product a b) (p.product q)
  | gather {arguments map p} : g.Gathers arguments map p → Typed g (.gather arguments map p) p
  | scatter {a map p q} : g.pattern? a = some q → map.length = q.nnz →
      (∀ k, some k ∈ map → k < p.nnz) → Typed g (.scatter a map p) p
  | call {r arguments o p} : arguments.map g.pattern? = r.inPatterns.map some →
      r.outPatterns[o]? = some p → Typed g (.call r arguments o) p
  | lift {value guess p} : g.pattern? value = some p → g.pattern? guess = some p →
      Typed g (.lift value guess) p

theorem map_pattern?_grow {arguments : List MatrixId} {ps : List Pattern}
    (hpatterns : ∀ {a p}, g.pattern? a = some p → h.pattern? a = some p)
    (hps : arguments.map g.pattern? = ps.map some) : arguments.map h.pattern? = ps.map some := by
  induction arguments generalizing ps with
  | nil => simpa using hps
  | cons a rest ih =>
    cases ps with
    | nil => simp at hps
    | cons p ps =>
      simp only [List.map_cons, List.cons.injEq] at hps ⊢
      exact ⟨hpatterns hps.1, ih hps.2⟩

/-- The rules look at the patterns of operands, and at the number of names. -/
theorem Typed.imp (hn : n.Typed g p)
    (hpatterns : ∀ {a p}, g.pattern? a = some p → h.pattern? a = some p)
    (hnames : g.names.size ≤ h.names.size) : n.Typed h p := by
  cases hn with
  | symbol hserial => exact .symbol (Nat.lt_of_lt_of_le hserial hnames)
  | constant m => exact .constant m
  | unary ha hdense => exact .unary (hpatterns ha) hdense
  | binary ha hb hab =>
    exact .binary (ha.imp hpatterns hpatterns) (hb.imp hpatterns hpatterns)
      (hab.imp hpatterns hpatterns)
  | product ha hb hinner => exact .product (hpatterns ha) (hpatterns hb) hinner
  | gather hmap => exact .gather ⟨hmap.length, hmap.reaches.grow hpatterns, hmap.nodup, hmap.used⟩
  | scatter ha hlength htargets => exact .scatter (hpatterns ha) hlength htargets
  | call hps ho => exact .call (map_pattern?_grow hpatterns hps) ho
  | lift hvalue hguess => exact .lift (hpatterns hvalue) (hpatterns hguess)

theorem Typed.grow (hn : n.Typed g p) (hgrow : g.Grows h) : n.Typed h p :=
  hn.imp hgrow.pattern? hgrow.size_names_le

/-- A node has one pattern. -/
theorem Typed.unique (hp : n.Typed g p) (hq : n.Typed g q) : p = q := by
  cases hp with
  | symbol _ => cases hq; rfl
  | constant m => cases hq; rfl
  | unary ha _ =>
    cases hq with
    | unary ha' _ => exact Option.some.inj (ha.symm.trans ha')
  | binary ha hb hab =>
    cases hq with
    | binary ha' hb' hab' =>
      simp only [MatrixGraph.Fits] at ha hb ha' hb'
      grind
  | product ha hb _ =>
    cases hq with
    | product ha' hb' _ =>
      rw [Option.some.inj (ha.symm.trans ha'), Option.some.inj (hb.symm.trans hb')]
  | gather _ => cases hq; rfl
  | scatter _ _ _ => cases hq; rfl
  | call _ ho =>
    cases hq with
    | call _ ho' => exact Option.some.inj (ho.symm.trans ho')
  | lift hvalue _ =>
    cases hq with
    | lift hvalue' _ => exact Option.some.inj (hvalue.symm.trans hvalue')

/-- The operands of a typed node are there. -/
theorem Typed.operands_lt (hn : n.Typed g p) : ∀ a ∈ n.operands, a.index < g.size := by
  cases hn with
  | symbol _ => simp [operands]
  | constant m => simp [operands]
  | unary ha _ => simpa [operands] using MatrixGraph.index_lt_of_pattern? ha
  | binary ha hb _ =>
    have hlt : ∀ {a}, g.Fits p a → a.index < g.size := fun ha =>
      ha.elim MatrixGraph.index_lt_of_pattern? MatrixGraph.index_lt_of_pattern?
    simpa [operands] using ⟨hlt ha, hlt hb⟩
  | product ha hb _ =>
    simpa [operands] using
      ⟨MatrixGraph.index_lt_of_pattern? ha, MatrixGraph.index_lt_of_pattern? hb⟩
  | gather hmap =>
    intro a ha
    obtain ⟨i, hi, rfl⟩ := List.mem_iff_getElem.mp ha
    obtain ⟨k, hk⟩ := hmap.used i hi
    obtain ⟨b, q, hb, hq, -⟩ := hmap.reaches i k hk
    obtain rfl := Option.some.inj ((List.getElem?_eq_getElem hi).symm.trans hb)
    exact MatrixGraph.index_lt_of_pattern? hq
  | scatter ha _ _ => simpa [operands] using MatrixGraph.index_lt_of_pattern? ha
  | @call r arguments o p hps _ =>
    intro a ha
    have hmem : g.pattern? a ∈ r.inPatterns.map some := hps ▸ List.mem_map_of_mem ha
    obtain ⟨q, -, hq⟩ := List.mem_map.mp hmem
    exact MatrixGraph.index_lt_of_pattern? hq.symm
  | lift hvalue hguess =>
    simpa [operands] using
      ⟨MatrixGraph.index_lt_of_pattern? hvalue, MatrixGraph.index_lt_of_pattern? hguess⟩

end MatrixNode

/-! ### Well-typed graphs -/

namespace MatrixGraph

variable {g h : MatrixGraph} {e : MatrixId} {n : MatrixNode} {p : Pattern}

/-- Operands come before their readers, every node follows the rule for its pattern, and no node has
two handles. -/
structure WellTyped (g : MatrixGraph) : Prop where
  before : ∀ e n, g.node? e = some n → ∀ a ∈ n.operands, a.index < e.index
  typed : ∀ e n p, g.node? e = some n → g.pattern? e = some p → n.Typed g p
  distinct : ∀ e e' n, g.node? e = some n → g.node? e' = some n → e = e'

/-- A node of the graph is on a pattern that follows its rule. -/
theorem WellTyped.exists_typed (hg : g.WellTyped) {n : MatrixNode} (hn : g.node? e = some n) :
    ∃ p, g.pattern? e = some p ∧ n.Typed g p := by
  obtain ⟨p, hk⟩ := node?_eq_some_iff.mp hn
  have hp : g.pattern? e = some p := by rw [pattern?, hk]; rfl
  exact ⟨p, hp, hg.typed e n p hn hp⟩

theorem operands_before (g : MatrixGraph) (hn : g.node? e = some n) :
    ∀ a ∈ n.operands, a.index < e.index := by
  obtain ⟨p, hk⟩ := node?_eq_some_iff.mp hn
  exact g.ordered e.index ⟨n, p⟩ hk

theorem wellTyped_new (id : GraphId) : (new id).WellTyped := by
  have hnone : ∀ e, (new id).node? e = none := fun e => rfl
  exact ⟨fun e n hn => by simp [hnone] at hn, fun e n p hn => by simp [hnone] at hn,
    fun e e' n hn => by simp [hnone] at hn⟩

/-- Only the entries and the number of names matter. -/
theorem WellTyped.of_entries (hg : g.WellTyped) (hgrow : Grows g h)
    (hentries : h.entries = g.entries) : h.WellTyped := by
  have hnode : ∀ e, h.node? e = g.node? e := fun e => by rw [node?, node?, hentries]
  have hpattern : ∀ e, h.pattern? e = g.pattern? e := fun e => by
    rw [pattern?, pattern?, hentries]
  refine ⟨fun e n => h.operands_before, fun e n p hn hp => ?_, fun e e' n hn hn' => ?_⟩
  · rw [hnode] at hn
    rw [hpattern] at hp
    exact (hg.typed e n p hn hp).grow hgrow
  · rw [hnode] at hn hn'
    exact hg.distinct e e' n hn hn'

theorem WellTyped.fork (hg : g.WellTyped) (id : GraphId) : (g.fork id).WellTyped :=
  ⟨fun _ _ => operands_before _, fun e n p hn hp => (hg.typed e n p hn hp).imp (fun h => h) le_rfl,
    hg.distinct⟩

theorem entry_push {k : MatrixEntry} (hk : ∀ a ∈ k.node.operands, a.index < g.entries.size)
    (i : Nat) :
    (g.push k hk).entries.items[i]? = if i = g.size then some k else g.entries.items[i]? :=
  Array.getElem?_push

/-- A typed node that is new keeps the graph well typed. -/
theorem WellTyped.push (hg : g.WellTyped) (hn : n.Typed g p)
    (hnew : ∀ e, g.node? e ≠ some n) (hk : ∀ a ∈ n.operands, a.index < g.entries.size) :
    (g.push ⟨n, p⟩ hk).WellTyped := by
  have hgrow : Grows g (g.push ⟨n, p⟩ hk) := grows_push _ hk
  have hentry : ∀ e m, (g.push ⟨n, p⟩ hk).node? e = some m →
      (e.index = g.size ∧ m = n) ∨ g.node? e = some m := by
    intro e m hm
    rw [node?, entry_push] at hm
    split at hm
    · rename_i he
      exact .inl ⟨he, (Option.some.inj hm).symm⟩
    · exact .inr hm
  refine ⟨fun e m => operands_before _, fun e m q hm hq => ?_, fun e e' m hm hm' => ?_⟩
  · rw [node?, entry_push] at hm
    rw [pattern?, entry_push] at hq
    split at hm
    · rename_i he
      rw [if_pos he] at hq
      obtain rfl := Option.some.inj hm
      obtain rfl := Option.some.inj hq
      exact hn.grow hgrow
    · rename_i he
      rw [if_neg he] at hq
      exact (hg.typed e m q hm hq).grow hgrow
  · rcases hentry e m hm with ⟨he, rfl⟩ | hold
    · rcases hentry e' m hm' with ⟨he', -⟩ | hold'
      · cases e; cases e'
        exact congrArg MatrixId.mk (he.trans he'.symm)
      · exact absurd hold' (hnew e')
    · rcases hentry e' m hm' with ⟨-, rfl⟩ | hold'
      · exact absurd hold (hnew e)
      · exact hg.distinct e e' m hold hold'

/-- What interning a typed node leaves: a well-typed graph in which the handle is that of the node, on
the pattern. A handle that is not new was there. -/
theorem wellTyped_intern (hg : g.WellTyped) (hn : n.Typed g p)
    (hk : ∀ a ∈ n.operands, a.index < g.entries.size) :
    Grows g (g.intern ⟨n, p⟩ hk).2 ∧ (g.intern ⟨n, p⟩ hk).2.WellTyped ∧
      (g.intern ⟨n, p⟩ hk).2.node? (g.intern ⟨n, p⟩ hk).1 = some n ∧
      (g.intern ⟨n, p⟩ hk).2.pattern? (g.intern ⟨n, p⟩ hk).1 = some p := by
  rw [intern]
  split
  · rename_i i hi
    obtain ⟨⟨m, q⟩, hm, htest⟩ := Pool.exists_of_search?_eq_some hi
    obtain rfl : m = n := by simpa using htest
    have hnode : g.node? ⟨i⟩ = some m := node?_eq_some_iff.mpr ⟨q, hm⟩
    have hpattern : g.pattern? ⟨i⟩ = some q := Option.map_eq_some_iff.mpr ⟨_, hm, rfl⟩
    have hqp := (hg.typed _ _ _ hnode hpattern).unique hn
    exact ⟨.refl g, hg, hnode, hqp ▸ hpattern⟩
  · rename_i hnone
    have hnew : ∀ e, g.node? e ≠ some n := by
      intro e he
      obtain ⟨q, hq⟩ := node?_eq_some_iff.mp he
      simpa using Pool.eq_false_of_search?_eq_none hnone hq rfl
    refine ⟨grows_push _ hk, hg.push hn hnew hk, ?_, ?_⟩
    · show Option.map _ (g.push ⟨n, p⟩ hk).entries.items[g.size]? = _
      rw [entry_push, if_pos rfl]
      rfl
    · show Option.map _ (g.push ⟨n, p⟩ hk).entries.items[g.size]? = _
      rw [entry_push, if_pos rfl]
      rfl

end MatrixGraph

end Fluxion
