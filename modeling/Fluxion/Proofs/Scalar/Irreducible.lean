import Fluxion.Proofs.Scalar.Requests

/-!
# Scalar graphs are interned and irreducible

A scalar graph holds no node twice, and none that its builders would have left out: no operation on
literals alone, no negative of a negative, nothing that a shortcut covers. Builders decide by looking
at operands, which are never changed, so what a node was when it was added it still is at any later
time. Each of the four builders keeps this, and so every request does.

## Main definitions

* `ScalarGraph.find?` — the handle of a node, by the shelves
* `ScalarGraph.Needed` — a node that a builder would add
* `ScalarGraph.Irreducible` — the invariant

## Main results

* `ScalarGraph.isSymbol_of_assembled` — requests that name nothing add no symbols
* `ScalarGraph.Irreducible.after` — every request keeps graphs irreducible
* `ScalarGraph.Reachable.irreducible` — **every graph is irreducible, and requests only append**
-/

namespace Fluxion

namespace ScalarGraph

/-- The handle of a node, if the graph has it. Only one shelf is searched. -/
def find? (g : ScalarGraph) (n : ScalarNode) : Option ScalarId :=
  (g.nodes.search? n.shelf (· = n)).map ScalarId.mk

/-- The handle is a literal. -/
def IsLiteral (g : ScalarGraph) (e : ScalarId) : Prop := ∃ v, g.node? e = some (.literal v)

/-- A node that a builder adds rather than folds, leaves out or names by another one. -/
def Needed (g : ScalarGraph) : ScalarNode → Prop
  | .symbol serial => ∃ name, g.names[serial]? = some name
  | .literal _ => True
  | .unary op a => ¬ g.IsLiteral a ∧ (op = .neg → ∀ b, g.node? a ≠ some (.unary .neg b))
  | .binary op a b => ¬ (g.IsLiteral a ∧ g.IsLiteral b) ∧ shortcut op a b = none

/-- The graph holds every node once, after its operands, and only nodes that are needed. -/
structure Irreducible (g : ScalarGraph) : Prop where
  /-- Nodes 0, 1 and 2 are the literals 0, 1 and 2. -/
  founded : g.Founded
  /-- No two handles have equal nodes. -/
  distinct : ∀ d e n, g.node? d = some n → g.node? e = some n → d = e
  /-- What is found on the shelves is the inverse of the list of nodes. -/
  find?_iff : ∀ n e, g.find? n = some e ↔ g.node? e = some n
  /-- Operands come before their readers. -/
  before : ∀ e n, g.node? e = some n → ∀ a ∈ n.operands, a.index < e.index
  /-- Symbols have serials of their own. -/
  serials : ∀ d e s, g.node? d = some (.symbol s) → g.node? e = some (.symbol s) → d = e
  /-- Symbols have names, and operations are neither folded nor left out. -/
  needed : ∀ e n, g.node? e = some n → g.Needed n

variable {g h : ScalarGraph} {e : ScalarId} {n : ScalarNode}

/-! ### Searching -/

theorem node?_of_find? (hfound : g.find? n = some e) : g.node? e = some n := by
  obtain ⟨i, hi, rfl⟩ := Option.map_eq_some_iff.mp hfound
  obtain ⟨m, hm, htest⟩ := Pool.exists_of_search?_eq_some hi
  obtain rfl : m = n := by simpa using htest
  exact hm

theorem find?_isSome (hn : g.node? e = some n) : ∃ d, g.find? n = some d := by
  cases hsearch : g.nodes.search? n.shelf (· = n) with
  | some i => exact ⟨⟨i⟩, by rw [find?, hsearch]; rfl⟩
  | none => simpa using Pool.eq_false_of_search?_eq_none hsearch hn rfl

/-- In a graph without repetition the shelves are the inverse of the list of nodes. -/
theorem find?_eq_some_iff (hdistinct : ∀ d e n, g.node? d = some n → g.node? e = some n → d = e) :
    g.find? n = some e ↔ g.node? e = some n := by
  refine ⟨node?_of_find?, fun hn => ?_⟩
  obtain ⟨d, hd⟩ := find?_isSome hn
  rw [hd, hdistinct d e n (node?_of_find? hd) hn]

/-- It is enough that no node is there twice and all are needed. -/
theorem irreducible_of (hfounded : g.Founded)
    (hdistinct : ∀ d e n, g.node? d = some n → g.node? e = some n → d = e)
    (hneeded : ∀ e n, g.node? e = some n → g.Needed n) : g.Irreducible where
  founded := hfounded
  distinct := hdistinct
  find?_iff _ _ := find?_eq_some_iff hdistinct
  before _ _ hn _ ha := index_lt_of_mem_operands hn ha
  serials d e _ := hdistinct d e _
  needed := hneeded

/-! ### Growth -/

/-- What a node was when it was added it still is. -/
theorem Needed.grow (hn : g.Needed n) (hhas : ∀ a ∈ n.operands, g.Has a) (hgrow : g.Grows h) :
    h.Needed n := by
  have hback : ∀ a ∈ n.operands, ∀ m, h.node? a = some m → g.node? a = some m := by
    intro a ha m hm
    obtain ⟨k, hk⟩ := hhas a ha
    rw [hk, ← hm, hgrow.node? hk]
  cases n with
  | symbol serial =>
    obtain ⟨name, hname⟩ := hn
    exact ⟨name, hgrow.names hname⟩
  | literal _ => trivial
  | unary op a =>
    have ha := hback a (List.mem_singleton_self a)
    refine ⟨?_, fun hop b hb => hn.2 hop b (ha _ hb)⟩
    rintro ⟨v, hv⟩
    exact hn.1 ⟨v, ha _ hv⟩
  | binary op a b =>
    have ha := hback a (by simp [ScalarNode.operands])
    have hb := hback b (by simp [ScalarNode.operands])
    refine ⟨?_, hn.2⟩
    rintro ⟨⟨v, hv⟩, w, hw⟩
    exact hn.1 ⟨⟨v, ha _ hv⟩, w, hb _ hw⟩

theorem has_of_mem_operands (hn : g.node? e = some n) : ∀ a ∈ n.operands, g.Has a :=
  fun _ ha => has_of_index_lt (Nat.lt_trans (index_lt_of_mem_operands hn ha) (index_lt_of_node? hn))

theorem node?_push_cases (hk : ∀ a ∈ n.operands, a.index < g.nodes.size) {m : ScalarNode}
    (hm : (g.push n hk).node? e = some m) : (e = ⟨g.size⟩ ∧ m = n) ∨ g.node? e = some m := by
  change (g.nodes.items.push n)[e.index]? = some m at hm
  rw [Array.getElem?_push] at hm
  split at hm
  · rename_i he
    exact .inl ⟨congrArg ScalarId.mk he, (Option.some.inj hm).symm⟩
  · exact .inr hm

/-- A node that is needed and not there yet may be added. -/
theorem Irreducible.push (hg : g.Irreducible) (hk : ∀ a ∈ n.operands, a.index < g.nodes.size)
    (hnew : ∀ e, g.node? e ≠ some n) (hn : g.Needed n) : (g.push n hk).Irreducible := by
  have hgrow : g.Grows (g.push n hk) := grows_push n hk
  refine irreducible_of (hg.founded.grow hgrow) (fun d e m hd he => ?_) fun e m hm => ?_
  · rcases node?_push_cases hk hd with ⟨hdsize, hmd⟩ | hdold
    · rcases node?_push_cases hk he with ⟨hesize, -⟩ | heold
      · rw [hdsize, hesize]
      · exact absurd (hmd ▸ heold) (hnew e)
    · rcases node?_push_cases hk he with ⟨-, hme⟩ | heold
      · exact absurd (hme ▸ hdold) (hnew d)
      · exact hg.distinct d e m hdold heold
  · rcases node?_push_cases hk hm with ⟨-, rfl⟩ | hm
    · exact hn.grow (fun a ha => has_of_index_lt (hk a ha)) hgrow
    · exact (hg.needed e m hm).grow (has_of_mem_operands hm) hgrow

/-- A node that is needed may be interned. -/
theorem Irreducible.intern (hg : g.Irreducible) (hk : ∀ a ∈ n.operands, a.index < g.nodes.size)
    (hn : g.Needed n) : (g.intern n hk).2.Irreducible := by
  rw [ScalarGraph.intern]
  split
  · exact hg
  · rename_i hnone
    refine hg.push hk (fun e he => ?_) hn
    simpa using Pool.eq_false_of_search?_eq_none hnone he rfl

/-- Names and folds may be added at any time. -/
theorem Irreducible.of_nodes (hg : g.Irreducible) (hgrow : g.Grows h) (hnodes : h.nodes = g.nodes) :
    h.Irreducible := by
  have hnode : ∀ e, h.node? e = g.node? e := fun e => by rw [node?, node?, hnodes]
  refine irreducible_of (hg.founded.grow hgrow) (fun d e n hd he => ?_) fun e n hn => ?_
  · rw [hnode] at hd he
    exact hg.distinct d e n hd he
  · rw [hnode] at hn
    exact (hg.needed e n hn).grow (has_of_mem_operands hn) hgrow

theorem irreducible_new (id : GraphId) : (new id).Irreducible := by
  have hcases : ∀ e n, (new id).node? e = some n →
      (e = .zero ∧ n = .literal 0.0) ∨ (e = .one ∧ n = .literal 1.0) ∨
        (e = .two ∧ n = .literal 2.0) := by
    intro e n hn
    have hlt : e.index < 3 := index_lt_of_node? hn
    obtain ⟨i⟩ := e
    match i, hlt with
    | 0, _ => exact .inl ⟨rfl, (Option.some.inj hn).symm⟩
    | 1, _ => exact .inr (.inl ⟨rfl, (Option.some.inj hn).symm⟩)
    | 2, _ => exact .inr (.inr ⟨rfl, (Option.some.inj hn).symm⟩)
  have h01 : (0.0 : Binary64) ≠ 1.0 := by decide
  have h02 : (0.0 : Binary64) ≠ 2.0 := by decide
  have h12 : (1.0 : Binary64) ≠ 2.0 := by decide
  refine irreducible_of (founded_new id) (fun d e n hd he => ?_) fun e n hn => ?_
  · rcases hcases d n hd with ⟨rfl, rfl⟩ | ⟨rfl, rfl⟩ | ⟨rfl, rfl⟩ <;>
      rcases hcases e _ he with ⟨rfl, hn⟩ | ⟨rfl, hn⟩ | ⟨rfl, hn⟩ <;> simp_all
  · rcases hcases e n hn with ⟨-, rfl⟩ | ⟨-, rfl⟩ | ⟨-, rfl⟩ <;> trivial

theorem Irreducible.fork (hg : g.Irreducible) (id : GraphId) : (g.fork id).Irreducible :=
  ⟨⟨hg.founded.zero, hg.founded.one, hg.founded.two⟩, hg.distinct, hg.find?_iff, hg.before, hg.serials, hg.needed⟩

/-! ### Builders -/

theorem Irreducible.literal (hg : g.Irreducible) (v : Binary64) : (g.literal v).2.Irreducible :=
  hg.intern _ trivial

theorem Irreducible.folded (hg : g.Irreducible) (f : Fold) (v : Binary64) :
    (g.folded f v).2.Irreducible := by
  have hgrow : g.Grows { g with folds := f :: g.folds } :=
    ⟨rfl, id, id, List.suffix_cons f g.folds⟩
  exact (hg.of_nodes hgrow rfl).literal v

theorem Irreducible.symbol (hg : g.Irreducible) (name : String) : (g.symbol name).2.Irreducible := by
  have hnames : g.Grows { g with names := g.names.push name } := by
    refine ⟨rfl, id, fun {i s} hs => ?_, List.suffix_rfl⟩
    obtain ⟨hi, -⟩ := Array.getElem?_eq_some_iff.mp hs
    exact (Array.getElem?_push_lt hi).trans (Array.getElem?_eq_getElem hi ▸ hs)
  have hnone : ∀ a ∈ (ScalarNode.symbol g.names.size).operands, a.index < g.nodes.size := by
    simp [ScalarNode.operands]
  refine (hg.of_nodes hnames rfl).push hnone (fun e he => ?_) ⟨name, Array.getElem?_push_size⟩
  -- the serials of the symbols that are there are numbers of names
  obtain ⟨old, hold⟩ := hg.needed e _ he
  exact absurd (Array.getElem?_eq_some_iff.mp hold).1 (Nat.lt_irrefl _)

/-- What a builder of operations does: it fails, folds, finds that nothing is needed, or interns an
operation that is needed. -/
inductive Operates (g : ScalarGraph) : EStateM.Result Error ScalarGraph ScalarId → Prop
  | fails (e : Error) : Operates g (.error e g)
  | folds (f : Fold) (v : Binary64) : Operates g (.ok (g.folded f v).1 (g.folded f v).2)
  | spares (e : ScalarId) : Operates g (.ok e g)
  | interns (n : ScalarNode) (hk : ∀ a ∈ n.operands, a.index < g.nodes.size) : g.Needed n →
    n.isSymbol = false → Operates g (.ok (g.intern n hk).1 (g.intern n hk).2)

theorem operates_unary (g : ScalarGraph) (op : UnaryOp) (a : ScalarId) :
    g.Operates (ScalarBuilder.unary op a g) := by
  rw [ScalarBuilder.unary]
  split
  · exact .fails _
  · rename_i n hn
    split
    · exact .folds _ _
    · exact .spares _
    · rename_i hliteral hneg
      refine .interns _ _ ⟨?_, fun hop b hb => ?_⟩ rfl
      · rintro ⟨v, hv⟩
        exact hliteral v hv (Option.some.inj (hn.symm.trans hv)) (proof_irrel_heq _ _)
      · exact hneg b hb (Option.some.inj (hn.symm.trans hb)) hop (proof_irrel_heq _ _)

theorem operates_binary (g : ScalarGraph) (op : BinaryOp) (a b : ScalarId) :
    g.Operates (ScalarBuilder.binary op a b g) := by
  rw [ScalarBuilder.binary]
  split
  · rename_i na nb ha hb
    split
    · exact .folds _ _
    · rename_i hliterals
      split
      · exact .spares _
      · exact operates_unary g .neg _
      · rename_i hshortcut
        refine .interns _ _ ⟨?_, hshortcut⟩ rfl
        rintro ⟨⟨x, hx⟩, y, hy⟩
        refine hliterals x y ?_ ?_
        · rw [Option.some.inj (ha.symm.trans hx)]
          rfl
        · rw [Option.some.inj (hb.symm.trans hy)]
          rfl
  · exact .fails _

theorem Irreducible.operates {x : ScalarBuilder ScalarId} (hg : g.Irreducible)
    (hx : g.Operates (x g)) : (x.after g).Irreducible := by
  rw [ScalarBuilder.after]
  generalize x g = result at hx
  cases hx with
  | fails | spares => exact hg
  | folds f v => exact hg.folded f v
  | interns n hk hn _ => exact hg.intern hk hn

/-! ### Symbols -/

theorem isSymbol_intern (hk : ∀ a ∈ n.operands, a.index < g.nodes.size) (hn : n.isSymbol = false)
    (he : (g.intern n hk).2.isSymbol e = true) : g.isSymbol e = true := by
  rw [intern] at he
  split at he
  · exact he
  · rw [isSymbol, push, node?] at he
    simp only [Pool.push, Array.getElem?_push] at he
    split at he
    · exact absurd (hn.symm.trans he) Bool.false_ne_true
    · exact he

theorem Operates.isSymbol {x : ScalarBuilder ScalarId} (hx : g.Operates (x g))
    (he : (x.after g).isSymbol e = true) : g.isSymbol e = true := by
  rw [ScalarBuilder.after] at he
  generalize x g = result at hx he
  cases hx with
  | fails | spares => exact he
  | folds f v =>
    exact isSymbol_intern (g := { g with folds := f :: g.folds }) (n := .literal v)
      (by simp [ScalarNode.operands]) rfl he
  | interns n hk _ hn => exact isSymbol_intern hk hn he

/-- **Requests that name nothing add no symbols.** -/
theorem isSymbol_of_assembled {α : Type} {x : ScalarBuilder α}
    (hx : ScalarBuilder.Assembled False True x) (he : (x.after g).isSymbol e = true) :
    g.isSymbol e = true :=
  hx.relates (R := fun g h => ∀ e, h.isSymbol e = true → g.isSymbol e = true) (fun _ _ he => he)
    (fun hgh hhk e he => hgh e (hhk e he))
    (fun v _ _ he => isSymbol_intern (n := .literal v) (by simp [ScalarNode.operands]) rfl he)
    (fun hnaming => hnaming.elim) (fun op a g _ he => (g.operates_unary op a).isSymbol he)
    (fun op a b g _ he => (g.operates_binary op a b).isSymbol he) g e he

/-! ### Requests -/

/-- The graph has grown, and it is irreducible if it was. -/
structure Extends (g h : ScalarGraph) : Prop where
  grows : g.Grows h
  keeps : g.Irreducible → h.Irreducible

theorem extends_after (r : ScalarRequest) (g : ScalarGraph) : g.Extends (r.after g) :=
  r.assembled_run.relates (fun g => ⟨.refl g, id⟩)
    (fun hgh hhk => ⟨hgh.grows.trans hhk.grows, fun hg => hhk.keeps (hgh.keeps hg)⟩)
    (fun v _ => ⟨grows_intern _ _, fun hg => hg.literal v⟩)
    (fun _ name g => ⟨g.grows_symbol name, fun hg => hg.symbol name⟩)
    (fun op a g => ⟨ScalarBuilder.growing_unary op a g, fun hg => hg.operates (g.operates_unary op a)⟩)
    (fun op a b g =>
      ⟨ScalarBuilder.growing_binary op a b g, fun hg => hg.operates (g.operates_binary op a b)⟩) g

/-- **Every request keeps graphs irreducible.** -/
theorem Irreducible.after (hg : g.Irreducible) (r : ScalarRequest) : (r.after g).Irreducible :=
  (extends_after r g).keeps hg

theorem Grows.isPrefix (hgrow : g.Grows h) : g.nodes.items.toList <+: h.nodes.items.toList := by
  refine List.prefix_iff_getElem?.mpr fun i hi => ?_
  have hlt : i < g.nodes.items.size := hi
  rw [Array.getElem?_toList, Array.getElem_toList]
  exact hgrow.node? (e := ⟨i⟩) (Array.getElem?_eq_getElem hlt)

theorem Reachable.invariant (hg : g.Reachable) : g.Irreducible := by
  induction hg with
  | new id => exact irreducible_new id
  | fork id _ ih => exact ih.fork id
  | request r _ ih => exact ih.after r

/-- **Scalar graphs are interned and irreducible**, whatever has been done to get them. A copy has the
nodes of its original, and every request only appends to them. -/
theorem Reachable.irreducible (hg : g.Reachable) :
    g.Irreducible ∧ (∀ id, (g.fork id).nodes = g.nodes) ∧
      ∀ r : ScalarRequest, g.nodes.items.toList <+: (r.after g).nodes.items.toList :=
  ⟨hg.invariant, fun _ => rfl, fun r => (extends_after r g).grows.isPrefix⟩

end ScalarGraph

namespace ForkedSine

/-- The sine of a symbol, in a copy of the graph that the symbol was made in. -/
def graph : ScalarGraph :=
  (ScalarRequest.unary .sin ⟨3⟩).after
    (((ScalarRequest.symbol "x").after (.new (.numbered 0))).fork (.numbered 1))

theorem irreducible_graph : graph.Reachable ∧ graph.node? ⟨4⟩ = some (.unary .sin ⟨3⟩) ∧
    graph.Irreducible ∧ (∀ id, (graph.fork id).nodes = graph.nodes) ∧
      ∀ r : ScalarRequest, graph.nodes.items.toList <+: (r.after graph).nodes.items.toList := by
  have hgraph : graph.Reachable := .request _ (.fork _ (.request _ (.new _)))
  exact ⟨hgraph, by decide, hgraph.irreducible⟩

end ForkedSine

end Fluxion
