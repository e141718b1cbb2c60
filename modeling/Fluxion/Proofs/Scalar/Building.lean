import Fluxion.Proofs.Scalar.Meaning
import Fluxion.Sweep.Directions

/-!
# What requests to a scalar graph do

Every request leaves the nodes that are there as they are, whether it succeeds or fails. So handles
keep their meaning, and what a request is proved to return stays true under later requests.

## Main definitions

* `ScalarGraph.Grows` — nodes, names and folds are only added
* `ScalarGraph.Founded` — the literals 0, 1 and 2 are where every graph has them
* `ScalarBuilder.Growing` — a request after which the graph has grown, whatever its outcome

## Main results

* `ScalarGraph.Grows.agreeBelow` — below the old size nothing has changed
* `ScalarBuilder.growing_unary`, `ScalarBuilder.growing_binary` — requests grow the graph
-/

namespace Fluxion

namespace ScalarGraph

/-! ### Growth -/

/-- The graph has the node of the handle. -/
def Has (g : ScalarGraph) (e : ScalarId) : Prop := ∃ n, g.node? e = some n

theorem Has.index_lt {g : ScalarGraph} {e : ScalarId} (he : g.Has e) : e.index < g.size := by
  obtain ⟨n, hn⟩ := he
  exact index_lt_of_node? hn

theorem has_of_index_lt {g : ScalarGraph} {e : ScalarId} (he : e.index < g.size) : g.Has e :=
  ⟨_, Array.getElem?_eq_getElem he⟩

theorem has_of_isSymbol {g : ScalarGraph} {e : ScalarId} (he : g.isSymbol e = true) : g.Has e := by
  rw [isSymbol] at he
  cases hn : g.node? e with
  | none => simp [hn] at he
  | some n => exact ⟨n, hn⟩

/-- `h` has come from `g` by adding nodes, names and folds. -/
structure Grows (g h : ScalarGraph) : Prop where
  lineage : h.lineage = g.lineage
  node? : ∀ {e : ScalarId} {n : ScalarNode}, g.node? e = some n → h.node? e = some n
  names : ∀ {i : Nat} {name : String}, g.names[i]? = some name → h.names[i]? = some name
  folds : g.folds <:+ h.folds

namespace Grows

variable {g h k : ScalarGraph}

theorem refl (g : ScalarGraph) : Grows g g :=
  ⟨rfl, id, id, List.suffix_rfl⟩

theorem trans (hgh : Grows g h) (hhk : Grows h k) : Grows g k :=
  ⟨hhk.lineage.trans hgh.lineage, fun hn => hhk.node? (hgh.node? hn),
    fun hn => hhk.names (hgh.names hn), hgh.folds.trans hhk.folds⟩

theorem size_le (hgrow : Grows g h) : g.size ≤ h.size := by
  by_contra hlt
  obtain ⟨n, hn⟩ := has_of_index_lt (e := ⟨h.size⟩) (Nat.lt_of_not_le hlt)
  exact absurd (index_lt_of_node? (hgrow.node? hn)) (Nat.lt_irrefl _)

/-- Below the old size nothing has changed. -/
theorem agreeBelow (hgrow : Grows g h) : AgreeBelow g h g.size := by
  intro e he
  obtain ⟨n, hn⟩ := has_of_index_lt he
  rw [hn, hgrow.node? hn]

end Grows

variable {g h : ScalarGraph} {e : ScalarId}

theorem has_of_unknown? {es : List ScalarId} (h : g.unknown? es = none) (he : e ∈ es) : g.Has e := by
  have := List.find?_eq_none.mp h e he
  cases hn : g.node? e with
  | none => simp [hn] at this
  | some n => exact ⟨n, hn⟩

theorem Has.grow (he : g.Has e) (hgrow : Grows g h) : h.Has e := by
  obtain ⟨n, hn⟩ := he
  exact ⟨n, hgrow.node? hn⟩

/-- The literals 0, 1 and 2 are the first nodes. -/
structure Founded (g : ScalarGraph) : Prop where
  zero : g.node? .zero = some (.literal 0.0)
  one : g.node? .one = some (.literal 1.0)
  two : g.node? .two = some (.literal 2.0)

theorem founded_new (id : GraphId) : (new id).Founded := ⟨rfl, rfl, rfl⟩

theorem Founded.grow (hg : g.Founded) (hgrow : Grows g h) : h.Founded :=
  ⟨hgrow.node? hg.zero, hgrow.node? hg.one, hgrow.node? hg.two⟩

theorem grows_push (n : ScalarNode) (hn : ∀ a ∈ n.operands, a.index < g.nodes.size) :
    Grows g (g.push n hn) := by
  refine ⟨rfl, ?_, id, List.suffix_rfl⟩
  intro e k hk
  have hlt := index_lt_of_node? hk
  change (g.nodes.items.push n)[e.index]? = some k
  rw [Array.getElem?_push_lt hlt]
  exact (Array.getElem?_eq_getElem hlt).symm.trans hk

theorem node?_push (n : ScalarNode) (hn : ∀ a ∈ n.operands, a.index < g.nodes.size) :
    (g.push n hn).node? ⟨g.nodes.size⟩ = some n := by
  change (g.nodes.items.push n)[g.nodes.items.size]? = some n
  exact Array.getElem?_push_size

theorem grows_intern (n : ScalarNode) (hn : ∀ a ∈ n.operands, a.index < g.nodes.size) :
    Grows g (g.intern n hn).2 := by
  rw [intern]
  split
  · exact Grows.refl g
  · exact grows_push n hn

/-- The handle that interning returns is that of the node. -/
theorem node?_intern (n : ScalarNode) (hn : ∀ a ∈ n.operands, a.index < g.nodes.size) :
    (g.intern n hn).2.node? (g.intern n hn).1 = some n := by
  rw [intern]
  split
  · rename_i i hi
    obtain ⟨m, hm, htest⟩ := Pool.exists_of_search?_eq_some hi
    have : m = n := by simpa using htest
    rw [← this]
    exact hm
  · exact node?_push n hn

theorem grows_symbol (g : ScalarGraph) (name : String) : Grows g (g.symbol name).2 := by
  have hnames : Grows g { g with names := g.names.push name } := by
    refine ⟨rfl, id, ?_, List.suffix_rfl⟩
    intro i s hs
    obtain ⟨hi, -⟩ := Array.getElem?_eq_some_iff.mp hs
    exact (Array.getElem?_push_lt hi).trans (Array.getElem?_eq_getElem hi ▸ hs)
  exact hnames.trans (grows_push (.symbol g.names.size) (by simp [ScalarNode.operands]))

theorem grows_folded (g : ScalarGraph) (f : Fold) (v : Binary64) : Grows g (g.folded f v).2 := by
  have hfolds : Grows g { g with folds := f :: g.folds } :=
    ⟨rfl, id, id, List.suffix_cons f g.folds⟩
  exact hfolds.trans (grows_intern _ _)

theorem literal_spec (g : ScalarGraph) (v : Binary64) :
    Grows g (g.literal v).2 ∧ (g.literal v).2.node? (g.literal v).1 = some (.literal v) :=
  ⟨grows_intern _ _, node?_intern _ _⟩

/-- What is folded is a literal, and the fold is on record. -/
theorem folded_spec (g : ScalarGraph) (f : Fold) (v : Binary64) :
    (g.folded f v).2.node? (g.folded f v).1 = some (.literal v) ∧ f ∈ (g.folded f v).2.folds := by
  have hrecord : ∀ (k : ScalarGraph) (n : ScalarNode)
      (hn : ∀ a ∈ n.operands, a.index < k.nodes.size), f ∈ k.folds → f ∈ (k.intern n hn).2.folds :=
    fun k n hn hf => (grows_intern n hn).folds.mem hf
  exact ⟨node?_intern _ _, hrecord _ _ _ (List.mem_cons_self ..)⟩

end ScalarGraph

/-! ### Requests that grow the graph -/

namespace ScalarBuilder

/-- After a request that succeeds the next one goes on from what it leaves. -/
theorem bind_of_ok {α β : Type} {x : ScalarBuilder α} {f : α → ScalarBuilder β} {a : α}
    {g h : ScalarGraph} (hx : x g = .ok a h) : (x >>= f) g = f a h := by
  simp only [Bind.bind, EStateM.bind, hx]

/-- The graph that a request leaves behind, whatever its outcome. -/
def after {α : Type} (x : ScalarBuilder α) (g : ScalarGraph) : ScalarGraph :=
  match x g with
  | .ok _ h | .error _ h => h

/-- Whatever its outcome, the request leaves a graph that has grown. -/
def Growing {α : Type} (x : ScalarBuilder α) : Prop := ∀ g : ScalarGraph, g.Grows (x.after g)

/-- **Unary requests.** For a handle of the graph there is a folded literal, the operand of a
negative, or the operation itself; for any other handle the request fails. -/
theorem unary_cases (op : UnaryOp) (a : ScalarId) (g : ScalarGraph) :
    (g.node? a = none ∧ unary op a g = .error .outOfRange g) ∨
    ∃ e h, unary op a g = .ok e h ∧ g.Grows h ∧
      ((∃ x, g.node? a = some (.literal x) ∧ h.node? e = some (.literal (op.apply x)) ∧
          .unary op x ∈ h.folds) ∨
        (op = .neg ∧ g.node? a = some (.unary .neg e)) ∨
        h.node? e = some (.unary op a)) := by
  rw [unary]
  split
  · rename_i hn
    exact Or.inl ⟨hn, rfl⟩
  · rename_i n hn
    right
    split
    · rename_i x hn
      exact ⟨_, _, rfl, g.grows_folded _ _, Or.inl ⟨x, hn, g.folded_spec _ _⟩⟩
    · exact ⟨_, _, rfl, .refl g, Or.inr (Or.inl ⟨rfl, hn⟩)⟩
    · exact ⟨_, _, rfl, ScalarGraph.grows_intern _ _,
        Or.inr (Or.inr (ScalarGraph.node?_intern _ _))⟩

/-- **Binary requests.** For handles of the graph there is a folded literal, what the shortcut says,
or the operation itself; otherwise the request fails. -/
theorem binary_cases (op : BinaryOp) (a b : ScalarId) (g : ScalarGraph) :
    ((g.node? a = none ∨ g.node? b = none) ∧ binary op a b g = .error .outOfRange g) ∨
    (∃ e h, binary op a b g = .ok e h ∧ g.Grows h ∧
      ((∃ x y, g.node? a = some (.literal x) ∧ g.node? b = some (.literal y) ∧
          h.node? e = some (.literal (op.apply x y)) ∧ .binary op x y ∈ h.folds) ∨
        (g.Has a ∧ g.Has b ∧ h = g ∧ shortcut op a b = some (.same e)) ∨
        h.node? e = some (.binary op a b))) ∨
    (∃ c, g.Has a ∧ g.Has b ∧ shortcut op a b = some (.negated c) ∧
      binary op a b g = unary .neg c g) := by
  rw [binary]
  split
  · rename_i na nb ha hb
    right
    split
    · rename_i x y hx hy
      left
      have hla : na = .literal x := by cases na <;> simp_all [ScalarNode.literal?]
      have hlb : nb = .literal y := by cases nb <;> simp_all [ScalarNode.literal?]
      exact ⟨_, _, rfl, g.grows_folded _ _,
        Or.inl ⟨x, y, hla ▸ ha, hlb ▸ hb, g.folded_spec _ _⟩⟩
    · split
      · rename_i e he
        exact Or.inl ⟨e, g, rfl, .refl g, Or.inr (Or.inl ⟨⟨na, ha⟩, ⟨nb, hb⟩, rfl, he⟩)⟩
      · rename_i c hc
        exact Or.inr ⟨c, ⟨na, ha⟩, ⟨nb, hb⟩, hc, rfl⟩
      · exact Or.inl ⟨_, _, rfl, ScalarGraph.grows_intern _ _,
          Or.inr (Or.inr (ScalarGraph.node?_intern _ _))⟩
  · rename_i hnone
    refine Or.inl ⟨?_, rfl⟩
    cases ha : g.node? a with
    | none => exact Or.inl rfl
    | some na =>
      cases hb : g.node? b with
      | none => exact Or.inr rfl
      | some nb => exact absurd hb (hnone na nb ha)

theorem growing_unary (op : UnaryOp) (a : ScalarId) : Growing (unary op a) := by
  intro g
  rcases unary_cases op a g with ⟨-, hrun⟩ | ⟨e, h, hrun, hgrow, -⟩
  · rw [after, hrun]
    exact .refl g
  · rw [after, hrun]
    exact hgrow

theorem growing_binary (op : BinaryOp) (a b : ScalarId) : Growing (binary op a b) := by
  intro g
  rcases binary_cases op a b g with ⟨-, hrun⟩ | ⟨e, h, hrun, hgrow, -⟩ | ⟨c, -, -, -, hrun⟩
  · rw [after, hrun]
    exact .refl g
  · rw [after, hrun]
    exact hgrow
  · rw [after, hrun]
    exact growing_unary .neg c g

end ScalarBuilder

end Fluxion
