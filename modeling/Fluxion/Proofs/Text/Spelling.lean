import Fluxion.Expression.Text
import Fluxion.Proofs.Lists
import Fluxion.Proofs.Scalar.Meaning
import Fluxion.Proofs.Schedule.Reachability
import Fluxion.Proofs.Text.References

/-!
# Spelling out expressions

The plain text of an expression spells out all of its operands, those of its operands and so on. When
some nodes are bound to names, the text of an expression has names in the place of these nodes, and
spells out the others. Here the two are related, for any list of bound nodes in which a node stands
after those that it reaches: replacing the names by the texts of their nodes, the last name first,
spells out everything. After the names down to that of number `k` have been replaced, what is there is
the text in which only the first `k` nodes are bound, and this is the induction.

A text alone does not say how often a node has been spelled out, since different nodes may have equal
texts. So a spelling is a text together with the list of the nodes that it spells out, and both come
from one recursion.

## Main definitions

* `ScalarGraph.plain` — the text that spells out everything
* `Spelling`, `ScalarGraph.spell` — a text with names, and the nodes that it spells out
* `ScalarGraph.BoundInOrder` — which nodes can be bound together

## Main results

* `ScalarGraph.rel_nodeText` — what is kept when operands are put in
* `ScalarGraph.BoundInOrder.expand_spell` — replacing names spells out everything
* `ScalarGraph.of_mem_references_spell` — names in a text are those of nodes that are reached
* `ScalarGraph.perm_nodes_spell` — how often nodes are spelled out
-/

namespace Fluxion

open Postorder (Reaches)

/-! ### Texts of literals -/

namespace Decimal

theorem mem_of_mem_dropZeros {digits : List Char} {c : Char} (h : c ∈ dropZeros digits) :
    c ∈ digits :=
  List.mem_reverse.mp ((List.dropWhile_subset _) (List.mem_reverse.mp h))

theorem notMem_positional (d : Decimal) : '@' ∉ (positional d).toList := by
  have hdigits : ∀ n, '@' ∉ digitsOf n := fun n => notMem_toDigits (by decide) n
  have hzeros : ∀ n, '@' ∉ List.replicate n '0' := fun n h =>
    absurd (List.eq_of_mem_replicate h) (by decide)
  rw [positional]
  split
  · rw [String.toList_ofList, List.mem_append, not_or]
    exact ⟨hdigits _, hzeros _⟩
  · rename_i places _
    have hpadded : '@' ∉ List.replicate (places + 2 - (digitsOf d.digits).length) '0'
        ++ digitsOf d.digits := by
      rw [List.mem_append, not_or]
      exact ⟨hzeros _, hdigits _⟩
    dsimp only
    generalize List.replicate (places + 2 - (digitsOf d.digits).length) '0'
      ++ digitsOf d.digits = padded at hpadded ⊢
    have hwhole : '@' ∉ padded.take (padded.length - (places + 1)) := fun h =>
      hpadded (List.mem_of_mem_take h)
    have hfraction : '@' ∉ dropZeros (padded.drop (padded.length - (places + 1))) := fun h =>
      hpadded (List.mem_of_mem_drop (mem_of_mem_dropZeros h))
    split
    · rwa [String.toList_ofList]
    · rename_i hsome
      rw [String.toList_ofList, List.mem_append, List.mem_cons, not_or, not_or]
      exact ⟨hwhole, by decide, hfraction⟩

theorem notMem_literal (x : Float) : '@' ∉ (literal x).toList := by
  have hwhole : ∀ n : Nat, '@' ∉ (toString n).toList := fun n => by
    rw [Nat.toString_eq_ofList_toDigits, String.toList_ofList]
    exact notMem_toDigits (by decide) n
  rw [literal]
  split
  · decide
  · split <;> decide
  · dsimp only
    split
    · decide
    · have hsign : ∀ (negative : Bool) (size : String), '@' ∉ size.toList →
          '@' ∉ (if negative then "-" ++ size else size).toList := by
        intro negative size hsize
        split
        · rw [String.toList_append, List.mem_append, not_or]
          exact ⟨by decide, hsize⟩
        · exact hsize
      apply hsign
      split
      · exact hwhole _
      · exact notMem_positional _

end Decimal

theorem UnaryOp.notMem_name (op : UnaryOp) : '@' ∉ op.name.toList := by
  cases op <;> decide

theorem BinaryOp.notMem_symbol (op : BinaryOp) : '@' ∉ op.symbol.toList := by
  cases op <;> decide

namespace ScalarGraph

variable {g : ScalarGraph} {e a : ScalarId} {bound : List ScalarId}

/-! ### Texts of nodes -/

theorem exists_node?_of_mem_operands (ha : a ∈ g.operands e) :
    ∃ n, g.node? e = some n ∧ a ∈ n.operands := by
  rw [operands] at ha
  cases hn : g.node? e with
  | none => simp [hn] at ha
  | some n => exact ⟨n, rfl, by simpa [hn] using ha⟩

theorem lt_of_mem_operands (ha : a ∈ g.operands e) : a.index < e.index := by
  obtain ⟨n, hn, ha⟩ := exists_node?_of_mem_operands ha
  exact index_lt_of_mem_operands hn ha

theorem nodeText_congr {text text' : ScalarId → String} (h : ∀ a ∈ g.operands e, text a = text' a) :
    g.nodeText text e = g.nodeText text' e := by
  rw [operands] at h
  rw [nodeText, nodeText]
  cases hn : g.node? e with
  | none => rfl
  | some n =>
    rw [hn] at h
    cases n with
    | symbol _ | literal _ => rfl
    | unary op a =>
      have ha := h a (by simp [ScalarNode.operands])
      cases op <;> simp only [ha]
    | binary op a b =>
      have ha := h a (by simp [ScalarNode.operands])
      have hb := h b (by simp [ScalarNode.operands])
      cases op <;> simp only [ha, hb]

/-- The name of a symbol is one of the names. -/
theorem mem_names_of_name? {name : String} (h : g.name? e = some name) : name ∈ g.names := by
  rw [name?] at h
  split at h
  · exact Array.mem_of_getElem? h
  · contradiction

/-- **What is kept when operands are put in.** A relation between texts holds between the texts of a
node if it holds between those of its operands, provided that it holds of texts without `@` and is
kept when texts are put together with a character in between that no name contains. -/
theorem rel_nodeText {R : List Char → List Char → Prop} (hplain : ∀ s, '@' ∉ s → R s s)
    (happend : ∀ c, Separates c → ∀ s s' t t', R s s' → R t t' → R (s ++ c :: t) (s' ++ c :: t'))
    (hnames : ∀ name ∈ g.names, '@' ∉ name.toList) {text text' : ScalarId → String}
    (h : ∀ a ∈ g.operands e, R (text a).toList (text' a).toList) :
    R (g.nodeText text e).toList (g.nodeText text' e).toList := by
  have hnil : R [] [] := hplain [] List.not_mem_nil
  have hclosed : ∀ a ∈ g.operands e, R ((text a).toList ++ ')' :: []) ((text' a).toList ++ ')' :: []) :=
    fun a ha => happend ')' (by decide) _ _ _ _ (h a ha) hnil
  rw [operands] at h hclosed
  rw [nodeText, nodeText]
  cases hn : g.node? e with
  | none => exact hplain "?".toList (by decide)
  | some n =>
    rw [hn] at h hclosed
    cases n with
    | symbol serial =>
      refine hplain _ ?_
      cases hname : g.name? e with
      | none => exact (by decide : '@' ∉ "?".toList)
      | some name => exact hnames name (mem_names_of_name? hname)
    | literal v => exact hplain _ (Decimal.notMem_literal _)
    | unary op a =>
      have ha := hclosed a (by simp [ScalarNode.operands])
      have hcall := happend '(' (by decide) _ _ _ _ (hplain _ op.notMem_name) ha
      have hneg := happend '(' (by decide) _ _ _ _ hnil (happend '-' (by decide) _ _ _ _ hnil ha)
      cases op with
      | neg => simpa using hneg
      | _ => simpa using hcall
    | binary op a b =>
      have ha := h a (by simp [ScalarNode.operands])
      have hb := hclosed b (by simp [ScalarNode.operands])
      have hsign := happend ' ' (by decide) _ _ _ _ (hplain _ op.notMem_symbol) hb
      have hinfix := happend '(' (by decide) _ _ _ _ hnil (happend ' ' (by decide) _ _ _ _ ha hsign)
      have hcomma := happend ',' (by decide) _ _ _ _ ha
        (happend ' ' (by decide) _ _ _ _ hnil hb)
      have hcall := happend '(' (by decide) _ _ _ _ (hplain "pow".toList (by decide)) hcomma
      cases op with
      | pow => simpa using hcall
      | _ => simpa using hinfix

/-- What holds of all texts without `@`, and is kept when texts are put together, holds of the text of a
node if it holds of those of its operands. -/
theorem forall_nodeText {P : List Char → Prop} (hplain : ∀ s, '@' ∉ s → P s)
    (happend : ∀ c, Separates c → ∀ s t, P s → P t → P (s ++ c :: t))
    (hnames : ∀ name ∈ g.names, '@' ∉ name.toList) {text : ScalarId → String}
    (h : ∀ a ∈ g.operands e, P (text a).toList) : P (g.nodeText text e).toList :=
  @rel_nodeText g e (fun s _ => P s) hplain (fun c hc s _ t _ => happend c hc s t) hnames text text h

/-! ### Spellings -/

/-- The text of an expression that spells out everything. -/
def plain (g : ScalarGraph) (e : ScalarId) : String :=
  g.nodeText (fun a => if _ : a ∈ g.operands e then plain g a else "") e
termination_by e.index
decreasing_by exact lt_of_mem_operands ‹_›

theorem plain_eq (g : ScalarGraph) (e : ScalarId) : g.plain e = g.nodeText g.plain e := by
  rw [plain]
  exact nodeText_congr fun a ha => dif_pos ha

end ScalarGraph

/-- A text, and the nodes that it spells out. -/
structure Spelling where
  text : String
  nodes : List ScalarId

namespace ScalarGraph

variable {g : ScalarGraph} {e a x : ScalarId} {bound : List ScalarId}

/-- The spelling of an expression in which the operands that are bound have names, by their numbers,
and the others are spelled out. -/
def spell (g : ScalarGraph) (bound : List ScalarId) (e : ScalarId) : Spelling :=
  let operand (a : ScalarId) : Spelling :=
    match bound.idxOf? a with
    | some k => ⟨reference (k + 1), []⟩
    | none => if _ : a ∈ g.operands e then spell g bound a else ⟨"", []⟩
  ⟨g.nodeText (fun a => (operand a).text) e, e :: (g.operands e).flatMap fun a => (operand a).nodes⟩
termination_by e.index
decreasing_by exact lt_of_mem_operands ‹_›

/-- What stands for an operand: its name if it is bound, or else its spelling. -/
def operandSpelling (g : ScalarGraph) (bound : List ScalarId) (a : ScalarId) : Spelling :=
  match bound.idxOf? a with
  | some k => ⟨reference (k + 1), []⟩
  | none => g.spell bound a

theorem spell_eq (g : ScalarGraph) (bound : List ScalarId) (e : ScalarId) :
    g.spell bound e = ⟨g.nodeText (fun a => (g.operandSpelling bound a).text) e,
      e :: (g.operands e).flatMap fun a => (g.operandSpelling bound a).nodes⟩ := by
  rw [spell]
  have hoperand : ∀ a ∈ g.operands e, (match bound.idxOf? a with
      | some k => ⟨reference (k + 1), []⟩
      | none => if _ : a ∈ g.operands e then g.spell bound a else ⟨"", []⟩)
      = g.operandSpelling bound a := by
    intro a ha
    rw [operandSpelling, dif_pos ha]
  exact congrArg₂ Spelling.mk (nodeText_congr fun a ha => congrArg Spelling.text (hoperand a ha))
    (congrArg _ (List.flatMap_congr fun a ha => congrArg Spelling.nodes (hoperand a ha)))

theorem text_spell (g : ScalarGraph) (bound : List ScalarId) (e : ScalarId) :
    (g.spell bound e).text = g.nodeText (fun a => (g.operandSpelling bound a).text) e := by
  rw [spell_eq]

theorem nodes_spell (g : ScalarGraph) (bound : List ScalarId) (e : ScalarId) :
    (g.spell bound e).nodes
      = e :: (g.operands e).flatMap fun a => (g.operandSpelling bound a).nodes := by
  rw [spell_eq]

theorem operandSpelling_of_getElem? (hnodup : bound.Nodup) {k : Nat} (hk : bound[k]? = some a) :
    g.operandSpelling bound a = ⟨reference (k + 1), []⟩ := by
  rw [operandSpelling, idxOf?_of_getElem? hnodup hk]

theorem operandSpelling_of_notMem (h : a ∉ bound) :
    g.operandSpelling bound a = g.spell bound a := by
  rw [operandSpelling, List.idxOf?_eq_none_iff.mpr h]

/-- What holds of an expression as soon as it holds of its operands holds of all expressions. -/
theorem operandsInduction (g : ScalarGraph) {P : ScalarId → Prop}
    (step : ∀ e, (∀ a ∈ g.operands e, P a) → P e) (e : ScalarId) : P e :=
  g.operands_induction (fun e ih => step e fun a ha =>
    let ⟨n, hn, ha⟩ := exists_node?_of_mem_operands ha
    ih n hn a ha) e

/-- Where nothing is bound, everything is spelled out. -/
theorem text_spell_nil (g : ScalarGraph) (e : ScalarId) : (g.spell [] e).text = g.plain e := by
  induction e using g.operandsInduction with
  | step e ih =>
    rw [text_spell, plain_eq]
    exact nodeText_congr fun a ha => by rw [operandSpelling_of_notMem List.not_mem_nil, ih a ha]

/-! ### Replacing names -/

theorem mem_operandNumbers_iff : a.index ∈ g.operandNumbers e.index ↔ a ∈ g.operands e :=
  List.mem_map_of_injective fun _ _ h => congrArg ScalarId.mk h

/-- An expression is below another one: an operand of that one reaches it. -/
def Below (g : ScalarGraph) (e x : ScalarId) : Prop :=
  ∃ a ∈ g.operands e, Reaches g.operandNumbers a.index x.index

theorem below_of_mem_operands (ha : a ∈ g.operands e) : g.Below e a := ⟨a, ha, .refl⟩

theorem Below.reaches (h : g.Below e x) : Reaches g.operandNumbers e.index x.index :=
  let ⟨_, ha, hx⟩ := h
  .head (mem_operandNumbers_iff.mpr ha) hx

theorem Below.of_mem_operands (ha : a ∈ g.operands e) (h : g.Below a x) : g.Below e x :=
  ⟨a, ha, h.reaches⟩

/-- A spelling depends on the names of what is below. -/
theorem spell_congr {bound' : List ScalarId}
    (h : ∀ x, g.Below e x → bound.idxOf? x = bound'.idxOf? x) :
    g.spell bound e = g.spell bound' e := by
  induction e using g.operandsInduction with
  | step e ih =>
    have hoperand : ∀ a ∈ g.operands e, g.operandSpelling bound a = g.operandSpelling bound' a := by
      intro a ha
      rw [operandSpelling, operandSpelling, ← h a (below_of_mem_operands ha)]
      cases bound.idxOf? a with
      | some k => rfl
      | none => exact ih a ha fun x hx => h x (hx.of_mem_operands ha)
    rw [spell_eq, spell_eq, nodeText_congr fun a ha => congrArg Spelling.text (hoperand a ha),
      List.flatMap_congr fun a ha => congrArg Spelling.nodes (hoperand a ha)]

/-- No node is bound twice, and each one after those that are below it. -/
structure BoundInOrder (g : ScalarGraph) (bound : List ScalarId) : Prop where
  nodup : bound.Nodup
  lt_of_below : ∀ {j k : Nat} {x y : ScalarId},
    bound[j]? = some x → bound[k]? = some y → g.Below y x → j < k

theorem idxOf?_take (hnodup : bound.Nodup) {k j : Nat} :
    (bound.take k).idxOf? x = some j ↔ bound[j]? = some x ∧ j < k := by
  constructor
  · intro h
    have hget := getElem?_eq_of_idxOf? h
    rw [List.getElem?_take] at hget
    split at hget
    · exact ⟨hget, ‹_›⟩
    · contradiction
  · rintro ⟨hget, hlt⟩
    refine idxOf?_of_getElem? (hnodup.sublist (List.take_sublist k bound)) ?_
    rw [List.getElem?_take, if_pos hlt, hget]

theorem notMem_take (hnodup : bound.Nodup) {k : Nat} (hk : bound[k]? = some x) :
    x ∉ bound.take k := by
  rw [← List.idxOf?_eq_none_iff]
  by_contra hsome
  obtain ⟨j, hj⟩ := Option.ne_none_iff_exists'.mp hsome
  obtain ⟨hget, hlt⟩ := (idxOf?_take hnodup).mp hj
  have heq := (idxOf?_of_getElem? hnodup hget).symm.trans (idxOf?_of_getElem? hnodup hk)
  exact Nat.ne_of_lt hlt (Option.some.inj heq)

/-- In the text of a bound node there are names of nodes that are bound before it. -/
theorem BoundInOrder.spell_take (h : g.BoundInOrder bound) {k : Nat} (hk : bound[k]? = some e) :
    g.spell bound e = g.spell (bound.take k) e := by
  refine spell_congr fun x hx => Option.ext fun j => ?_
  rw [idxOf?_take h.nodup]
  constructor
  · intro hj
    have hget := getElem?_eq_of_idxOf? hj
    exact ⟨hget, h.lt_of_below hget hk hx⟩
  · exact fun hj => idxOf?_of_getElem? h.nodup hj.1

/-- When the names after that of number `k + 1` have been replaced, replacing this one leaves a text in
which the first `k` nodes are bound. -/
theorem replaceFrom_text_spell (hnames : ∀ name ∈ g.names, '@' ∉ name.toList)
    (hnodup : bound.Nodup) {k : Nat} (hk : bound[k]? = some x) (e : ScalarId) :
    replaceFrom (reference (k + 1)).toList (g.spell (bound.take k) x).text.toList 0
        (g.spell (bound.take (k + 1)) e).text.toList
      = (g.spell (bound.take k) e).text.toList := by
  have hname : (reference (k + 1)).toList ≠ [] := by
    rw [toList_reference]
    exact List.cons_ne_nil _ _
  induction e using g.operandsInduction with
  | step e ih =>
    rw [text_spell g (bound.take (k + 1)) e, text_spell g (bound.take k) e]
    refine rel_nodeText (R := fun s s' => replaceFrom (reference (k + 1)).toList
      (g.spell (bound.take k) x).text.toList 0 s = s') ?_ ?_ hnames fun a ha => ?_
    · intro s hs
      rw [toList_reference]
      exact replaceFrom_of_notMem hs
    · rintro c hc s _ t _ rfl rfl
      exact replaceFrom_append (hc.notMem_reference _) hname (Nat.zero_le _) t
    · cases hj : (bound.take (k + 1)).idxOf? a with
      | none =>
        have hno := List.idxOf?_eq_none_iff.mp hj
        have hno' : a ∉ bound.take k := fun h =>
          hno ((List.take_prefix_take_left (Nat.le_succ k)).subset h)
        rw [operandSpelling_of_notMem hno, operandSpelling_of_notMem hno']
        exact ih a ha
      | some j =>
        obtain ⟨hget, hlt⟩ := (idxOf?_take hnodup).mp hj
        rw [operandSpelling, hj]
        rcases Nat.lt_succ_iff_lt_or_eq.mp hlt with hlt | rfl
        · rw [operandSpelling, (idxOf?_take hnodup).mpr ⟨hget, hlt⟩]
          exact replaceFrom_reference (Nat.succ_lt_succ hlt) _
        · obtain rfl : x = a := Option.some.inj (hk.symm.trans hget)
          rw [operandSpelling_of_notMem (notMem_take hnodup hk)]
          exact replaceFrom_self hname

/-- **Replacing names spells out everything**, for an expression in whose text the first `k` nodes are
bound. -/
theorem BoundInOrder.expand_take (h : g.BoundInOrder bound)
    (hnames : ∀ name ∈ g.names, '@' ∉ name.toList) (e : ScalarId) (k : Nat) :
    expand ((bound.map fun x => (g.spell bound x).text).take k) (g.spell (bound.take k) e).text
      = g.plain e := by
  induction k with
  | zero => exact text_spell_nil g e
  | succ k ih =>
    cases hk : bound[k]? with
    | none =>
      have hlength := List.getElem?_eq_none_iff.mp hk
      rw [List.take_of_length_le (by rw [List.length_map]; omega),
        List.take_of_length_le (by omega)] at ih ⊢
      exact ih
    | some x =>
      have hlt := (List.getElem?_eq_some_iff.mp hk).1
      have hreplaced : replaceAll (reference (k + 1)) (g.spell (bound.take k) x).text
          (g.spell (bound.take (k + 1)) e).text = (g.spell (bound.take k) e).text := by
        rw [← String.toList_inj, toList_replaceAll]
        exact replaceFrom_text_spell hnames h.nodup hk e
      rw [List.take_add_one, List.getElem?_map, hk, Option.map_some, Option.toList_some, expand_concat,
        List.length_take, List.length_map, Nat.min_eq_left (Nat.le_of_lt hlt), h.spell_take hk,
        hreplaced, ih]

theorem BoundInOrder.expand_spell (h : g.BoundInOrder bound)
    (hnames : ∀ name ∈ g.names, '@' ∉ name.toList) (e : ScalarId) :
    expand (bound.map fun x => (g.spell bound x).text) (g.spell bound e).text = g.plain e := by
  have hall := h.expand_take hnames e bound.length
  rwa [← List.map_take, List.take_length] at hall

/-! ### Names in a text -/

/-- **Names in a text are those of nodes that are below.** -/
theorem of_mem_references_spell (hnames : ∀ name ∈ g.names, '@' ∉ name.toList) {n : Nat}
    (hn : n ∈ references (g.spell bound e).text.toList) :
    ∃ k x, bound[k]? = some x ∧ n = k + 1 ∧ g.Below e x := by
  induction e using g.operandsInduction generalizing n with
  | step e ih =>
    rw [text_spell] at hn
    refine forall_nodeText (P := fun s => ∀ n ∈ references s,
      ∃ k x, bound[k]? = some x ∧ n = k + 1 ∧ g.Below e x) ?_ ?_ hnames (fun a ha => ?_) n hn
    · intro s hs n hn
      rw [references_of_notMem hs] at hn
      contradiction
    · intro c hc s t hs ht n hn
      rw [references_append hc] at hn
      exact (List.mem_append.mp hn).elim (hs n) (ht n)
    · intro n hn
      rw [operandSpelling] at hn
      split at hn
      · rename_i k hk
        rw [references_reference, List.mem_singleton] at hn
        exact ⟨k, a, getElem?_eq_of_idxOf? hk, hn, below_of_mem_operands ha⟩
      · obtain ⟨k, x, hk, hn, hx⟩ := ih a ha hn
        exact ⟨k, x, hk, hn, hx.of_mem_operands ha⟩

/-! ### Nodes that are spelled out -/

/-- Spellings are of nodes that the expression reaches. -/
theorem reaches_of_mem_nodes_spell (h : x ∈ (g.spell bound e).nodes) :
    Reaches g.operandNumbers e.index x.index := by
  induction e using g.operandsInduction with
  | step e ih =>
    rw [nodes_spell, List.mem_cons, List.mem_flatMap] at h
    rcases h with rfl | ⟨a, ha, hx⟩
    · exact .refl
    · refine .head (mem_operandNumbers_iff.mpr ha) (ih a ha ?_)
      rw [operandSpelling] at hx
      split at hx
      · contradiction
      · exact hx

/-- The operands that are spelled out. -/
def openOperands (g : ScalarGraph) (bound : List ScalarId) (e : ScalarId) : List ScalarId :=
  (g.operands e).filter (· ∉ bound)

theorem nodes_spell_eq (g : ScalarGraph) (bound : List ScalarId) (e : ScalarId) :
    (g.spell bound e).nodes
      = e :: (g.openOperands bound e).flatMap fun a => (g.spell bound a).nodes := by
  have hoperands : ∀ as : List ScalarId, (as.flatMap fun a => (g.operandSpelling bound a).nodes)
      = (as.filter (· ∉ bound)).flatMap fun a => (g.spell bound a).nodes := by
    intro as
    induction as with
    | nil => rfl
    | cons a rest ih =>
      rw [List.flatMap_cons, ih, List.filter_cons]
      by_cases ha : a ∈ bound
      · obtain ⟨k, hk⟩ := Option.ne_none_iff_exists'.mp (mt List.idxOf?_eq_none_iff.mp (not_not.mpr ha))
        rw [operandSpelling, hk, if_neg (by simpa using ha), List.nil_append]
      · rw [operandSpelling_of_notMem ha, if_pos (by simpa using ha), List.flatMap_cons]
  rw [nodes_spell, hoperands, openOperands]

/-- What is spelled out for several roots is these, and the open operands of all that is spelled
out. -/
theorem perm_flatMap_nodes {roots : List ScalarId}
    (h : ∀ r ∈ roots, (g.spell bound r).nodes.Perm
      (r :: (g.spell bound r).nodes.flatMap (g.openOperands bound))) :
    (roots.flatMap fun r => (g.spell bound r).nodes).Perm
      (roots ++ (roots.flatMap fun r => (g.spell bound r).nodes).flatMap (g.openOperands bound)) := by
  induction roots with
  | nil => exact .nil
  | cons r rest ih =>
    obtain ⟨hr, hrest⟩ := List.forall_mem_cons.mp h
    rw [List.flatMap_cons, List.flatMap_append]
    refine (hr.append (ih hrest)).trans (.cons r ?_)
    exact List.perm_append_comm_assoc ..

/-- **A node is spelled out once where it stands itself, and once wherever it is read and not
bound.** -/
theorem perm_nodes_spell (g : ScalarGraph) (bound : List ScalarId) (roots : List ScalarId) :
    (roots.flatMap fun r => (g.spell bound r).nodes).Perm
      (roots ++ (roots.flatMap fun r => (g.spell bound r).nodes).flatMap (g.openOperands bound)) := by
  suffices h : ∀ r, (g.spell bound r).nodes.Perm
      (r :: (g.spell bound r).nodes.flatMap (g.openOperands bound)) from
    perm_flatMap_nodes fun r _ => h r
  intro r
  induction r using g.operandsInduction with
  | step r ih =>
    rw [nodes_spell_eq, List.flatMap_cons]
    exact (perm_flatMap_nodes fun a ha => ih a (List.mem_of_mem_filter ha)).cons r

/-- All nodes that are spelled out in the texts of the bound nodes and of an expression. -/
def spelledOut (g : ScalarGraph) (bound : List ScalarId) (e : ScalarId) : List ScalarId :=
  (bound ++ [e]).flatMap fun r => (g.spell bound r).nodes

theorem perm_spelledOut (g : ScalarGraph) (bound : List ScalarId) (e : ScalarId) :
    (g.spelledOut bound e).Perm
      (bound ++ [e] ++ (g.spelledOut bound e).flatMap (g.openOperands bound)) :=
  perm_nodes_spell g bound (bound ++ [e])

end ScalarGraph

end Fluxion
