import Fluxion.Proofs.Scalar.Lawful

/-!
# What the results of builders are read as

A handle *reads as* `v` if the graph has it and, as long as every fold on record is exact, its value
is `v`. Nothing is said about which nodes a builder makes: a sum with zero is read as the sum, whether
it was left out or not.

Readings stay true when the graph grows. So a program of many requests is followed request by
request, and what was learned about earlier results is still known at the end.

## Main definitions

* `ScalarGraph.Reads` — a handle is read as a value
* `ScalarBuilder.Yields` — a request succeeds, and what is known of its result

## Main results

* `ScalarBuilder.Yields.bind`, `ScalarBuilder.Yields.foldlM` — requests one after another
* `ScalarBuilder.yields_literal`, `ScalarBuilder.yields_unary`, `ScalarBuilder.yields_binary` —
  what builders return
* `ScalarBuilder.yields_unaryPartial`, `ScalarBuilder.yields_binaryPartial` — partial derivatives
-/

namespace Fluxion

variable {V : Type} [CommRing V] {I : Interpretation V} {ρ : ScalarId → V}

/-! ### Readings -/

namespace ScalarGraph

variable {g h : ScalarGraph} {e : ScalarId} {v : V}

/-- The graph has the expression, and its value is `v` as long as every fold is exact. -/
def Reads (g : ScalarGraph) (I : Interpretation V) (ρ : ScalarId → V) (e : ScalarId) (v : V) :
    Prop :=
  g.Has e ∧ (I.Exact g → g.value I ρ e = v)

theorem exact_of_grows (hgrow : g.Grows h) (hexact : I.Exact h) : I.Exact g :=
  fun f hf => hexact f (hgrow.folds.mem hf)

theorem value_of_grows (hgrow : g.Grows h) (he : g.Has e) :
    h.value I ρ e = g.value I ρ e :=
  evaluate_grow hgrow he

theorem Reads.has (he : g.Reads I ρ e v) : g.Has e := he.1

theorem Reads.grow (he : g.Reads I ρ e v) (hgrow : g.Grows h) : h.Reads I ρ e v :=
  ⟨he.1.grow hgrow, fun hexact =>
    (value_of_grows hgrow he.1).trans (he.2 (exact_of_grows hgrow hexact))⟩

/-- What is read under the assumption that folds are exact may be argued under this assumption. -/
theorem Reads.congr {w : V} (he : g.Reads I ρ e v) (hvw : I.Exact g → v = w) :
    g.Reads I ρ e w :=
  ⟨he.1, fun hexact => (he.2 hexact).trans (hvw hexact)⟩

theorem value_of_node? {n : ScalarNode} (hn : g.node? e = some n) :
    g.value I ρ e = n.apply I.algebra (g.value I ρ) (ρ e) :=
  evaluate_of_node? hn

theorem Founded.reads_zero (hg : g.Founded) : g.Reads I ρ .zero 0 :=
  ⟨⟨_, hg.zero⟩, fun _ => hg.evaluate_zero I.simplifies.toOnRing ρ⟩

theorem Founded.reads_one (hg : g.Founded) : g.Reads I ρ .one 1 :=
  ⟨⟨_, hg.one⟩, fun _ => hg.evaluate_one I.simplifies ρ⟩

end ScalarGraph

namespace ScalarBuilder

/-! ### Requests one after another -/

variable {α β σ τ ι κ : Type} {g : ScalarGraph}

/-- From a graph with its literals the request succeeds, the graph grows, and `Q` holds of the result
and the new graph. -/
def Yields (x : ScalarBuilder α) (g : ScalarGraph) (Q : α → ScalarGraph → Prop) : Prop :=
  g.Founded → ∃ a h, x g = .ok a h ∧ g.Grows h ∧ Q a h

theorem yields_pure {a : α} {Q : α → ScalarGraph → Prop} (ha : Q a g) :
    Yields (pure a) g Q :=
  fun _ => ⟨a, g, rfl, .refl g, ha⟩

theorem yields_get_bind {f : ScalarGraph → ScalarBuilder β} {Q : β → ScalarGraph → Prop}
    (hf : Yields (f g) g Q) : Yields (get >>= f) g Q :=
  hf

theorem yields_ofExcept_bind {x : Except Error α} {a : α} {f : α → ScalarBuilder β}
    {Q : β → ScalarGraph → Prop} (hx : x = .ok a) (hf : Yields (f a) g Q) :
    Yields (ofExcept x >>= f) g Q := by
  rw [hx]
  exact hf

theorem Yields.imp {x : ScalarBuilder α} {Q R : α → ScalarGraph → Prop} (hx : Yields x g Q)
    (himp : ∀ a h, g.Grows h → h.Founded → Q a h → R a h) : Yields x g R := by
  intro hg
  obtain ⟨a, h, hrun, hgrow, ha⟩ := hx hg
  exact ⟨a, h, hrun, hgrow, himp a h hgrow (hg.grow hgrow) ha⟩

theorem Yields.bind {x : ScalarBuilder α} {f : α → ScalarBuilder β} {Q : α → ScalarGraph → Prop}
    {R : β → ScalarGraph → Prop} (hx : Yields x g Q)
    (hf : ∀ a h, g.Grows h → Q a h → Yields (f a) h R) : Yields (x >>= f) g R := by
  intro hg
  obtain ⟨a, h, hrun, hgrow, ha⟩ := hx hg
  obtain ⟨b, k, hrun', hgrow', hb⟩ := hf a h hgrow ha (hg.grow hgrow)
  exact ⟨b, k, (bind_of_ok hrun).trans hrun', hgrow.trans hgrow', hb⟩

/-- What a request is known to yield holds of the result that it has. -/
theorem Yields.of_run {x : ScalarBuilder α} {Q : α → ScalarGraph → Prop} {a : α} {h : ScalarGraph}
    (hx : Yields x g Q) (hg : g.Founded) (hrun : x g = .ok a h) : g.Grows h ∧ Q a h := by
  obtain ⟨a', h', hrun', hgrow, ha⟩ := hx hg
  rw [hrun] at hrun'
  cases hrun'
  exact ⟨hgrow, ha⟩

/-- What is known of a result in several ways is known in all of them. -/
theorem Yields.all [Inhabited ι] {x : ScalarBuilder α} {Q : ι → α → ScalarGraph → Prop}
    (hx : ∀ i, Yields x g (Q i)) : Yields x g fun a h => ∀ i, Q i a h := by
  intro hg
  obtain ⟨a, h, hrun, hgrow, -⟩ := hx default hg
  exact ⟨a, h, hrun, hgrow, fun i => ((hx i).of_run hg hrun).2⟩

/-- A loop keeps a relation between its state and that of a loop without effects, if each round does
on items that correspond. -/
theorem Yields.foldlM {E : ι → κ → ScalarGraph → Prop} {R : σ → τ → ScalarGraph → Prop}
    {f : σ → ι → ScalarBuilder σ} {p : τ → κ → τ}
    (hE : ∀ i j g h, g.Grows h → E i j g → E i j h)
    (step : ∀ i j s t h, E i j h → R s t h → Yields (f s i) h fun s' k => R s' (p t j) k)
    {items : List ι} {items' : List κ} (hitems : List.Forall₂ (E · · g) items items')
    {s : σ} {t : τ} (hst : R s t g) :
    Yields (items.foldlM f s) g fun s' h => R s' (items'.foldl p t) h := by
  induction items generalizing items' s t g with
  | nil =>
    cases hitems
    exact yields_pure hst
  | cons i rest ih =>
    cases hitems with
    | cons hi hrest =>
      rw [List.foldlM_cons, List.foldl_cons]
      refine (step i _ s t g hi hst).bind fun s' h hgh hs' => ?_
      exact ih (hrest.imp fun _ _ => hE _ _ _ _ hgh) hs'

theorem Yields.mapM {R : σ → τ → ScalarGraph → Prop} {S : α → β → ScalarGraph → Prop}
    {f : σ → ScalarBuilder α} {p : τ → β}
    (hR : ∀ s t g h, g.Grows h → R s t g → R s t h)
    (hS : ∀ a b g h, g.Grows h → S a b g → S a b h)
    (step : ∀ s t h, R s t h → Yields (f s) h fun a k => S a (p t) k)
    {ss : List σ} {ts : List τ} (hst : List.Forall₂ (R · · g) ss ts) :
    Yields (ss.mapM f) g fun as h => List.Forall₂ (S · · h) as (ts.map p) := by
  induction ss generalizing ts g with
  | nil =>
    cases hst
    rw [List.mapM_nil]
    exact yields_pure .nil
  | cons s rest ih =>
    cases hst with
    | cons hs hrest =>
      rw [List.mapM_cons]
      refine (step s _ g hs).bind fun a h hgh ha => ?_
      refine (ih (hrest.imp fun _ _ => hR _ _ _ _ hgh)).bind fun as k hhk has => ?_
      exact yields_pure (.cons (hS _ _ _ _ hhk ha) has)

/-- Directions that are treated in turn stay related if each is, whatever is handed on. -/
theorem Yields.inTurn {M : ι → ScalarGraph → Prop} {R : σ → τ → ScalarGraph → Prop}
    {S : α → β → ScalarGraph → Prop} {f : ι → σ → ScalarBuilder (ι × α)} {p : τ → β}
    (hR : ∀ s t g h, g.Grows h → R s t g → R s t h)
    (hS : ∀ a b g h, g.Grows h → S a b g → S a b h)
    (step : ∀ m s t h, g.Grows h → M m h → R s t h →
      Yields (f m s) h fun r k => M r.1 k ∧ S r.2 (p t) k)
    {m : ι} {ss : List σ} {ts : List τ} (hm : M m g) (hst : List.Forall₂ (R · · g) ss ts) :
    Yields (Fluxion.inTurn f m ss) g fun as h => List.Forall₂ (S · · h) as (ts.map p) := by
  induction ss generalizing ts g m with
  | nil =>
    cases hst
    exact yields_pure .nil
  | cons s rest ih =>
    cases hst with
    | cons hs hrest =>
      refine (step m s _ g (.refl g) hm hs).bind fun r h hgh hr => ?_
      refine (ih (fun m s t k hhk => step m s t k (hgh.trans hhk)) hr.1
        (hrest.imp fun _ _ => hR _ _ _ _ hgh)).bind fun as k hhk has => ?_
      exact yields_pure (.cons (hS _ _ _ _ hhk hr.2) has)

/-! ### Builders -/

theorem yields_literal (v : Binary64) :
    Yields (literal v) g fun e h => h.Reads I ρ e (I.literal v) := by
  intro _
  obtain ⟨hgrow, hn⟩ := g.literal_spec v
  exact ⟨(g.literal v).1, (g.literal v).2, rfl, hgrow, ⟨_, hn⟩,
    fun _ => ScalarGraph.value_of_node? hn⟩

theorem yields_unary (op : UnaryOp) {a : ScalarId} (ha : g.Has a) :
    Yields (unary op a) g fun e h =>
      h.Has e ∧ ∀ x, g.Reads I ρ a x → h.Reads I ρ e (I.unary op x) := by
  intro _
  obtain ⟨e, h, hrun, hgrow, he, hvalue⟩ := evaluate_unary I.simplifies.toOnRing ρ op ha
  refine ⟨e, h, hrun, hgrow, he, fun x hx => ⟨he, fun hexact => ?_⟩⟩
  have hx : g.evaluate I.algebra ρ a = x := hx.2 (ScalarGraph.exact_of_grows hgrow hexact)
  exact hx ▸ hvalue (Interpretation.exact_algebra.mpr hexact)

theorem yields_binary (op : BinaryOp) {a b : ScalarId} (ha : g.Has a) (hb : g.Has b) :
    Yields (binary op a b) g fun e h =>
      h.Has e ∧ ∀ x y, g.Reads I ρ a x → g.Reads I ρ b y →
        h.Reads I ρ e (I.binary op x y) := by
  intro hg
  obtain ⟨e, h, hrun, hgrow, he, hvalue⟩ := evaluate_binary I.simplifies hg ρ op ha hb
  refine ⟨e, h, hrun, hgrow, he, fun x y hx hy => ⟨he, fun hexact => ?_⟩⟩
  have hx : g.evaluate I.algebra ρ a = x := hx.2 (ScalarGraph.exact_of_grows hgrow hexact)
  have hy : g.evaluate I.algebra ρ b = y := hy.2 (ScalarGraph.exact_of_grows hgrow hexact)
  exact hx ▸ hy ▸ hvalue (Interpretation.exact_algebra.mpr hexact)

/-! ### Partial derivatives -/

/-- The partial derivative of an operation on one operand is built as an expression that is read as
the partial derivative. -/
theorem yields_unaryPartial (op : UnaryOp) {a f : ScalarId} (ha : g.Has a) (hf : g.Has f) :
    Yields (unaryPartial scalarAlgebra op a f) g fun e h =>
      h.Has e ∧ ∀ x w, g.Reads I ρ a x → g.Reads I ρ f w →
        h.Reads I ρ e (I.unaryPartial op x w) := by
  have square : ∀ op', Yields (do
      let one ← literal 1.0
      let square ← binary .mul f f
      binary op' one square) g fun e h =>
        h.Has e ∧ ∀ w, g.Reads I ρ f w →
          h.Reads I ρ e (I.binary op' (I.literal 1.0) (w * w)) := by
    intro op'
    refine (yields_literal (I := I) (ρ := ρ) 1.0).bind fun one h hgh hone => ?_
    refine (yields_binary (I := I) (ρ := ρ) .mul (hf.grow hgh) (hf.grow hgh)).bind
      fun sq k hhk hsq => ?_
    refine (yields_binary (I := I) (ρ := ρ) op' (hone.has.grow hhk) hsq.1).imp
      fun e _ _ _ he => ⟨he.1, fun w hw => ?_⟩
    exact he.2 _ _ (hone.grow hhk) (hsq.2 _ _ (hw.grow hgh) (hw.grow hgh))
  cases op with
  | neg =>
    exact (yields_literal (I := I) (ρ := ρ) (-1.0)).imp
      fun e _ _ _ he => ⟨he.has, fun _ _ _ _ => he⟩
  | sqrt =>
    refine (yields_literal (I := I) (ρ := ρ) 0.5).bind fun half h hgh hhalf => ?_
    exact (yields_binary .div hhalf.has (hf.grow hgh)).imp
      fun e _ _ _ he => ⟨he.1, fun x w _ hw => he.2 _ _ hhalf (hw.grow hgh)⟩
  | sin =>
    exact (yields_unary .cos ha).imp fun e _ _ _ he => ⟨he.1, fun x w hx _ => he.2 x hx⟩
  | cos =>
    refine (yields_unary (I := I) (ρ := ρ) .sin ha).bind fun s h hgh hs => ?_
    exact (yields_unary .neg hs.1).imp
      fun e _ _ _ he => ⟨he.1, fun x w hx _ => he.2 _ (hs.2 x hx)⟩
  | tan => exact (square .add).imp fun e _ _ _ he => ⟨he.1, fun x w _ hw => he.2 w hw⟩
  | exp => exact yields_pure ⟨hf, fun _ _ _ hw => hw⟩
  | log =>
    refine (yields_literal (I := I) (ρ := ρ) 1.0).bind fun one h hgh hone => ?_
    exact (yields_binary .div hone.has (ha.grow hgh)).imp
      fun e _ _ _ he => ⟨he.1, fun x w hx _ => he.2 _ _ hone (hx.grow hgh)⟩
  | tanh => exact (square .sub).imp fun e _ _ _ he => ⟨he.1, fun x w _ hw => he.2 w hw⟩

/-- The same for an operation on two operands. -/
theorem yields_binaryPartial (op : BinaryOp) (side : Side) {a b f : ScalarId} (ha : g.Has a)
    (hb : g.Has b) (hf : g.Has f) :
    Yields (binaryPartial scalarAlgebra op side a b f) g fun e h =>
      h.Has e ∧ ∀ x y w, g.Reads I ρ a x → g.Reads I ρ b y → g.Reads I ρ f w →
        h.Reads I ρ e (I.binaryPartial op side x y w) := by
  have constant : ∀ v, Yields (literal v) g fun e h => h.Has e ∧ h.Reads I ρ e (I.literal v) :=
    fun v => (yields_literal v).imp fun _ _ _ _ he => ⟨he.has, he⟩
  cases op with
  | add => exact (constant 1.0).imp fun e _ _ _ he => ⟨he.1, fun _ _ _ _ _ _ => he.2⟩
  | sub =>
    cases side with
    | left => exact (constant 1.0).imp fun e _ _ _ he => ⟨he.1, fun _ _ _ _ _ _ => he.2⟩
    | right => exact (constant (-1.0)).imp fun e _ _ _ he => ⟨he.1, fun _ _ _ _ _ _ => he.2⟩
  | mul =>
    cases side with
    | left => exact yields_pure ⟨hb, fun _ _ _ _ hy _ => hy⟩
    | right => exact yields_pure ⟨ha, fun _ _ _ hx _ _ => hx⟩
  | div =>
    cases side with
    | left =>
      refine (constant 1.0).bind fun one h hgh hone => ?_
      exact (yields_binary .div hone.1 (hb.grow hgh)).imp
        fun e _ _ _ he => ⟨he.1, fun _ y _ _ hy _ => he.2 _ _ hone.2 (hy.grow hgh)⟩
    | right =>
      refine (yields_binary (I := I) (ρ := ρ) .div hf hb).bind fun q h hgh hq => ?_
      exact (yields_unary .neg hq.1).imp
        fun e _ _ _ he => ⟨he.1, fun _ y w _ hy hw => he.2 _ (hq.2 _ _ hw hy)⟩
  | pow =>
    cases side with
    | left =>
      refine (constant 1.0).bind fun one h hgh hone => ?_
      refine (yields_binary (I := I) (ρ := ρ) .sub (hb.grow hgh) hone.1).bind
        fun exponent k hhk hexponent => ?_
      have hgk := hgh.trans hhk
      refine (yields_binary (I := I) (ρ := ρ) .pow (ha.grow hgk) hexponent.1).bind
        fun power l hkl hpower => ?_
      have hgl := hgk.trans hkl
      refine (yields_binary (I := I) (ρ := ρ) .mul (hb.grow hgl) hpower.1).imp
        fun e _ _ _ he => ⟨he.1, fun x y _ hx hy _ => ?_⟩
      exact he.2 _ _ (hy.grow hgl)
        (hpower.2 _ _ (hx.grow hgk) (hexponent.2 _ _ (hy.grow hgh) hone.2))
    | right =>
      refine (yields_unary (I := I) (ρ := ρ) .log ha).bind fun l h hgh hl => ?_
      exact (yields_binary .mul (hf.grow hgh) hl.1).imp
        fun e _ _ _ he => ⟨he.1, fun x _ w hx _ hw => he.2 _ _ (hw.grow hgh) (hl.2 x hx)⟩

end ScalarBuilder

end Fluxion
