import Fluxion.Proofs.Matrix.Typing
import Fluxion.Sweep.Directions
import Mathlib.Data.List.Forall2

/-!
# Requests that keep matrix graphs well typed

A request to a matrix graph may fail half way, and what it added before stays. So what a request keeps
is said for both outcomes: the graph has grown and is well typed. Of the result, if there is one,
something more is known. Of some requests it is known as well that they succeed.

## Main definitions

* `MatrixBuilder.Keeps` — what a request keeps, and what is known of its result
* `MatrixBuilder.Yields` — the same of a request that succeeds
* `MatrixBuilder.On` — the result is on a pattern
* `MatrixBuilder.Lasts` — what holds in a graph that grows
* `MatrixBuilder.Closed` — what is kept when requests are made one after another

## Main results

* `MatrixBuilder.Keeps.bind`, `MatrixBuilder.Keeps.foldlM`, `MatrixBuilder.Keeps.mapM`,
  `MatrixBuilder.Keeps.inTurn` — requests one after another
* `MatrixBuilder.Keeps.guarded`, `MatrixBuilder.Keeps.mapM_guarded`,
  `MatrixBuilder.Keeps.inTurn_guarded` — what is only claimed of good graphs
* `MatrixBuilder.yields_intern`, `MatrixBuilder.yields_symbol` — the requests that add nodes
-/

namespace Fluxion

namespace MatrixBuilder

variable {α β σ : Type} {g : MatrixGraph}

/-- From a well-typed graph the request leaves one that has grown and is well typed, whatever its
outcome. If it succeeds, `Q` holds of the result and the new graph. -/
def Keeps (x : MatrixBuilder α) (g : MatrixGraph) (Q : α → MatrixGraph → Prop) : Prop :=
  g.WellTyped →
    match x g with
    | .ok a h => g.Grows h ∧ h.WellTyped ∧ Q a h
    | .error _ h => g.Grows h ∧ h.WellTyped

/-- The result is an expression on a pattern. -/
def On (p : Pattern) (e : MatrixId) (g : MatrixGraph) : Prop := g.pattern? e = some p

/-- What holds in a graph still holds when the graph has grown. -/
def Lasts (P : α → MatrixGraph → Prop) : Prop := ∀ a g h, g.Grows h → P a g → P a h

/-- Nothing more is known of the result. -/
def Something (_ : α) (_ : MatrixGraph) : Prop := True

theorem On.grow {p : Pattern} {e : MatrixId} {h : MatrixGraph} (he : On p e g) (hgrow : g.Grows h) :
    On p e h :=
  hgrow.pattern? he

/-! ### Requests one after another -/

theorem keeps_pure {a : α} {Q : α → MatrixGraph → Prop} (ha : Q a g) : Keeps (pure a) g Q :=
  fun hg => ⟨.refl g, hg, ha⟩

theorem keeps_throw {Q : α → MatrixGraph → Prop} (e : Error) :
    Keeps (throw e : MatrixBuilder α) g Q :=
  fun hg => ⟨.refl g, hg⟩

/-- What a request is known to keep holds of the result that it has. -/
theorem Keeps.of_run {x : MatrixBuilder α} {Q : α → MatrixGraph → Prop} {a : α} {h : MatrixGraph}
    (hx : Keeps x g Q) (hg : g.WellTyped) (hrun : x g = .ok a h) :
    g.Grows h ∧ h.WellTyped ∧ Q a h := by
  have hkept := hx hg
  rwa [hrun] at hkept

theorem Keeps.imp {x : MatrixBuilder α} {Q R : α → MatrixGraph → Prop} (hx : Keeps x g Q)
    (himp : ∀ a h, g.Grows h → Q a h → R a h) : Keeps x g R := by
  intro hg
  have hrun := hx hg
  cases hxg : x g with
  | ok a h =>
    rw [hxg] at hrun
    exact ⟨hrun.1, hrun.2.1, himp a h hrun.1 hrun.2.2⟩
  | error e h =>
    rw [hxg] at hrun
    exact hrun

theorem Keeps.and {x : MatrixBuilder α} {Q R : α → MatrixGraph → Prop} (hQ : Keeps x g Q)
    (hR : Keeps x g R) : Keeps x g fun a h => Q a h ∧ R a h := by
  intro hg
  have hleft := hQ hg
  have hright := hR hg
  cases hxg : x g with
  | ok a h =>
    rw [hxg] at hleft hright
    exact ⟨hleft.1, hleft.2.1, hleft.2.2, hright.2.2⟩
  | error e h =>
    rw [hxg] at hleft
    exact hleft

/-- What is kept for each of several reasons is kept for all of them. -/
theorem keeps_forall {ι : Type} [Inhabited ι] {x : MatrixBuilder α}
    {Q : ι → α → MatrixGraph → Prop} (hQ : ∀ i, Keeps x g (Q i)) :
    Keeps x g fun a h => ∀ i, Q i a h := by
  intro hg
  have hall := fun i => hQ i hg
  cases hxg : x g with
  | ok a h =>
    simp only [hxg] at hall
    exact ⟨(hall default).1, (hall default).2.1, fun i => (hall i).2.2⟩
  | error e h =>
    simp only [hxg] at hall
    exact hall default

theorem Keeps.something {x : MatrixBuilder α} {Q : α → MatrixGraph → Prop} (hx : Keeps x g Q) :
    Keeps x g Something :=
  hx.imp fun _ _ _ _ => trivial

theorem Keeps.bind {x : MatrixBuilder α} {f : α → MatrixBuilder β} {Q : α → MatrixGraph → Prop}
    {R : β → MatrixGraph → Prop} (hx : Keeps x g Q)
    (hf : ∀ a h, g.Grows h → Q a h → Keeps (f a) h R) : Keeps (x >>= f) g R := by
  intro hg
  have hrun := hx hg
  cases hxg : x g with
  | ok a h =>
    rw [hxg] at hrun
    obtain ⟨hgrow, hh, ha⟩ := hrun
    have hrun' := hf a h hgrow ha hh
    have hbind : (x >>= f) g = f a h := by simp only [Bind.bind, EStateM.bind, hxg]
    rw [hbind]
    cases hfh : f a h with
    | ok b k =>
      rw [hfh] at hrun'
      exact ⟨hgrow.trans hrun'.1, hrun'.2⟩
    | error e k =>
      rw [hfh] at hrun'
      exact ⟨hgrow.trans hrun'.1, hrun'.2⟩
  | error e h =>
    rw [hxg] at hrun
    have hbind : (x >>= f) g = .error e h := by simp only [Bind.bind, EStateM.bind, hxg]
    rw [hbind]
    exact hrun

/-- A request may rely on its graph being well typed. -/
theorem keeps_of_wellTyped {x : MatrixBuilder α} {Q : α → MatrixGraph → Prop}
    (hx : g.WellTyped → Keeps x g Q) : Keeps x g Q :=
  fun hg => hx hg hg

theorem keeps_get_bind {f : MatrixGraph → MatrixBuilder β} {Q : β → MatrixGraph → Prop}
    (hf : Keeps (f g) g Q) : Keeps (get >>= f) g Q :=
  hf

theorem keeps_ofExcept_bind {x : Except Error α} {f : α → MatrixBuilder β}
    {Q : β → MatrixGraph → Prop} (hf : ∀ a, x = .ok a → Keeps (f a) g Q) :
    Keeps (ofExcept x >>= f) g Q := by
  cases x with
  | ok a => exact hf a rfl
  | error e => exact keeps_throw e

theorem keeps_ofExcept {x : Except Error α} {Q : α → MatrixGraph → Prop}
    (hx : ∀ a, x = .ok a → Q a g) : Keeps (ofExcept x) g Q := by
  cases x with
  | ok a => exact keeps_pure (hx a rfl)
  | error e => exact keeps_throw e

theorem patternOf_of_some {e : MatrixId} {p : Pattern} (hp : g.pattern? e = some p) :
    patternOf e g = .ok p g := by
  rw [patternOf, show (get : MatrixBuilder MatrixGraph) = fun g => .ok g g from rfl]
  simp only [Bind.bind, EStateM.bind, hp]
  rfl

theorem patternOf_of_none {e : MatrixId} (hp : g.pattern? e = none) :
    patternOf e g = .error .outOfRange g := by
  rw [patternOf, show (get : MatrixBuilder MatrixGraph) = fun g => .ok g g from rfl]
  simp only [Bind.bind, EStateM.bind, hp]
  rfl

theorem nodeOf_of_some {e : MatrixId} {n : MatrixNode} (hn : g.node? e = some n) :
    nodeOf e g = .ok n g := by
  rw [nodeOf, show (get : MatrixBuilder MatrixGraph) = fun g => .ok g g from rfl]
  simp only [Bind.bind, EStateM.bind, hn]
  rfl

theorem nodeOf_of_none {e : MatrixId} (hn : g.node? e = none) :
    nodeOf e g = .error .outOfRange g := by
  rw [nodeOf, show (get : MatrixBuilder MatrixGraph) = fun g => .ok g g from rfl]
  simp only [Bind.bind, EStateM.bind, hn]
  rfl

theorem keeps_patternOf_bind {e : MatrixId} {f : Pattern → MatrixBuilder β}
    {Q : β → MatrixGraph → Prop} (hf : ∀ p, g.pattern? e = some p → Keeps (f p) g Q) :
    Keeps (patternOf e >>= f) g Q := by
  intro hg
  cases hp : g.pattern? e with
  | some p =>
    simp only [Bind.bind, EStateM.bind, patternOf_of_some hp]
    exact hf p hp hg
  | none =>
    simp only [Bind.bind, EStateM.bind, patternOf_of_none hp]
    exact ⟨.refl g, hg⟩

theorem keeps_nodeOf_bind {e : MatrixId} {f : MatrixNode → MatrixBuilder β}
    {Q : β → MatrixGraph → Prop} (hf : ∀ n, g.node? e = some n → Keeps (f n) g Q) :
    Keeps (nodeOf e >>= f) g Q := by
  intro hg
  cases hn : g.node? e with
  | some n =>
    simp only [Bind.bind, EStateM.bind, nodeOf_of_some hn]
    exact hf n hn hg
  | none =>
    simp only [Bind.bind, EStateM.bind, nodeOf_of_none hn]
    exact ⟨.refl g, hg⟩

/-! ### Requests that succeed -/

/-- From a well-typed graph the request succeeds and leaves a graph that has grown and is well typed,
and `Q` holds of the result and the new graph. -/
def Yields (x : MatrixBuilder α) (g : MatrixGraph) (Q : α → MatrixGraph → Prop) : Prop :=
  g.WellTyped → ∃ a h, x g = .ok a h ∧ g.Grows h ∧ h.WellTyped ∧ Q a h

theorem Yields.keeps {x : MatrixBuilder α} {Q : α → MatrixGraph → Prop} (hx : Yields x g Q) :
    Keeps x g Q := by
  intro hg
  obtain ⟨a, h, hrun, hgrow, hh, ha⟩ := hx hg
  rw [hrun]
  exact ⟨hgrow, hh, ha⟩

theorem yields_of_wellTyped {x : MatrixBuilder α} {Q : α → MatrixGraph → Prop}
    (hx : g.WellTyped → Yields x g Q) : Yields x g Q :=
  fun hg => hx hg hg

theorem yields_pure {a : α} {Q : α → MatrixGraph → Prop} (ha : Q a g) : Yields (pure a) g Q :=
  fun hg => ⟨a, g, rfl, .refl g, hg, ha⟩

theorem Yields.imp {x : MatrixBuilder α} {Q R : α → MatrixGraph → Prop} (hx : Yields x g Q)
    (himp : ∀ a h, g.Grows h → Q a h → R a h) : Yields x g R := by
  intro hg
  obtain ⟨a, h, hrun, hgrow, hh, ha⟩ := hx hg
  exact ⟨a, h, hrun, hgrow, hh, himp a h hgrow ha⟩

theorem Yields.bind {x : MatrixBuilder α} {f : α → MatrixBuilder β} {Q : α → MatrixGraph → Prop}
    {R : β → MatrixGraph → Prop} (hx : Yields x g Q)
    (hf : ∀ a h, g.Grows h → Q a h → Yields (f a) h R) : Yields (x >>= f) g R := by
  intro hg
  obtain ⟨a, h, hrun, hgrow, hh, ha⟩ := hx hg
  obtain ⟨b, k, hrun', hgrow', hk, hb⟩ := hf a h hgrow ha hh
  refine ⟨b, k, ?_, hgrow.trans hgrow', hk, hb⟩
  simp only [Bind.bind, EStateM.bind, hrun]
  exact hrun'

theorem yields_get_bind {f : MatrixGraph → MatrixBuilder β} {Q : β → MatrixGraph → Prop}
    (hf : Yields (f g) g Q) : Yields (get >>= f) g Q :=
  hf

theorem yields_ofExcept {x : Except Error α} {a : α} {Q : α → MatrixGraph → Prop}
    (hx : x = .ok a) (ha : Q a g) : Yields (ofExcept x) g Q := by
  rw [hx]
  exact yields_pure ha

theorem yields_ofExcept_bind {x : Except Error α} {a : α} {f : α → MatrixBuilder β}
    {Q : β → MatrixGraph → Prop} (hx : x = .ok a) (hf : Yields (f a) g Q) :
    Yields (ofExcept x >>= f) g Q := by
  rw [hx]
  exact hf

theorem yields_patternOf_bind {e : MatrixId} {p : Pattern} {f : Pattern → MatrixBuilder β}
    {Q : β → MatrixGraph → Prop} (hp : g.pattern? e = some p) (hf : Yields (f p) g Q) :
    Yields (patternOf e >>= f) g Q := by
  intro hg
  simp only [Bind.bind, EStateM.bind, patternOf_of_some hp]
  exact hf hg

theorem yields_nodeOf_bind {e : MatrixId} {n : MatrixNode} {f : MatrixNode → MatrixBuilder β}
    {Q : β → MatrixGraph → Prop} (hn : g.node? e = some n) (hf : Yields (f n) g Q) :
    Yields (nodeOf e >>= f) g Q := by
  intro hg
  simp only [Bind.bind, EStateM.bind, nodeOf_of_some hn]
  exact hf hg

/-! ### Lists of requests -/

/-- A fold keeps what each of its steps keeps. -/
theorem Keeps.foldlM {S : σ → MatrixGraph → Prop} {f : σ → α → MatrixBuilder σ} {as : List α}
    (step : ∀ s h, ∀ a ∈ as, g.Grows h → S s h → Keeps (f s a) h S) {s : σ} (hs : S s g) :
    Keeps (as.foldlM f s) g S := by
  induction as generalizing s g with
  | nil => exact keeps_pure hs
  | cons a rest ih =>
    rw [List.foldlM_cons]
    refine (step s g a (by simp) (.refl g) hs).bind fun s' h hgh hs' => ih ?_ hs'
    exact fun t k b hb hhk => step t k b (List.mem_cons_of_mem a hb) (hgh.trans hhk)

/-- Results that are made one after another keep what is known of each. -/
theorem Keeps.mapM {S : α → β → MatrixGraph → Prop} {f : α → MatrixBuilder β} {as : List α}
    (hS : ∀ a b g h, g.Grows h → S a b g → S a b h)
    (step : ∀ a ∈ as, ∀ h, g.Grows h → Keeps (f a) h (S a)) :
    Keeps (as.mapM f) g fun bs h => List.Forall₂ (S · · h) as bs := by
  induction as generalizing g with
  | nil =>
    rw [List.mapM_nil]
    exact keeps_pure .nil
  | cons a rest ih =>
    rw [List.mapM_cons]
    refine (step a (by simp) g (.refl g)).bind fun b h hgh hb => ?_
    have hrest := ih fun c hc k hhk => step c (List.mem_cons_of_mem a hc) k (hgh.trans hhk)
    exact hrest.bind fun bs k hhk hbs => keeps_pure (.cons (hS _ _ _ _ hhk hb) hbs)

/-- Results that are made one after another can be made if each can. -/
theorem Yields.mapM {S : α → β → MatrixGraph → Prop} {f : α → MatrixBuilder β} {as : List α}
    (hS : ∀ a, Lasts (S a)) (step : ∀ a ∈ as, ∀ h, g.Grows h → Yields (f a) h (S a)) :
    Yields (as.mapM f) g fun bs h => List.Forall₂ (S · · h) as bs := by
  induction as generalizing g with
  | nil =>
    rw [List.mapM_nil]
    exact yields_pure .nil
  | cons a rest ih =>
    rw [List.mapM_cons]
    refine (step a (by simp) g (.refl g)).bind fun b h hgh hb => ?_
    have hrest := ih fun c hc k hhk => step c (List.mem_cons_of_mem a hc) k (hgh.trans hhk)
    exact hrest.bind fun bs k hhk hbs => yields_pure (.cons (hS a b _ _ hhk hb) hbs)

/-- Directions in turn keep what is known of each, whatever is handed on. -/
theorem Keeps.inTurn {P : α → MatrixGraph → Prop} {S : β → MatrixGraph → Prop}
    {f : σ → α → MatrixBuilder (σ × β)} (hP : ∀ a g h, g.Grows h → P a g → P a h)
    (hS : ∀ b g h, g.Grows h → S b g → S b h)
    (step : ∀ s a h, g.Grows h → P a h → Keeps (f s a) h fun r k => S r.2 k)
    {s : σ} {as : List α} (has : ∀ a ∈ as, P a g) :
    Keeps (Fluxion.inTurn f s as) g fun bs h => bs.length = as.length ∧ ∀ b ∈ bs, S b h := by
  induction as generalizing s g with
  | nil => exact keeps_pure (by simp)
  | cons a rest ih =>
    refine (step s a g (.refl g) (has a (by simp))).bind fun r h hgh hr => ?_
    have hrest := ih (fun t c k hhk => step t c k (hgh.trans hhk)) (s := r.1) fun c hc =>
      hP c g h hgh (has c (List.mem_cons_of_mem a hc))
    refine hrest.bind fun bs k hhk hbs => keeps_pure ⟨congrArg (· + 1) hbs.1, ?_⟩
    exact List.forall_mem_cons.mpr ⟨hS _ _ _ hhk hr, hbs.2⟩

/-- Results that are made one after another keep how each belongs to a member of another list. -/
theorem Keeps.mapM_related {δ : Type*} {R : δ → α → MatrixGraph → Prop}
    {S : δ → β → MatrixGraph → Prop} {f : α → MatrixBuilder β} (hR : ∀ d, Lasts (R d))
    (hS : ∀ d, Lasts (S d)) (step : ∀ d a h, g.Grows h → R d a h → Keeps (f a) h (S d))
    {ds : List δ} {as : List α} (has : List.Forall₂ (R · · g) ds as) :
    Keeps (as.mapM f) g fun bs h => List.Forall₂ (S · · h) ds bs := by
  induction as generalizing ds g with
  | nil =>
    rw [List.mapM_nil]
    cases has
    exact keeps_pure .nil
  | cons a rest ih =>
    rw [List.mapM_cons]
    cases has with
    | @cons d _ ds _ ha hrest =>
      refine (step d a g (.refl g) ha).bind fun b h hgh hb => ?_
      have hkeeps := ih (fun d c k hhk => step d c k (hgh.trans hhk))
        (hrest.imp fun d c => hR d c g h hgh)
      exact hkeeps.bind fun bs k hhk hbs => keeps_pure (.cons (hS _ _ _ _ hhk hb) hbs)

/-- Directions in turn keep how each belongs to a member of another list, and what is known of what is
handed on. -/
theorem Keeps.inTurn_related {δ : Type*} {M : σ → MatrixGraph → Prop}
    {R : δ → α → MatrixGraph → Prop} {S : δ → β → MatrixGraph → Prop} {f : σ → α → MatrixBuilder (σ × β)}
    (hR : ∀ d, Lasts (R d)) (hS : ∀ d, Lasts (S d))
    (step : ∀ d s a h, g.Grows h → M s h → R d a h →
      Keeps (f s a) h fun r k => M r.1 k ∧ S d r.2 k)
    {s : σ} (hs : M s g) {ds : List δ} {as : List α} (has : List.Forall₂ (R · · g) ds as) :
    Keeps (Fluxion.inTurn f s as) g fun bs h => List.Forall₂ (S · · h) ds bs := by
  induction as generalizing s ds g with
  | nil =>
    cases has
    exact keeps_pure .nil
  | cons a rest ih =>
    cases has with
    | @cons d _ ds _ ha hrest =>
      refine (step d s a g (.refl g) hs ha).bind fun r h hgh hr => ?_
      have hkeeps := ih (fun d t c k hhk => step d t c k (hgh.trans hhk)) hr.1
        (hrest.imp fun d c => hR d c g h hgh)
      exact hkeeps.bind fun bs k hhk hbs => keeps_pure (.cons (hS _ _ _ _ hhk hr.2) hbs)

/-! ### Claims about good graphs -/

section Guarded

variable {G : MatrixGraph → Prop}

/-- What is only claimed of good graphs may be shown from a good graph, if nothing good grows out of a
bad one. -/
theorem Keeps.guarded {x : MatrixBuilder α} {P Q : α → MatrixGraph → Prop}
    (hG : ∀ g h, g.Grows h → G h → G g) (hP : Keeps x g P)
    (hQ : G g → Keeps x g fun a h => G h → Q a h) : Keeps x g fun a h => P a h ∧ (G h → Q a h) := by
  by_cases hg : G g
  · exact hP.and (hQ hg)
  · exact hP.imp fun a h hgrow ha => ⟨ha, fun hh => absurd (hG g h hgrow hh) hg⟩

theorem Lasts.guarded {P Q : α → MatrixGraph → Prop} (hG : ∀ g h, g.Grows h → G h → G g)
    (hP : Lasts P) (hQ : Lasts Q) : Lasts fun a g => P a g ∧ (G g → Q a g) :=
  fun a g h hgrow ha =>
    ⟨hP a g h hgrow ha.1, fun hh => hQ a g h hgrow (ha.2 (hG g h hgrow hh))⟩

variable {δ : Type*} {ds : List δ} {as : List α} {P : α → MatrixGraph → Prop}
  {P' : β → MatrixGraph → Prop} {Q : δ → α → MatrixGraph → Prop} {Q' : δ → β → MatrixGraph → Prop}

theorem Keeps.mapM_guarded (hG : ∀ g h, g.Grows h → G h → G g) {f : α → MatrixBuilder β}
    (hP : Lasts P) (hP' : Lasts P') (hQ : ∀ d, Lasts (Q d)) (hQ' : ∀ d, Lasts (Q' d))
    (always : ∀ a h, g.Grows h → P a h → Keeps (f a) h P')
    (step : ∀ d a h, g.Grows h → G h → Q d a h → Keeps (f a) h fun b k => G k → Q' d b k)
    (has : List.Forall₂ (fun d a => P a g ∧ (G g → Q d a g)) ds as) :
    Keeps (as.mapM f) g fun bs h => List.Forall₂ (fun d b => P' b h ∧ (G h → Q' d b h)) ds bs :=
  .mapM_related (fun d => hP.guarded hG (hQ d)) (fun d => hP'.guarded hG (hQ' d))
    (fun d a h hgh ha => (always a h hgh ha.1).guarded hG fun hh => step d a h hgh hh (ha.2 hh)) has

theorem Keeps.inTurn_guarded (hG : ∀ g h, g.Grows h → G h → G g) {f : σ → α → MatrixBuilder (σ × β)}
    {M : σ → MatrixGraph → Prop} (hP : Lasts P) (hP' : Lasts P') (hQ : ∀ d, Lasts (Q d))
    (hQ' : ∀ d, Lasts (Q' d))
    (always : ∀ s a h, g.Grows h → P a h → Keeps (f s a) h fun r => P' r.2)
    (step : ∀ d s a h, g.Grows h → G h → M s h → Q d a h →
      Keeps (f s a) h fun r k => G k → M r.1 k ∧ Q' d r.2 k)
    {s : σ} (hs : M s g) (has : List.Forall₂ (fun d a => P a g ∧ (G g → Q d a g)) ds as) :
    Keeps (Fluxion.inTurn f s as) g fun bs h =>
      List.Forall₂ (fun d b => P' b h ∧ (G h → Q' d b h)) ds bs := by
  refine .inTurn_related (M := fun s h => G h → M s h) (fun d => hP.guarded hG (hQ d))
    (fun d => hP'.guarded hG (hQ' d)) (fun d s a h hgh hm ha => ?_) (fun _ => hs) has
  refine ((always s a h hgh ha.1).guarded hG fun hh =>
    step d s a h hgh hh (hm hh) (ha.2 hh)).imp fun r k _ hr => ?_
  exact ⟨fun hk => (hr.2 hk).1, hr.1, fun hk => (hr.2 hk).2⟩

end Guarded

/-! ### Requests that add nodes -/

theorem yields_intern {n : MatrixNode} {p : Pattern} (hn : n.Typed g p) :
    Yields (intern n p) g fun e h => h.node? e = some n ∧ On p e h := by
  intro hg
  have hk : ∀ a ∈ n.operands, a.index < g.entries.size := hn.operands_lt
  have hrun : intern n p g = .ok (g.intern ⟨n, p⟩ hk).1 (g.intern ⟨n, p⟩ hk).2 := by
    rw [intern, dif_pos hk]
  obtain ⟨hgrow, hh, hnode, hp⟩ := MatrixGraph.wellTyped_intern hg hn hk
  exact ⟨_, _, hrun, hgrow, hh, hnode, hp⟩

theorem keeps_intern {n : MatrixNode} {p : Pattern} (hn : n.Typed g p) :
    Keeps (intern n p) g (On p) :=
  (yields_intern hn).keeps.imp fun _ _ _ he => he.2

/-- A new symbol is numbered by the names that there are. -/
theorem yields_symbol (name : String) (p : Pattern) :
    Yields (symbol name p) g fun e h => h.node? e = some (.symbol g.names.size p) ∧ On p e h := by
  intro hg
  have hgrow := g.grows_names name
  have hn : (MatrixNode.symbol g.names.size p).Typed { g with names := g.names.push name } p :=
    .symbol (by simp)
  obtain ⟨e, h, hrun, hgrow', hh, he⟩ := yields_intern hn (hg.of_entries hgrow rfl)
  exact ⟨e, h, hrun, hgrow.trans hgrow', hh, he⟩

theorem keeps_symbol (name : String) (p : Pattern) : Keeps (symbol name p) g (On p) :=
  (yields_symbol name p).keeps.imp fun _ _ _ he => he.2

theorem keeps_rememberFolds (folds : List Fold) : Keeps (rememberFolds folds) g Something := by
  intro hg
  have hgrow : g.Grows { g with folds := folds.reverse ++ g.folds } :=
    ⟨rfl, id, id, List.suffix_append _ _, List.suffix_rfl⟩
  exact ⟨hgrow, hg.of_entries hgrow rfl, trivial⟩

theorem keeps_rememberDerived (id : FunctionId) : Keeps (rememberDerived id) g Something := by
  intro hg
  have hgrow : g.Grows { g with derived := id :: g.derived } :=
    ⟨rfl, fun h => h, fun h => h, List.suffix_rfl, List.suffix_cons id g.derived⟩
  exact ⟨hgrow, hg.of_entries hgrow rfl, trivial⟩

/-! ### Partial derivatives -/

/-- What holds of elementwise operations and is kept when requests are made one after another. -/
structure Closed (P : ∀ α : Type, MatrixBuilder α → Prop) : Prop where
  pure : ∀ {α : Type} (a : α), P α (pure a)
  bind : ∀ {α β : Type} {x : MatrixBuilder α} {f : α → MatrixBuilder β}, P α x →
    (∀ a, P β (f a)) → P β (x >>= f)
  scalar : ∀ v, P MatrixId (.scalar v)
  unary : ∀ op a, P MatrixId (.unary op a)
  binary : ∀ op a b, P MatrixId (.binary op a b)

variable {P : ∀ α : Type, MatrixBuilder α → Prop}

theorem Closed.unaryPartial (hP : Closed P) (op : UnaryOp) (x e : MatrixId) :
    P MatrixId (unaryPartial elementwiseAlgebra op x e) := by
  cases op with
  | neg => exact hP.scalar _
  | sqrt => exact hP.bind (hP.scalar _) fun half => hP.binary .div half e
  | sin => exact hP.unary .cos x
  | cos => exact hP.bind (hP.unary .sin x) fun s => hP.unary .neg s
  | tan =>
    exact hP.bind (hP.scalar _) fun one => hP.bind (hP.binary .mul e e) fun square =>
      hP.binary .add one square
  | exp => exact hP.pure e
  | log => exact hP.bind (hP.scalar _) fun one => hP.binary .div one x
  | tanh =>
    exact hP.bind (hP.scalar _) fun one => hP.bind (hP.binary .mul e e) fun square =>
      hP.binary .sub one square

theorem Closed.binaryPartial (hP : Closed P) (op : BinaryOp) (side : Side) (x y e : MatrixId) :
    P MatrixId (binaryPartial elementwiseAlgebra op side x y e) := by
  cases op with
  | add => exact hP.scalar _
  | sub => cases side <;> exact hP.scalar _
  | mul => cases side <;> exact hP.pure _
  | div =>
    cases side with
    | left => exact hP.bind (hP.scalar _) fun one => hP.binary .div one y
    | right => exact hP.bind (hP.binary .div e y) fun quotient => hP.unary .neg quotient
  | pow =>
    cases side with
    | left =>
      exact hP.bind (hP.scalar _) fun one => hP.bind (hP.binary .sub y one) fun exponent =>
        hP.bind (hP.binary .pow x exponent) fun power => hP.binary .mul y power
    | right => exact hP.bind (hP.unary .log x) fun l => hP.binary .mul e l

end MatrixBuilder

end Fluxion
