import Fluxion.Proofs.Matrix.Operations

/-!
# Requests in graphs with room

Builders fail for three reasons: a handle that the graph does not have, shapes that do not fit, and
tables that would be too large. The last cannot happen in a graph with room: the row count, the
column count and the element count of every pattern leave a place in a table. What a builder adds is
as large as its operands, or is asked for on a pattern that is there, so the graph that it leaves has
room as well. In a graph without room nothing but the last happens, to operands that are in order.

Room says nothing about the other reasons. Those are excluded by what is known of the operands, and
the shape of a result is all that has to be known of it for the next request.

## Main definitions

* `Pattern.Roomy`, `MatrixGraph.Roomy` — counts leave a place in a table
* `MatrixBuilder.Granted` — a request that succeeds if there is room, or meets a table too large
* `MatrixBuilder.Fulfills` — a request that also leaves room
* `MatrixBuilder.Shaped`, `MatrixBuilder.Spans` — the shape of a result

## Main results

* `MatrixBuilder.Fulfills.bind`, `MatrixBuilder.Fulfills.foldlM`, `MatrixBuilder.Fulfills.mapM`,
  `MatrixBuilder.Fulfills.inTurn` — requests one after another
* `MatrixBuilder.fulfills_intern` — nodes that are added
* `MatrixBuilder.fulfills_binary`, `MatrixBuilder.fulfills_product` and others — **builders succeed**
  where there is room
-/

namespace Fluxion

/-! ### Room -/

/-- There are fewer rows, columns and elements than fit into a table. -/
structure Pattern.Roomy (p : Pattern) : Prop where
  rows : p.nrows + 1 < tableLimit
  columns : p.ncols + 1 < tableLimit
  elements : p.numel + 1 < tableLimit

namespace Pattern

variable {p q : Pattern}

theorem Roomy.of_shape (hp : p.Roomy) (hshape : q.shape = p.shape) : q.Roomy := by
  obtain ⟨hrows, hcolumns⟩ := Prod.mk.inj hshape
  refine ⟨hrows ▸ hp.rows, hcolumns ▸ hp.columns, ?_⟩
  rw [numel, hrows, hcolumns]
  exact hp.elements

theorem Roomy.transpose (hp : p.Roomy) : p.transpose.Roomy := by
  refine ⟨hp.columns, p.ncols_transpose.symm ▸ hp.rows, ?_⟩
  rw [numel, ncols_transpose, nrows_transpose, Nat.mul_comm]
  exact hp.elements

theorem roomy_scalar : scalar.Roomy := ⟨by decide, by decide, by decide⟩

theorem shape_dense (nrows ncols : Nat) : (dense nrows ncols).shape = (nrows, ncols) := by
  rw [shape, nrows_dense, ncols_dense]

theorem shape_product (p q : Pattern) : (p.product q).shape = (p.nrows, q.ncols) := by
  simp [shape, ncols, product]

/-! A table that is asked for is there if there is room. If it is not there, it is too large. -/

variable {room : Prop}

theorem denseOf_cases (hp : room → p.Roomy) :
    denseOf p.nrows p.ncols = .ok (dense p.nrows p.ncols) ∨
      denseOf p.nrows p.ncols = .error .tooLarge ∧ ¬ room := by
  rw [denseOf]
  split
  · exact .inl rfl
  · rename_i hlarge
    exact .inr ⟨rfl, fun hroom =>
      hlarge ⟨(hp hroom).columns, Nat.lt_of_succ_lt (hp hroom).elements⟩⟩

theorem transposeOf_cases (hp : room → p.Roomy) :
    p.transposeOf = .ok p.transpose ∨ p.transposeOf = .error .tooLarge ∧ ¬ room := by
  rw [transposeOf]
  split
  · exact .inl rfl
  · rename_i hlarge
    exact .inr ⟨rfl, fun hroom => hlarge (hp hroom).rows⟩

theorem productOf_cases (hp : room → p.Roomy) (hfit : p.ncols = q.nrows) :
    p.productOf q = .ok (p.product q) ∨ p.productOf q = .error .tooLarge ∧ ¬ room := by
  rw [productOf, if_neg (not_not.mpr hfit)]
  split
  · rename_i hlarge
    exact .inr ⟨rfl, fun hroom => by have := (hp hroom).rows; omega⟩
  · exact .inl rfl

end Pattern

/-- All patterns have room, those of the outputs of embedded routines as well. -/
structure MatrixGraph.Roomy (g : MatrixGraph) : Prop where
  patterns : ∀ e p, g.pattern? e = some p → p.Roomy
  outputs : ∀ e r arguments o, g.node? e = some (.call r arguments o) →
    ∀ p ∈ r.outPatterns, p.Roomy

/-- The outputs of a routine have room, if the node embeds one. -/
def MatrixNode.Roomy (n : MatrixNode) : Prop :=
  ∀ r arguments o, n = .call r arguments o → ∀ p ∈ r.outPatterns, p.Roomy

namespace MatrixGraph

variable {g h : MatrixGraph}

theorem Roomy.of_entries (hg : g.Roomy) (hentries : h.entries = g.entries) : h.Roomy where
  patterns e p hp := hg.patterns e p (by rwa [pattern?, hentries] at hp)
  outputs e r arguments o hn := hg.outputs e r arguments o (by rwa [node?, hentries] at hn)

theorem Roomy.intern (hg : g.Roomy) {n : MatrixNode} {p : Pattern} (hp : p.Roomy) (hn : n.Roomy)
    (hk : ∀ a ∈ n.operands, a.index < g.entries.size) : (g.intern ⟨n, p⟩ hk).2.Roomy := by
  rw [MatrixGraph.intern]
  split
  · exact hg
  · refine ⟨fun e q hq => ?_, fun e r arguments o he => ?_⟩
    · rw [pattern?, entry_push] at hq
      split at hq
      · exact Option.some.inj hq ▸ hp
      · exact hg.patterns e q hq
    · rw [node?, entry_push] at he
      split at he
      · exact hn r arguments o (Option.some.inj he)
      · exact hg.outputs e r arguments o he

end MatrixGraph

/-- An operation on two elements has a pattern if their shapes fit and there is room. -/
theorem elementwisePattern_cases {room : Prop} (op : BinaryOp) {pa pb : Pattern}
    (ha : room → pa.Roomy) (hb : room → pb.Roomy)
    (hfit : pa.shape = pb.shape ∨ pa.isScalar = true ∨ pb.isScalar = true) :
    (∃ p, elementwisePattern op pa pb = .ok p) ∨
      elementwisePattern op pa pb = .error .tooLarge ∧ ¬ room := by
  have hfull : ∀ {p : Pattern}, (room → p.Roomy) →
      (∃ q, Pattern.denseOf p.nrows p.ncols = .ok q) ∨
        Pattern.denseOf p.nrows p.ncols = .error .tooLarge ∧ ¬ room :=
    fun hp => (Pattern.denseOf_cases hp).imp (fun h => ⟨_, h⟩) id
  rw [elementwisePattern]
  dsimp only
  split
  · split
    · exact hfull ha
    · split <;> exact .inl ⟨_, rfl⟩
  · rename_i hshape
    split
    · split
      · exact .inl ⟨_, rfl⟩
      · exact hfull hb
    · rename_i hscalar
      rw [if_pos ((hfit.resolve_left hshape).resolve_left hscalar)]
      split
      · exact .inl ⟨_, rfl⟩
      · exact hfull ha

namespace MatrixBuilder

variable {α β σ : Type} {g : MatrixGraph} {room : Prop}

/-! ### Requests one after another -/

/-- From a well-typed graph the request succeeds if there is room. If there is none it may fail, but
only for a table that is too large. A request that succeeds leaves a graph that has grown and is well
typed, and `Q` holds of the result and the new graph. -/
def Granted (room : Prop) (x : MatrixBuilder α) (g : MatrixGraph) (Q : α → MatrixGraph → Prop) : Prop :=
  g.WellTyped →
    match x g with
    | .ok a h => g.Grows h ∧ h.WellTyped ∧ Q a h
    | .error e _ => e = .tooLarge ∧ ¬ room

theorem granted_pure {a : α} {Q : α → MatrixGraph → Prop} (ha : Q a g) : Granted room (pure a) g Q :=
  fun hg => ⟨.refl g, hg, ha⟩

/-- A request that always succeeds is granted. -/
theorem Yields.granted {x : MatrixBuilder α} {Q : α → MatrixGraph → Prop} (hx : Yields x g Q) :
    Granted room x g Q := by
  intro hg
  obtain ⟨a, h, hrun, hkept⟩ := hx hg
  rw [hrun]
  exact hkept

/-- With room, a request that is granted succeeds. -/
theorem Granted.yields {x : MatrixBuilder α} {Q : α → MatrixGraph → Prop} (hx : Granted room x g Q)
    (hroom : room) : Yields x g Q := by
  intro hg
  have hrun := hx hg
  cases hxg : x g with
  | ok a h =>
    rw [hxg] at hrun
    exact ⟨a, h, rfl, hrun⟩
  | error e h =>
    rw [hxg] at hrun
    exact absurd hroom hrun.2

/-- A request that is granted fails for a table that is too large, if at all. -/
theorem Granted.eq_tooLarge {x : MatrixBuilder α} {Q : α → MatrixGraph → Prop}
    (hx : Granted room x g Q) (hg : g.WellTyped) {e : Error} {h : MatrixGraph}
    (hrun : x g = .error e h) : e = .tooLarge := by
  have hgranted := hx hg
  rw [hrun] at hgranted
  exact hgranted.1

theorem Granted.imp {x : MatrixBuilder α} {Q R : α → MatrixGraph → Prop} (hx : Granted room x g Q)
    (himp : ∀ a h, g.Grows h → Q a h → R a h) : Granted room x g R := by
  intro hg
  have hrun := hx hg
  cases hxg : x g with
  | ok a h =>
    rw [hxg] at hrun
    exact ⟨hrun.1, hrun.2.1, himp a h hrun.1 hrun.2.2⟩
  | error e h =>
    rw [hxg] at hrun
    exact hrun

/-- What a request is known to keep is known of it when it is granted. -/
theorem Granted.and_keeps {x : MatrixBuilder α} {Q R : α → MatrixGraph → Prop}
    (hx : Granted room x g Q) (hR : Keeps x g R) : Granted room x g fun a h => Q a h ∧ R a h := by
  intro hg
  have hrun := hx hg
  have hkept := hR hg
  cases hxg : x g with
  | ok a h =>
    rw [hxg] at hrun hkept
    exact ⟨hrun.1, hrun.2.1, hrun.2.2, hkept.2.2⟩
  | error e h =>
    rw [hxg] at hrun
    exact hrun

theorem Granted.bind {x : MatrixBuilder α} {f : α → MatrixBuilder β} {Q : α → MatrixGraph → Prop}
    {R : β → MatrixGraph → Prop} (hx : Granted room x g Q)
    (hf : ∀ a h, g.Grows h → Q a h → Granted room (f a) h R) : Granted room (x >>= f) g R := by
  intro hg
  have hrun := hx hg
  cases hxg : x g with
  | ok a h =>
    rw [hxg] at hrun
    obtain ⟨hgrow, hh, ha⟩ := hrun
    have hbind : (x >>= f) g = f a h := by simp only [Bind.bind, EStateM.bind, hxg]
    have hrun' := hf a h hgrow ha hh
    rw [hbind]
    cases hfh : f a h with
    | ok b k =>
      rw [hfh] at hrun'
      exact ⟨hgrow.trans hrun'.1, hrun'.2⟩
    | error e k =>
      rw [hfh] at hrun'
      exact hrun'
  | error e h =>
    rw [hxg] at hrun
    have hbind : (x >>= f) g = .error e h := by simp only [Bind.bind, EStateM.bind, hxg]
    rw [hbind]
    exact hrun

theorem granted_get_bind {f : MatrixGraph → MatrixBuilder β} {Q : β → MatrixGraph → Prop}
    (hf : Granted room (f g) g Q) : Granted room (get >>= f) g Q :=
  hf

theorem granted_tooLarge_bind {x : Except Error α} {f : α → MatrixBuilder β}
    {Q : β → MatrixGraph → Prop} (hx : x = .error .tooLarge) (hroom : ¬ room) :
    Granted room (ofExcept x >>= f) g Q := by
  rw [hx]
  exact fun _ => ⟨rfl, hroom⟩

theorem granted_ofExcept_bind {x : Except Error α} {a : α} {f : α → MatrixBuilder β}
    {Q : β → MatrixGraph → Prop} (hx : x = .ok a ∨ x = .error .tooLarge ∧ ¬ room)
    (hf : Granted room (f a) g Q) : Granted room (ofExcept x >>= f) g Q := by
  rcases hx with hx | ⟨hx, hroom⟩
  · rw [hx]
    exact hf
  · exact granted_tooLarge_bind hx hroom

/-- A request that is granted in a graph with room leaves room. -/
def Fulfills (room : Prop) (x : MatrixBuilder α) (g : MatrixGraph) (Q : α → MatrixGraph → Prop) :
    Prop :=
  (room → g.Roomy) → Granted room x g fun a h => (room → h.Roomy) ∧ Q a h

/-- With room, a request that is granted succeeds and leaves room. -/
theorem Fulfills.yields {x : MatrixBuilder α} {Q : α → MatrixGraph → Prop}
    (hx : Fulfills True x g Q) (hg : g.Roomy) : Yields x g fun a h => h.Roomy ∧ Q a h :=
  ((hx fun _ => hg).yields trivial).imp fun _ _ _ ha => ⟨ha.1 trivial, ha.2⟩

theorem fulfills_of_yields {x : MatrixBuilder α} {Q : α → MatrixGraph → Prop}
    (hx : (room → g.Roomy) → Yields x g fun a h => (room → h.Roomy) ∧ Q a h) : Fulfills room x g Q :=
  fun hg => (hx hg).granted

theorem fulfills_pure {a : α} {Q : α → MatrixGraph → Prop} (ha : Q a g) : Fulfills room (pure a) g Q :=
  fun hg => granted_pure ⟨hg, ha⟩

theorem Fulfills.imp {x : MatrixBuilder α} {Q R : α → MatrixGraph → Prop} (hx : Fulfills room x g Q)
    (himp : ∀ a h, g.Grows h → Q a h → R a h) : Fulfills room x g R :=
  fun hg => (hx hg).imp fun a h hgrow ha => ⟨ha.1, himp a h hgrow ha.2⟩

theorem Fulfills.and_keeps {x : MatrixBuilder α} {Q R : α → MatrixGraph → Prop}
    (hx : Fulfills room x g Q) (hR : Keeps x g R) : Fulfills room x g fun a h => Q a h ∧ R a h :=
  fun hg => ((hx hg).and_keeps hR).imp fun _ _ _ ha => ⟨ha.1.1, ha.1.2, ha.2⟩

theorem Fulfills.bind {x : MatrixBuilder α} {f : α → MatrixBuilder β} {Q : α → MatrixGraph → Prop}
    {R : β → MatrixGraph → Prop} (hx : Fulfills room x g Q)
    (hf : ∀ a h, g.Grows h → Q a h → Fulfills room (f a) h R) : Fulfills room (x >>= f) g R :=
  fun hg => (hx hg).bind fun a h hgrow ha => hf a h hgrow ha.2 ha.1

/-- A request may rely on its graph being well typed and having room if there is room. -/
theorem fulfills_of_graph {x : MatrixBuilder α} {Q : α → MatrixGraph → Prop}
    (hx : g.WellTyped → (room → g.Roomy) → Fulfills room x g Q) : Fulfills room x g Q :=
  fun hg hw => hx hw hg hg hw

theorem fulfills_get_bind {f : MatrixGraph → MatrixBuilder β} {Q : β → MatrixGraph → Prop}
    (hf : Fulfills room (f g) g Q) : Fulfills room (get >>= f) g Q :=
  hf

theorem fulfills_ofExcept_bind {x : Except Error α} {a : α} {f : α → MatrixBuilder β}
    {Q : β → MatrixGraph → Prop} (hx : x = .ok a ∨ x = .error .tooLarge ∧ ¬ room)
    (hf : Fulfills room (f a) g Q) : Fulfills room (ofExcept x >>= f) g Q :=
  fun hg => granted_ofExcept_bind hx (hf hg)

theorem fulfills_patternOf_bind {e : MatrixId} {p : Pattern} {f : Pattern → MatrixBuilder β}
    {Q : β → MatrixGraph → Prop} (hp : g.pattern? e = some p)
    (hf : (room → p.Roomy) → Fulfills room (f p) g Q) : Fulfills room (patternOf e >>= f) g Q := by
  have hbind : (patternOf e >>= f) g = f p g := by
    simp only [Bind.bind, EStateM.bind, patternOf_of_some hp]
  intro hg hw
  rw [hbind]
  exact hf (fun hroom => (hg hroom).patterns e p hp) hg hw

theorem fulfills_nodeOf_bind {e : MatrixId} {n : MatrixNode} {f : MatrixNode → MatrixBuilder β}
    {Q : β → MatrixGraph → Prop} (hn : g.node? e = some n) (hf : Fulfills room (f n) g Q) :
    Fulfills room (nodeOf e >>= f) g Q := by
  have hbind : (nodeOf e >>= f) g = f n g := by
    simp only [Bind.bind, EStateM.bind, nodeOf_of_some hn]
  intro hg hw
  rw [hbind]
  exact hf hg hw

/-- A fold succeeds if each of its steps does and keeps what the next one needs. -/
theorem Fulfills.foldlM {S : σ → MatrixGraph → Prop} {f : σ → α → MatrixBuilder σ} {as : List α}
    (step : ∀ s h, ∀ a ∈ as, g.Grows h → S s h → Fulfills room (f s a) h S) {s : σ} (hs : S s g) :
    Fulfills room (as.foldlM f s) g S := by
  induction as generalizing g s with
  | nil => exact fulfills_pure hs
  | cons a rest ih =>
    rw [List.foldlM_cons]
    refine (step s g a (List.mem_cons_self ..) (.refl g) hs).bind fun s' h hgh hs' => ?_
    exact ih (fun t k b hb hhk => step t k b (List.mem_cons_of_mem _ hb) (hgh.trans hhk)) hs'

/-- Results are made one after another if each can be. -/
theorem Fulfills.mapM {S : β → MatrixGraph → Prop} {f : α → MatrixBuilder β} {as : List α}
    (hS : Lasts S) (step : ∀ a ∈ as, ∀ h, g.Grows h → Fulfills room (f a) h S) :
    Fulfills room (as.mapM f) g fun bs h => bs.length = as.length ∧ ∀ b ∈ bs, S b h := by
  induction as generalizing g with
  | nil =>
    rw [List.mapM_nil]
    exact fulfills_pure ⟨rfl, by simp⟩
  | cons a rest ih =>
    rw [List.mapM_cons]
    refine (step a (List.mem_cons_self ..) g (.refl g)).bind fun b h hgh hb => ?_
    refine (ih fun c hc k hhk => step c (List.mem_cons_of_mem _ hc) k (hgh.trans hhk)).bind
      fun bs k hhk hbs => fulfills_pure ⟨congrArg Nat.succ hbs.1, ?_⟩
    exact List.forall_mem_cons.mpr ⟨hS b h k hhk hb, hbs.2⟩

/-- Directions are treated in turn if each can be, and what is handed on is as the next one needs. -/
theorem Fulfills.inTurn {M : σ → MatrixGraph → Prop} {P : α → MatrixGraph → Prop}
    {S : β → MatrixGraph → Prop} {f : σ → α → MatrixBuilder (σ × β)} (hP : Lasts P) (hS : Lasts S)
    (step : ∀ s a h, g.Grows h → M s h → P a h → Fulfills room (f s a) h fun r k => M r.1 k ∧ S r.2 k)
    {s : σ} (hs : M s g) {as : List α} (has : ∀ a ∈ as, P a g) :
    Fulfills room (Fluxion.inTurn f s as) g fun bs h => bs.length = as.length ∧ ∀ b ∈ bs, S b h := by
  induction as generalizing g s with
  | nil => exact fulfills_pure ⟨rfl, by simp⟩
  | cons a rest ih =>
    obtain ⟨ha, hrest⟩ := List.forall_mem_cons.mp has
    refine (step s a g (.refl g) hs ha).bind fun r h hgh hr => ?_
    refine (ih (fun t b k hhk => step t b k (hgh.trans hhk)) hr.1
      fun b hb => hP b g h hgh (hrest b hb)).bind fun bs k hhk hbs =>
        fulfills_pure ⟨congrArg Nat.succ hbs.1, ?_⟩
    exact List.forall_mem_cons.mpr ⟨hS r.2 h k hhk hr.2, hbs.2⟩

theorem Fulfills.onDemand {made : Option α} {make : MatrixBuilder α} {Q : α → MatrixGraph → Prop}
    (hmade : ∀ a ∈ made, Q a g) (hmake : Fulfills room make g Q) :
    Fulfills room (Fluxion.onDemand made make) g Q := by
  cases made with
  | some a => exact fulfills_pure (hmade a rfl)
  | none => exact hmake

/-! ### Nodes -/

variable {a b e : MatrixId} {p q : Pattern}

/-- A typed node is added if its pattern has room. -/
theorem fulfills_intern {n : MatrixNode} (hn : n.Typed g p) (hp : room → p.Roomy)
    (hroomy : room → n.Roomy) : Fulfills room (intern n p) g (On p) := by
  refine fulfills_of_yields fun hg hw => ?_
  have hk : ∀ a ∈ n.operands, a.index < g.entries.size := hn.operands_lt
  have hrun : intern n p g = .ok (g.intern ⟨n, p⟩ hk).1 (g.intern ⟨n, p⟩ hk).2 := by
    rw [intern, dif_pos hk]
  obtain ⟨hgrow, hh, -, hon⟩ := MatrixGraph.wellTyped_intern hw hn hk
  exact ⟨_, _, hrun, hgrow, hh, fun hroom => (hg hroom).intern (hp hroom) (hroomy hroom) hk, hon⟩

theorem fulfills_rememberFolds (folds : List Fold) :
    Fulfills room (rememberFolds folds) g Something := by
  refine fulfills_of_yields fun hg hw => ?_
  have hgrow : g.Grows { g with folds := folds.reverse ++ g.folds } :=
    ⟨rfl, id, id, List.suffix_append _ _, List.suffix_rfl⟩
  exact ⟨(), _, rfl, hgrow, hw.of_entries hgrow rfl, fun hroom => (hg hroom).of_entries rfl,
    trivial⟩

theorem fulfills_rememberDerived (id : FunctionId) :
    Fulfills room (rememberDerived id) g Something := by
  refine fulfills_of_yields fun hg hw => ?_
  have hgrow : g.Grows { g with derived := id :: g.derived } :=
    ⟨rfl, fun h => h, fun h => h, List.suffix_rfl, List.suffix_cons id g.derived⟩
  exact ⟨(), _, rfl, hgrow, hw.of_entries hgrow rfl, fun hroom => (hg hroom).of_entries rfl,
    trivial⟩

/-! ### Constants and rearrangements -/

theorem fulfills_constant {m : SparseMatrix Binary64} (hm : room → m.pattern.Roomy) :
    Fulfills room (constant m) g (On m.pattern) :=
  fulfills_intern (.constant m) hm (by simp [MatrixNode.Roomy])

theorem fulfills_fill (hp : room → p.Roomy) (v : Binary64) : Fulfills room (fill p v) g (On p) :=
  fulfills_constant hp

/-- A gather of what is there gives back an expression or adds a node. -/
theorem gather_eq {arguments : List MatrixId} {map : GatherMap} (hlength : map.length = p.nnz)
    (hmap : g.Reaches arguments map) :
    (∃ e, On p e g ∧ gather arguments map p g = .ok e g) ∨
      ∃ n, n.Typed g p ∧ n.Roomy ∧ gather arguments map p g = intern n p g := by
  rcases gather_cases hmap p with ⟨-, hrun⟩ | ⟨a, -, ha, -, hrun⟩ | hrun
  · exact .inr ⟨_, .constant (.tabulate p fun _ => 0.0), by simp [MatrixNode.Roomy], hrun⟩
  · exact .inl ⟨a, ha, hrun⟩
  · exact .inr ⟨_, .gather (GatherMap.gathers_renumber hlength hmap), by simp [MatrixNode.Roomy],
      hrun⟩

theorem yields_gather {arguments : List MatrixId} {map : GatherMap} (hlength : map.length = p.nnz)
    (hmap : g.Reaches arguments map) : Yields (gather arguments map p) g (On p) := by
  rcases gather_eq hlength hmap with ⟨e, he, hrun⟩ | ⟨n, hn, -, hrun⟩
  · exact fun hg => ⟨e, g, hrun, .refl g, hg, he⟩
  · intro hg
    rw [hrun]
    exact (yields_intern hn).imp (fun _ _ _ h => h.2) hg

theorem fulfills_gather {arguments : List MatrixId} {map : GatherMap} (hp : room → p.Roomy)
    (hlength : map.length = p.nnz) (hmap : g.Reaches arguments map) :
    Fulfills room (gather arguments map p) g (On p) := by
  rcases gather_eq hlength hmap with ⟨e, he, hrun⟩ | ⟨n, hn, hroomy, hrun⟩
  · exact fulfills_of_yields fun hg hw => ⟨e, g, hrun, .refl g, hw, hg, he⟩
  · intro hg hw
    rw [hrun]
    exact fulfills_intern hn hp (fun _ => hroomy) hg hw

theorem fulfills_scatter {map : ScatterMap} (hp : room → p.Roomy) (ha : g.pattern? a = some q)
    (hlength : map.length = q.nnz) (htargets : ∀ k, some k ∈ map → k < p.nnz) :
    Fulfills room (scatter a map p) g (On p) := by
  rw [scatter]
  split
  · exact fulfills_fill hp 0.0
  · exact fulfills_intern (.scatter ha hlength htargets) hp (by simp [MatrixNode.Roomy])

theorem fulfills_gather_locate (ha : g.pattern? a = some q) (hp : room → p.Roomy) :
    Fulfills room (gather [a] (.ofSources (q.locate p)) p) g (On p) :=
  fulfills_gather hp (by simp [GatherMap.ofSources]) (GatherMap.reaches_ofSources ha fun _ hk =>
    Pattern.lt_nnz_of_mem_locate hk)

/-- The result is on a pattern of this shape. -/
def Shaped (s : Shape) (e : MatrixId) (g : MatrixGraph) : Prop :=
  ∃ q, g.pattern? e = some q ∧ q.shape = s

/-- The result is on a pattern of this shape, or is 1x1. -/
def Spans (s : Shape) (e : MatrixId) (g : MatrixGraph) : Prop :=
  ∃ q, g.pattern? e = some q ∧ (q.shape = s ∨ q.isScalar = true)

theorem On.shaped (he : On p e g) : Shaped p.shape e g := ⟨p, he, rfl⟩

theorem Shaped.spans {s : Shape} (he : Shaped s e g) : Spans s e g := by
  obtain ⟨q, hq, hshape⟩ := he
  exact ⟨q, hq, .inl hshape⟩

theorem spans_scalar (s : Shape) (he : On .scalar e g) : Spans s e g := ⟨_, he, .inr (by decide)⟩

theorem lasts_shaped (s : Shape) : Lasts (Shaped s) := by
  rintro e g h hgrow ⟨q, hq, hshape⟩
  exact ⟨q, hgrow.pattern? hq, hshape⟩

theorem lasts_spans (s : Shape) : Lasts (Spans s) := by
  rintro e g h hgrow ⟨q, hq, hshape⟩
  exact ⟨q, hgrow.pattern? hq, hshape⟩

theorem fulfills_project (ha : Shaped p.shape a g) (hp : room → p.Roomy) :
    Fulfills room (project a p) g (On p) := by
  obtain ⟨q, hq, hshape⟩ := ha
  refine fulfills_patternOf_bind hq fun _ => ?_
  rw [if_neg (not_not.mpr hshape)]
  split
  · rename_i hsame
    exact fulfills_pure (hsame ▸ hq)
  · exact fulfills_gather_locate hq hp

theorem fulfills_densify (ha : g.pattern? a = some q) :
    Fulfills room (densify a) g (On (.dense q.nrows q.ncols)) := by
  refine fulfills_patternOf_bind ha fun hroomy => ?_
  refine fulfills_ofExcept_bind (Pattern.denseOf_cases hroomy) ?_
  exact fulfills_gather_locate ha fun hroom => (hroomy hroom).of_shape (Pattern.shape_dense ..)

theorem fulfills_densify_scalar (ha : g.pattern? a = some q) (hscalar : q.isScalar = true) :
    Fulfills room (densify a) g (On .scalar) :=
  ((fulfills_densify ha).and_keeps (keeps_densify_scalar ha hscalar)).imp fun _ _ _ he => he.2

theorem fulfills_broadcast (ha : Spans p.shape a g) (hp : room → p.Roomy) :
    Fulfills room (broadcast a p) g (On p) := by
  obtain ⟨q, hq, hshape⟩ := ha
  refine fulfills_patternOf_bind hq fun _ => ?_
  split
  · rename_i hsame
    exact fulfills_project ⟨q, hq, hsame⟩ hp
  · rename_i hdiffers
    have hscalar := hshape.resolve_left hdiffers
    rw [if_pos hscalar]
    refine (fulfills_densify_scalar hq hscalar).bind fun e h _ he => ?_
    refine fulfills_gather hp (List.length_replicate ..) fun i k hik => ?_
    obtain ⟨rfl, rfl⟩ := Prod.mk.inj (Option.some.inj (List.eq_of_mem_replicate hik))
    exact ⟨e, .scalar, rfl, he, by decide⟩

theorem fulfills_transpose (ha : g.pattern? a = some q) :
    Fulfills room (transpose a) g (On q.transpose) := by
  refine fulfills_patternOf_bind ha fun hroomy => ?_
  refine fulfills_ofExcept_bind (Pattern.transposeOf_cases hroomy) ?_
  refine fulfills_gather (fun hroom => (hroomy hroom).transpose)
    (by simp [GatherMap.ofSources, Pattern.length_transposeMap])
    (GatherMap.reaches_ofSources ha fun k hk => ?_)
  obtain ⟨l, hl, heq⟩ := List.mem_map.mp hk
  obtain rfl := Option.some.inj heq
  exact Pattern.lt_nnz_of_mem_transposeMap hl

theorem fulfills_sum (ha : g.pattern? a = some q) : Fulfills room (sum a) g (On .scalar) := by
  refine fulfills_patternOf_bind ha fun _ => ?_
  refine fulfills_scatter (fun _ => Pattern.roomy_scalar) ha (List.length_replicate ..) fun k hk => ?_
  obtain rfl := Option.some.inj (List.eq_of_mem_replicate hk)
  decide

/-! ### Operations -/

theorem fulfills_unaryStored {op : UnaryOp} (ha : g.pattern? a = some p)
    (hdense : op.keepsZero = false → p.isDense = true) :
    Fulfills room (unaryStored op a) g (On p) := by
  refine fulfills_of_graph fun hw _ => ?_
  refine fulfills_patternOf_bind ha fun hroomy => fulfills_get_bind ?_
  split
  · rename_i m hm
    obtain rfl := pattern_of_constant? hw hm ha
    exact (fulfills_rememberFolds _).bind fun _ h _ _ => fulfills_constant hroomy
  · exact fulfills_intern (.unary ha hdense) hroomy (by simp [MatrixNode.Roomy])

theorem fulfills_unary (op : UnaryOp) {s : Shape} (ha : Shaped s a g) :
    Fulfills room (unary op a) g (Shaped s) := by
  obtain ⟨q, hq, rfl⟩ := ha
  rw [unary_eq]
  split
  · rename_i hkeeps
    rw [pure_bind]
    exact (fulfills_unaryStored hq fun h => absurd hkeeps (by simp [h])).imp fun e h _ he => he.shaped
  · refine (fulfills_densify hq).bind fun b h _ hb => ?_
    exact (fulfills_unaryStored hb fun _ => Pattern.isDense_dense _ _).imp fun e k _ he =>
      ⟨_, he, Pattern.shape_dense ..⟩

theorem fulfills_operandFor {own other : Pattern} (he : g.pattern? e = some own) (hp : room → p.Roomy)
    (hfit : own.shape = other.shape ∨ own.isScalar = false → own.shape = p.shape) :
    Fulfills room (operandFor e own other p) g (Prepared own other p) := by
  refine Fulfills.imp (Q := fun d h => True ∧ Prepared own other p d h) ?_ fun _ _ _ hd => hd.2
  refine Fulfills.and_keeps ?_ (keeps_operandFor he)
  rw [operandFor]
  split
  · rename_i hproject
    have hproject : own.shape = other.shape ∨ own.isScalar = false := by simpa using hproject
    exact (fulfills_project ⟨own, he, hfit hproject⟩ hp).imp fun _ _ _ _ => trivial
  · exact (fulfills_densify he).imp fun _ _ _ _ => trivial

/-- **Operations on elements** succeed if the shapes fit: they are the same, or one operand is
repeated. -/
theorem fulfills_binary (op : BinaryOp) {pa pb : Pattern} (ha : g.pattern? a = some pa)
    (hb : g.pattern? b = some pb)
    (hfit : pa.shape = pb.shape ∨ pa.isScalar = true ∨ pb.isScalar = true) :
    Fulfills room (binary op a b) g (Shaped (if pa.isScalar then pb.shape else pa.shape)) := by
  refine fulfills_patternOf_bind ha fun hpa => fulfills_patternOf_bind hb fun hpb => ?_
  rcases elementwisePattern_cases op hpa hpb hfit with ⟨p, hp⟩ | ⟨hp, hroom⟩
  · obtain ⟨hshape, -⟩ := elementwisePattern_shape hp
    have hroomy : room → p.Roomy := by
      intro hroom
      cases hscalar : pa.isScalar with
      | true => exact (hpb hroom).of_shape (by rw [hshape, hscalar, if_pos rfl])
      | false => exact (hpa hroom).of_shape (by rw [hshape, hscalar, if_neg Bool.false_ne_true])
    refine fulfills_ofExcept_bind (.inl hp) ?_
    refine (fulfills_operandFor ha hroomy (elementwisePattern_left hp).mpr).bind
      fun a' h hgh ha' => ?_
    refine (fulfills_operandFor (hgh.pattern? hb) hroomy (elementwisePattern_right hp).mpr).bind
      fun b' k hhk hb' => fulfills_get_bind (fulfills_get_bind ?_)
    have ha' := ha'.grow hhk
    refine Fulfills.imp (Q := On p) ?_ fun e l _ he => ⟨p, he, hshape⟩
    split
    · exact (fulfills_rememberFolds _).bind fun _ l _ _ => fulfills_constant hroomy
    · exact fulfills_intern (.binary ha'.fits hb'.fits (ha'.on hb')) hroomy
        (by simp [MatrixNode.Roomy])
  · exact fun _ => granted_tooLarge_bind hp hroom

theorem fulfills_binary_spans (op : BinaryOp) {s : Shape} (ha : Spans s a g) (hb : Spans s b g) :
    Fulfills room (binary op a b) g (Spans s) := by
  obtain ⟨pa, hpa, ha⟩ := ha
  obtain ⟨pb, hpb, hb⟩ := hb
  have hfit : pa.shape = pb.shape ∨ pa.isScalar = true ∨ pb.isScalar = true := by
    rcases ha with rfl | ha
    · exact hb.imp Eq.symm .inr
    · exact .inr (.inl ha)
  refine (fulfills_binary op hpa hpb hfit).imp fun e h _ he => ?_
  obtain ⟨q, hq, hshape⟩ := he
  refine ⟨q, hq, ?_⟩
  rw [Pattern.isScalar, beq_iff_eq, hshape]
  split
  · exact hb.imp id fun hb => by simpa [Pattern.isScalar] using hb
  · rename_i hscalar
    exact .inl (ha.resolve_right hscalar)

/-- With one operand of the shape, the result has the shape. -/
theorem fulfills_binary_shaped (op : BinaryOp) {s : Shape} (ha : Spans s a g) (hb : Shaped s b g) :
    Fulfills room (binary op a b) g (Shaped s) := by
  obtain ⟨pa, hpa, ha⟩ := ha
  obtain ⟨pb, hpb, rfl⟩ := hb
  refine (fulfills_binary op hpa hpb (ha.imp id .inl)).imp fun e h _ he => ?_
  obtain ⟨q, hq, hshape⟩ := he
  refine ⟨q, hq, hshape.trans ?_⟩
  split
  · rfl
  · rename_i hscalar
    exact ha.resolve_right hscalar

theorem fulfills_product {pa pb : Pattern} (ha : g.pattern? a = some pa) (hb : g.pattern? b = some pb)
    (hfit : pa.ncols = pb.nrows) (hroomy : room → (pa.product pb).Roomy) :
    Fulfills room (product a b) g (On (pa.product pb)) := by
  refine fulfills_patternOf_bind ha fun hpa => fulfills_patternOf_bind hb fun _ => ?_
  rw [if_neg (not_not.mpr hfit)]
  refine fulfills_ofExcept_bind (Pattern.productOf_cases hpa hfit) ?_
  exact fulfills_intern (.product ha hb hfit) hroomy (by simp [MatrixNode.Roomy])

theorem fulfills_callOutput {r : Routine} {arguments : List MatrixId} {o : Nat}
    (harguments : arguments.map g.pattern? = r.inPatterns.map some)
    (ho : r.outPatterns[o]? = some p) (hroomy : room → ∀ q ∈ r.outPatterns, q.Roomy) :
    Fulfills room (callOutput r arguments o) g (On p) := by
  have hp : r.outPattern o = p := by rw [Routine.outPattern, List.getD_eq_getElem?_getD, ho]; rfl
  rw [callOutput, hp]
  refine fulfills_intern (.call harguments ho) (fun hroom => hroomy hroom p (List.mem_of_getElem? ho)) ?_
  rintro hroom s as k hcall
  obtain ⟨rfl, -, -⟩ := MatrixNode.call.inj hcall
  exact hroomy hroom

end MatrixBuilder

end Fluxion
