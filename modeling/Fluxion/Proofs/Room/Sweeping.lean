import Fluxion.Proofs.Jacobian.Routines
import Fluxion.Proofs.Matrix.Order
import Fluxion.Proofs.Matrix.Sweeping
import Fluxion.Proofs.Room.Building

/-!
# Sweeps in graphs with room

Every derivative is on the pattern of its expression, so what a sweep makes for a node has the shapes
that the typing rule of the node allows: a partial derivative has the shape of the result or is 1x1,
its product with a derivative of the shape has the shape, and a product with a transposed factor has
the shape of the other factor. Derivative functions of routines can always be made. So a sweep over a
tape succeeds if its seeds have the shapes of the inputs or outputs that they are for, and there is
room.

## Main definitions

* `MatrixTape.Seeds` — seeds that have the shapes of the expressions that they are for

## Main results

* `MatrixBuilder.fulfills_unaryPartial`, `MatrixBuilder.fulfills_binaryPartial` — partial derivatives
* `MatrixTape.fulfills_forwardNode`, `MatrixTape.fulfills_pull` — one node forward and backward
* `MatrixTape.fulfills_forward`, `MatrixTape.fulfills_reverse` — sweeps
* `MatrixTape.succeeds_forward`, `MatrixTape.succeeds_reverse` — **sweeps succeed** in graphs with room
-/

namespace Fluxion

namespace MatrixGraph

variable {g : MatrixGraph} {e : MatrixId} {p : Pattern}

theorem exists_pattern?_of_index_lt (he : e.index < g.size) : ∃ p, g.pattern? e = some p :=
  ⟨_, Option.map_eq_some_iff.mpr ⟨_, Array.getElem?_eq_getElem he, rfl⟩⟩

end MatrixGraph

/-! ### Partial derivatives -/

namespace MatrixBuilder

variable {g : MatrixGraph} {a b e x y : MatrixId} {p : Pattern} {s : Shape} {room : Prop}

theorem fulfills_scalar (v : Binary64) : Fulfills room (scalar v) g (Spans s) :=
  (fulfills_constant fun _ => Pattern.roomy_scalar).imp fun _ _ _ he => spans_scalar s he

theorem fulfills_unary_spans (op : UnaryOp) (ha : Spans s a g) : Fulfills room (unary op a) g (Spans s) := by
  obtain ⟨q, hq, hshape⟩ := ha
  refine (fulfills_unary op ⟨q, hq, rfl⟩).imp fun e h _ he => ?_
  obtain ⟨r, hr, hsame⟩ := he
  exact ⟨r, hr, by rwa [Pattern.isScalar, hsame]⟩

theorem fulfills_unaryPartial (op : UnaryOp) (hx : Spans s x g) (he : Spans s e g) :
    Fulfills room (unaryPartial elementwiseAlgebra op x e) g (Spans s) := by
  have hreciprocal : ∀ v d, Spans s d g → Fulfills room (do
      let c ← scalar v
      binary .div c d) g (Spans s) := fun v d hd =>
    (fulfills_scalar v).bind fun c h hgh hc =>
      fulfills_binary_spans .div hc (lasts_spans s d g h hgh hd)
  have hsquare : ∀ op, Fulfills room (do
      let one ← scalar 1.0
      let square ← binary .mul e e
      binary op one square) g (Spans s) := by
    intro op
    refine (fulfills_scalar (s := s) 1.0).bind fun one h hgh hone => ?_
    have he := lasts_spans s e g h hgh he
    refine (fulfills_binary_spans .mul he he).bind fun square k hhk hsquare => ?_
    exact fulfills_binary_spans op (lasts_spans s one h k hhk hone) hsquare
  cases op with
  | neg => exact fulfills_scalar _
  | sqrt => exact hreciprocal 0.5 e he
  | sin => exact fulfills_unary_spans .cos hx
  | cos => exact (fulfills_unary_spans .sin hx).bind fun _ _ _ hd => fulfills_unary_spans .neg hd
  | tan => exact hsquare .add
  | exp => exact fulfills_pure he
  | log => exact hreciprocal 1.0 x hx
  | tanh => exact hsquare .sub

theorem fulfills_binaryPartial (op : BinaryOp) (side : Side) (hx : Spans s x g) (hy : Spans s y g)
    (he : Spans s e g) : Fulfills room (binaryPartial elementwiseAlgebra op side x y e) g (Spans s) := by
  cases op with
  | add => exact fulfills_scalar _
  | sub => cases side <;> exact fulfills_scalar _
  | mul =>
    cases side with
    | left => exact fulfills_pure hy
    | right => exact fulfills_pure hx
  | div =>
    cases side with
    | left =>
      exact (fulfills_scalar (s := s) 1.0).bind fun one h hgh hone =>
        fulfills_binary_spans .div hone (lasts_spans s y g h hgh hy)
    | right =>
      exact (fulfills_binary_spans .div he hy).bind fun _ _ _ hd => fulfills_unary_spans .neg hd
  | pow =>
    cases side with
    | left =>
      refine (fulfills_scalar (s := s) 1.0).bind fun one h hgh hone => ?_
      have hy := lasts_spans s y g h hgh hy
      refine (fulfills_binary_spans .sub hy hone).bind fun exponent k hhk hexponent => ?_
      have hx := lasts_spans s x g k (hgh.trans hhk) hx
      refine (fulfills_binary_spans .pow hx hexponent).bind fun power l hkl hpower => ?_
      exact fulfills_binary_spans .mul (lasts_spans s y h l (hhk.trans hkl) hy) hpower
    | right =>
      exact (fulfills_unary_spans .log hx).bind fun l h hgh hl =>
        fulfills_binary_spans .mul (lasts_spans s e g h hgh he) hl

/-- Partial derivatives that have been made have the shape of the result or are 1x1. -/
def Prepares (s : Shape) (made : Option MatrixId) (g : MatrixGraph) : Prop :=
  ∀ d ∈ made, Spans s d g

theorem lasts_prepares (s : Shape) : Lasts (Prepares s) :=
  fun _ g h hgrow hmade d hd => lasts_spans s d g h hgrow (hmade d hd)

theorem prepares_none (s : Shape) (g : MatrixGraph) : Prepares s none g := by
  simp [Prepares]

theorem prepares_some (hd : Spans s e g) : Prepares s (some e) g := by
  rintro d hmem
  obtain rfl := Option.some.inj hmem
  exact hd

theorem fulfills_add (ha : On p a g) (hb : On p b g) : Fulfills room (binary .add a b) g (On p) :=
  ((fulfills_binary .add ha hb (.inl rfl)).and_keeps (keeps_add ha hb)).imp fun _ _ _ he => he.2

/-- Operands that fit into a pattern have its shape or are 1x1. -/
theorem spans_of_fits (ha : g.Fits p a) : Spans p.shape a g := by
  rcases ha with ha | ha
  · exact (On.shaped ha).spans
  · exact spans_scalar p.shape ha

end MatrixBuilder

namespace MatrixTape

open MatrixBuilder Sensitivities

variable {known : Sensitivities} {g : MatrixGraph} {x y a e t s : MatrixId} {p q : Pattern}
  {room : Prop}

/-! ### Forward -/

theorem fulfills_record (hk : known.Typed g) (he : g.pattern? e = some p) (hp : room → p.Roomy)
    (ht : Shaped p.shape t g) : Fulfills room (record e p known t) g Typed :=
  (fulfills_project ht hp).bind fun _ _ hgh hd =>
    fulfills_pure ((hk.grow hgh).note (hgh.pattern? he) hd)

theorem fulfills_pushUnary (hk : known.Typed g) (he : g.pattern? e = some p) (hp : room → p.Roomy)
    (op : UnaryOp) (hx : g.pattern? x = some p) {made : Option MatrixId}
    (hmade : Prepares p.shape made g) :
    Fulfills room (pushUnary op x e p made known) g fun r h => Prepares p.shape r.1 h ∧ Typed r.2 h := by
  rw [pushUnary]
  split
  · exact fulfills_pure ⟨hmade, hk⟩
  · rename_i tx htx
    have htx := hk.on htx hx
    refine (Fulfills.onDemand hmade (fulfills_unaryPartial op (On.shaped hx).spans
      (On.shaped he).spans)).bind fun d h hgh hd => ?_
    refine (fulfills_binary_shaped .mul hd (On.shaped (hgh.pattern? htx))).bind fun t k hhk ht => ?_
    refine (fulfills_broadcast ht.spans hp).bind fun t' l hkl ht' => fulfills_pure ⟨?_, ?_⟩
    · exact prepares_some (lasts_spans _ d h l (hhk.trans hkl) hd)
    · have hgl := (hgh.trans hhk).trans hkl
      exact (hk.grow hgl).note (hgl.pattern? he) ht'

/-- What one operand contributes is on the pattern of the result. -/
theorem fulfills_contribute (hp : room → p.Roomy) (op : BinaryOp) (side : Side) (hx : Spans p.shape x g)
    (hy : Spans p.shape y g) (he : Spans p.shape e g) {made moved sum : Option MatrixId}
    (hmade : Prepares p.shape made g) (hmoved : Prepares p.shape moved g)
    (hsum : ∀ d ∈ sum, On p d g) :
    Fulfills room (contribute op side x y e p made moved sum) g fun r h =>
      Prepares p.shape r.1 h ∧ ∀ d ∈ r.2, On p d h := by
  cases moved with
  | none => exact fulfills_pure ⟨hmade, hsum⟩
  | some t =>
    refine (Fulfills.onDemand hmade (fulfills_binaryPartial op side hx hy he)).bind
      fun d h hgh hd => ?_
    have ht := lasts_spans _ t g h hgh (hmoved t rfl)
    refine (fulfills_binary_spans .mul hd ht).bind fun product k hhk hproduct => ?_
    refine (fulfills_broadcast hproduct hp).bind fun term l hkl hterm => ?_
    have hd := lasts_spans _ d h l (hhk.trans hkl) hd
    cases sum with
    | none =>
      refine fulfills_pure ⟨prepares_some hd, fun d hd => ?_⟩
      exact Option.some.inj hd ▸ hterm
    | some s =>
      have hs := (hsum s rfl).grow ((hgh.trans hhk).trans hkl)
      refine (fulfills_add hs hterm).bind fun total m hlm htotal => fulfills_pure ⟨?_, fun d hd => ?_⟩
      · exact prepares_some (lasts_spans _ d l m hlm hd)
      · exact Option.some.inj hd ▸ htotal

/-- How an operand moves has the shape of the result or is 1x1, as the operand. -/
theorem prepares_of_fits (hk : known.Typed g) (hx : g.Fits p x) :
    Prepares p.shape (known.of? x) g := by
  intro d hd
  exact spans_of_fits (hx.imp (hk.on hd) (hk.on hd))

/-- Partial derivatives of a node that have been made, for both operands. -/
def PreparesBoth (s : Shape) (made : Option MatrixId × Option MatrixId) (g : MatrixGraph) : Prop :=
  Prepares s made.1 g ∧ Prepares s made.2 g

theorem fulfills_pushBinary (hk : known.Typed g) (he : g.pattern? e = some p) (hp : room → p.Roomy)
    (op : BinaryOp) (hx : g.Fits p x) (hy : g.Fits p y) {made : Option MatrixId × Option MatrixId}
    (hmade : PreparesBoth p.shape made g) :
    Fulfills room (pushBinary op x y e p made known) g fun r h =>
      PreparesBoth p.shape r.1 h ∧ Typed r.2 h := by
  rw [pushBinary]
  have hspans := lasts_spans p.shape
  refine (fulfills_contribute hp op .left (spans_of_fits hx) (spans_of_fits hy) (On.shaped he).spans
    hmade.1 (prepares_of_fits hk hx) (fun _ h => by contradiction)).bind fun left h hgh hleft => ?_
  have hmoved := lasts_prepares p.shape _ g h hgh (prepares_of_fits hk hy)
  refine (fulfills_contribute hp op .right (hspans x g h hgh (spans_of_fits hx))
    (hspans y g h hgh (spans_of_fits hy)) (On.shaped (hgh.pattern? he)).spans
    (lasts_prepares p.shape _ g h hgh hmade.2) hmoved hleft.2).bind fun right k hhk hright => ?_
  have hgk := hgh.trans hhk
  have hboth : PreparesBoth p.shape (left.1, right.1) k :=
    ⟨lasts_prepares p.shape _ h k hhk hleft.1, hright.1⟩
  dsimp only
  split
  · exact fulfills_pure ⟨hboth, hk.grow hgk⟩
  · rename_i t ht
    refine (fulfills_record (hk.grow hgk) (hgk.pattern? he) hp (On.shaped (hright.2 t ht))).bind
      fun known l hkl hk => fulfills_pure ⟨⟨?_, ?_⟩, hk⟩
    · exact lasts_prepares p.shape _ k l hkl hboth.1
    · exact lasts_prepares p.shape _ k l hkl hboth.2

theorem fulfills_optional {f : MatrixId → MatrixBuilder MatrixId} {Q : MatrixId → MatrixGraph → Prop}
    {moved : Option MatrixId} (hf : ∀ t ∈ moved, Fulfills room (f t) g Q) :
    Fulfills room (moved.mapM f) g fun d h => ∀ t ∈ d, Q t h := by
  cases moved with
  | none => exact fulfills_pure (by simp)
  | some t =>
    refine (hf t rfl).bind fun d h _ hd => fulfills_pure fun t ht => ?_
    exact Option.some.inj ht ▸ hd

theorem fulfills_pushProduct {px py : Pattern} (hk : known.Typed g) (hx : g.pattern? x = some px)
    (hy : g.pattern? y = some py) (hfit : px.ncols = py.nrows)
    (he : g.pattern? e = some (px.product py)) (hp : room → (px.product py).Roomy) :
    Fulfills room (pushProduct x y e (px.product py) known) g Typed := by
  rw [pushProduct]
  refine (fulfills_optional fun t ht => fulfills_product (hk.on ht hx) hy hfit hp).bind
    fun left h hgh hleft => ?_
  refine (fulfills_optional fun t ht => fulfills_product (hgh.pattern? hx)
    (hgh.pattern? (hk.on ht hy)) hfit hp).bind fun right k hhk hright => ?_
  have hgk := hgh.trans hhk
  split
  · exact fulfills_pure (hk.grow hgk)
  · exact fulfills_record (hk.grow hgk) (hgk.pattern? he) hp
      (On.shaped ((hleft _ rfl).grow hhk))
  · exact fulfills_record (hk.grow hgk) (hgk.pattern? he) hp (On.shaped (hright _ rfl))
  · refine (fulfills_add ((hleft _ rfl).grow hhk) (hright _ rfl)).bind fun t l hkl ht => ?_
    exact fulfills_record ((hk.grow hgk).grow hkl) (hkl.pattern? (hgk.pattern? he)) hp (On.shaped ht)

theorem fulfills_pushGather {arguments : List MatrixId} {map : GatherMap} (hk : known.Typed g)
    (he : g.pattern? e = some p) (hp : room → p.Roomy) (hmap : g.Gathers arguments map p) :
    Fulfills room (pushGather arguments map e p known) g Typed := by
  rw [pushGather]
  dsimp only
  split
  · exact fulfills_pure hk
  · refine (fulfills_fill (fun _ => Pattern.roomy_scalar) 0.0).bind fun zero h hgh _ => ?_
    have hreaches := reaches_moved (hk.grow hgh) (hmap.reaches.grow hgh.pattern?) zero
    refine (fulfills_gather hp ((List.length_map _).trans hmap.length) hreaches).bind
      fun t k hhk ht => ?_
    have hgk := hgh.trans hhk
    exact fulfills_pure ((hk.grow hgk).note (hgk.pattern? he) ht)

theorem fulfills_pushScatter {map : ScatterMap} (hk : known.Typed g) (he : g.pattern? e = some p)
    (hp : room → p.Roomy) (ha : g.pattern? a = some q) (hlength : map.length = q.nnz)
    (htargets : ∀ k, some k ∈ map → k < p.nnz) :
    Fulfills room (match known.of? a with
      | none => pure known
      | some t => return known.note e (← scatter t map p)) g Typed := by
  split
  · exact fulfills_pure hk
  · rename_i t ht
    refine (fulfills_scatter hp (hk.on ht ha) hlength htargets).bind fun s h hgh hs => ?_
    exact fulfills_pure ((hk.grow hgh).note (hgh.pattern? he) hs)

theorem fulfills_movement (known : Sensitivities) (ha : g.pattern? a = some p) :
    Fulfills room (movement known a) g Something := by
  rw [movement]
  split
  · exact fulfills_pure trivial
  · refine fulfills_patternOf_bind ha fun hp => ?_
    exact (fulfills_fill hp 0.0).imp fun _ _ _ _ => trivial

theorem fulfills_movements {arguments : List MatrixId} {ps : List Pattern} (hk : known.Typed g)
    (harguments : arguments.map g.pattern? = ps.map some) :
    Fulfills room (arguments.mapM (movement known)) g fun ts h => ts.map h.pattern? = ps.map some := by
  refine ((Fulfills.mapM (S := Something) (fun _ _ _ _ _ => trivial) fun a ha h hgh => ?_).and_keeps
    (keeps_movements hk harguments)).imp fun _ _ _ hts => hts.2
  obtain ⟨p, hp⟩ := exists_pattern?_of_map harguments ha
  exact fulfills_movement known (hgh.pattern? hp)

/-- A derivative function that can be made is made, and noted down. -/
theorem fulfills_derivativeRoutine {d : Except Error FunctionObject}
    (hd : ∃ o r, d = .ok o ∧ o.routine = .ok r) :
    Fulfills room (derivativeRoutine d) g fun r _ => ∃ o, d = .ok o ∧ o.routine = .ok r := by
  obtain ⟨o, r, ho, hr⟩ := hd
  refine Fulfills.imp (Q := fun s h => Something s h ∧ _) (Fulfills.and_keeps ?_
    (keeps_derivativeRoutine d)) fun _ _ _ hr => hr.2
  refine fulfills_ofExcept_bind (.inl ho) ?_
  refine (fulfills_rememberDerived o.id).bind fun _ h _ _ => ?_
  rw [hr]
  exact fulfills_pure trivial

theorem fulfills_pushCall {d r : Routine} {arguments : List MatrixId} {o : Nat} (hk : known.Typed g)
    (he : g.pattern? e = some p) (harguments : arguments.map g.pattern? = r.inPatterns.map some)
    (ho : r.outPatterns[o]? = some p) (hroomy : room → ∀ q ∈ r.outPatterns, q.Roomy)
    (hin : d.inPatterns = r.inPatterns ++ r.inPatterns) (hout : d.outPatterns = r.outPatterns) :
    Fulfills room (pushCall d arguments o e known) g Typed := by
  rw [pushCall]
  split
  · exact fulfills_pure hk
  · refine (fulfills_movements hk harguments).bind fun moved h hgh hmoved => ?_
    have hgiven : (arguments ++ moved).map h.pattern? = d.inPatterns.map some := by
      rw [List.map_append, hmoved, MatrixNode.map_pattern?_grow hgh.pattern? harguments, hin,
        List.map_append]
    refine (fulfills_callOutput hgiven (hout ▸ ho) (hout ▸ hroomy)).bind fun t k hhk ht =>
      fulfills_pure ?_
    have hgk := hgh.trans hhk
    exact (hk.grow hgk).note (hgk.pattern? he) ht

/-! ### Several directions -/

variable {count : Nat} {directions : List Sensitivities}

theorem fulfills_mapM {α : Type} {as : List α} {f : α → MatrixBuilder Sensitivities}
    (step : ∀ a ∈ as, ∀ h, g.Grows h → Fulfills room (f a) h Typed) :
    Fulfills room (as.mapM f) g (AllTyped as.length) :=
  Fulfills.mapM lasts_typed step

theorem fulfills_directions {f : Sensitivities → MatrixBuilder Sensitivities}
    (hds : AllTyped count directions g)
    (step : ∀ known h, g.Grows h → known.Typed h → Fulfills room (f known) h Typed) :
    Fulfills room (directions.mapM f) g (AllTyped count) :=
  hds.1 ▸ fulfills_mapM fun known hk h hgh => step known h hgh ((hds.2 known hk).grow hgh)

theorem fulfills_inTurn {σ : Type} {M : σ → MatrixGraph → Prop}
    {f : σ → Sensitivities → MatrixBuilder (σ × Sensitivities)} {s : σ} (hs : M s g)
    (hds : AllTyped count directions g)
    (step : ∀ s known h, g.Grows h → M s h → known.Typed h →
      Fulfills room (f s known) h fun r k => M r.1 k ∧ Typed r.2 k) :
    Fulfills room (inTurn f s directions) g (AllTyped count) :=
  (Fulfills.inTurn lasts_typed lasts_typed step hs hds.2).imp
    fun _ _ _ hbs => ⟨hbs.1.trans hds.1, hbs.2⟩

/-- **One node forward**, in all directions. -/
theorem fulfills_forwardNode {n : MatrixNode} (hds : AllTyped count directions g)
    (he : g.pattern? e = some p) (hn : n.Typed g p) (hp : room → p.Roomy) (hroomy : room → n.Roomy) :
    Fulfills room (forwardNode e p directions n) g (AllTyped count) := by
  cases hn with
  | symbol _ => exact fulfills_pure hds
  | constant _ => exact fulfills_pure hds
  | @unary op x _ hx hdense =>
    exact fulfills_inTurn (prepares_none p.shape g) hds fun made known h hgh hmade hk =>
      fulfills_pushUnary hk (hgh.pattern? he) hp op (hgh.pattern? hx) hmade
  | @binary op x y _ hx hy hxy =>
    exact fulfills_inTurn (M := PreparesBoth p.shape) ⟨prepares_none _ _, prepares_none _ _⟩ hds
      fun made known h hgh hmade hk =>
        fulfills_pushBinary hk (hgh.pattern? he) hp op (hx.imp hgh.pattern? hgh.pattern?)
          (hy.imp hgh.pattern? hgh.pattern?) hmade
  | @product x y _ _ hx hy hinner =>
    exact fulfills_directions hds fun known h hgh hk =>
      fulfills_pushProduct hk (hgh.pattern? hx) (hgh.pattern? hy) hinner (hgh.pattern? he) hp
  | @gather arguments map _ hmap =>
    exact fulfills_directions hds fun known h hgh hk => fulfills_pushGather hk (hgh.pattern? he) hp
      ⟨hmap.length, hmap.reaches.grow hgh.pattern?, hmap.nodup, hmap.used⟩
  | @scatter x map _ q hx hlength htargets =>
    exact fulfills_directions hds fun known h hgh hk =>
      fulfills_pushScatter hk (hgh.pattern? he) hp (hgh.pattern? hx) hlength htargets
  | @call r arguments o _ harguments ho =>
    refine (fulfills_derivativeRoutine r.exists_forwardDerivative).bind fun d h hgh hd => ?_
    obtain ⟨object, hobject, hroutine⟩ := hd
    obtain ⟨hin, hout⟩ := Routine.patterns_forwardDerivative hobject hroutine
    refine fulfills_directions (hds.grow hgh) fun known k hhk hk => ?_
    have hgk := hgh.trans hhk
    exact fulfills_pushCall hk (hgk.pattern? he) (MatrixNode.map_pattern?_grow hgk.pattern? harguments)
      ho (fun hroom => hroomy hroom r arguments o rfl) hin hout
  | @lift value guess _ hvalue hguess =>
    refine fulfills_pure ⟨(List.length_map _).trans hds.1, fun known' hk' => ?_⟩
    obtain ⟨known, hk, rfl⟩ := List.mem_map.mp hk'
    have hk := hds.2 known hk
    cases ht : known.of? value with
    | none => exact hk
    | some t => exact hk.note he (hk.on ht hvalue)

/-- Seeds have the shapes of the expressions that they are for. -/
def Seeds (es : List MatrixId) (seeds : List (List (Option MatrixId))) (g : MatrixGraph) : Prop :=
  ∀ seed ∈ seeds, ∀ (i : Nat) (s e : MatrixId) (p : Pattern), seed.getD i none = some s →
    es[i]? = some e → g.pattern? e = some p → Shaped p.shape s g

/-- Instructions that load and store are about the inputs and outputs that they say. -/
theorem Ordered.places {inputs outputs done : List MatrixId} {instrs : List MatrixInstr}
    (ho : Ordered g inputs outputs done instrs) : ∀ i ∈ instrs,
      (∀ k, i.op = .input k → inputs[k]? = some i.node) ∧
        ∀ k, i.op = .output k → outputs[k]? = some i.node := by
  induction ho with
  | nil => simp
  | store hop hout _ _ ih =>
    refine List.forall_mem_cons.mpr ⟨⟨fun k hk => ?_, fun k hk => ?_⟩, ih⟩
    · rw [hop] at hk
      contradiction
    · rw [hop] at hk
      exact MatrixOp.output.inj hk ▸ hout
  | compute _ hcarries _ _ _ ih =>
    refine List.forall_mem_cons.mpr ⟨⟨fun k hk => ?_, fun k hk => ?_⟩, ih⟩
    · rw [hk] at hcarries
      cases hcarries with
      | input hindex =>
        obtain ⟨hk, hget, -⟩ := List.idxOf?_eq_some_iff.mp hindex
        exact (List.getElem?_eq_getElem hk).trans (congrArg some (by simpa using hget))
      | operation hop _ => contradiction
    · rw [hk] at hcarries
      cases hcarries with
      | operation hop _ => contradiction

theorem fulfills_forwardStep {inputs : List MatrixId} {i : MatrixInstr}
    {seeds : List (List (Option MatrixId))} (hds : AllTyped seeds.length directions g)
    (hi : g.pattern? i.node = some i.pattern) (hseeds : Seeds inputs seeds g)
    (hinput : ∀ k, i.op = .input k → inputs[k]? = some i.node) :
    Fulfills room (forwardStep seeds directions i) g (AllTyped seeds.length) := by
  refine fulfills_of_graph fun hw hroomy => ?_
  have hp : room → i.pattern.Roomy := fun hroom => (hroomy hroom).patterns _ _ hi
  rw [forwardStep]
  split
  · exact fulfills_pure hds
  · exact fulfills_pure hds
  · exact fulfills_pure hds
  · rename_i k hop
    have hlength : (seeds.zip directions).length = seeds.length := by
      rw [List.length_zip, hds.1, Nat.min_self]
    refine hlength ▸ fulfills_mapM ?_
    rintro ⟨seed, known⟩ hmem h hgh
    have hk := (hds.2 known (List.of_mem_zip hmem).2).grow hgh
    dsimp only
    split
    · exact fulfills_pure hk
    · rename_i s hs
      have hshape := hseeds seed (List.of_mem_zip hmem).1 k s _ _ hs (hinput k hop) hi
      exact fulfills_record hk (hgh.pattern? hi) hp (lasts_shaped _ s g h hgh hshape)
  · obtain ⟨n, hn⟩ := MatrixGraph.exists_node?_of_pattern? hi
    refine fulfills_nodeOf_bind hn ?_
    refine fulfills_forwardNode hds hi (hw.typed _ n _ hn hi) hp fun hroom r arguments o hcall => ?_
    exact (hroomy hroom).outputs _ r arguments o (hcall ▸ hn)

theorem Seeds.grow {es : List MatrixId} {seeds : List (List (Option MatrixId))} {h : MatrixGraph}
    (hseeds : Seeds es seeds g) (hes : ∀ e ∈ es, ∃ p, g.pattern? e = some p) (hgrow : g.Grows h) :
    Seeds es seeds h := by
  intro seed hseed i s e p hs he hp
  obtain ⟨q, hq⟩ := hes e (List.mem_of_getElem? he)
  obtain rfl := Option.some.inj ((hgrow.pattern? hq).symm.trans hp)
  exact lasts_shaped _ s g h hgrow (hseeds seed hseed i s e q hs he hq)

/-- **Forward sweeps** on seeds that have the shapes of the inputs. -/
theorem fulfills_forward {inputs outputs : List MatrixId} {tape : MatrixTape}
    (ht : Resides g inputs outputs tape) (hin : ∀ e ∈ inputs, ∃ p, g.pattern? e = some p)
    {seeds : List (List (Option MatrixId))} (hseeds : Seeds inputs seeds g) :
    Fulfills room (tape.forward outputs seeds) g Something := by
  rw [forward]
  refine Fulfills.bind (Fulfills.foldlM (S := AllTyped seeds.length) ?_ (allTyped_empty seeds g))
    fun directions h _ _ => fulfills_pure trivial
  intro directions h i hi hgh hds
  exact fulfills_forwardStep hds (hgh.pattern? (ht.patterned i hi))
    (hseeds.grow hin hgh) (ht.ordered.places i hi).1

/-- Forward sweeps succeed in graphs with room. -/
theorem succeeds_forward {inputs outputs : List MatrixId} {tape : MatrixTape}
    (ht : Resides g inputs outputs tape) (hin : ∀ e ∈ inputs, ∃ p, g.pattern? e = some p)
    {seeds : List (List (Option MatrixId))} (hseeds : Seeds inputs seeds g) (hg : g.Roomy) :
    Yields (tape.forward outputs seeds) g fun moved h => h.Roomy ∧ Something moved h :=
  (fulfills_forward ht hin hseeds).yields hg

/-! ### Reverse -/

theorem fulfills_accumulate (hk : known.Typed g) (ha : g.pattern? a = some p)
    (ht : Shaped p.shape t g) : Fulfills room (accumulate known a t) g Typed := by
  refine fulfills_patternOf_bind ha fun hp => ?_
  refine (fulfills_project ht hp).bind fun t h hgh ht => ?_
  have hk := hk.grow hgh
  have ha := hgh.pattern? ha
  split
  · exact fulfills_pure (hk.note ha ht)
  · rename_i s hs
    refine (fulfills_add (hk.on hs ha) ht).bind fun sum k hhk hsum => ?_
    exact fulfills_pure ((hk.grow hhk).note (hhk.pattern? ha) hsum)

theorem fulfills_pullUnary (hk : known.Typed g) (op : UnaryOp) (hx : g.pattern? x = some p)
    (he : g.pattern? e = some p) (hs : g.pattern? s = some p) {made : Option MatrixId}
    (hmade : Prepares p.shape made g) :
    Fulfills room (pullUnary op x e s made known) g fun r h =>
      Prepares p.shape r.1 h ∧ Typed r.2 h := by
  refine (Fulfills.onDemand hmade (fulfills_unaryPartial op (On.shaped hx).spans
    (On.shaped he).spans)).bind fun d h hgh hd => ?_
  refine (fulfills_binary_shaped .mul hd (On.shaped (hgh.pattern? hs))).bind fun t k hhk ht => ?_
  have hgk := hgh.trans hhk
  refine (fulfills_accumulate (hk.grow hgk) (hgk.pattern? hx) ht).bind fun known l hkl hk => ?_
  exact fulfills_pure ⟨prepares_some (lasts_spans _ d h l (hhk.trans hkl) hd), hk⟩

/-- What is given back has the shape of the operand: contributions to a repeated operand are added
up. -/
theorem fulfills_giveBack (hk : known.Typed g) (op : BinaryOp) (side : Side) (hx : g.Fits p x)
    (hy : g.Fits p y) (he : g.pattern? e = some p) (hs : g.pattern? s = some p) (ha : g.Fits p a)
    {made : Option MatrixId} (hmade : Prepares p.shape made g) :
    Fulfills room (giveBack op side x y e p s a made known) g fun r h =>
      Prepares p.shape r.1 h ∧ Typed r.2 h := by
  refine (Fulfills.onDemand hmade (fulfills_binaryPartial op side (spans_of_fits hx)
    (spans_of_fits hy) (On.shaped he).spans)).bind fun d h hgh hd => ?_
  refine (fulfills_binary_shaped .mul hd (On.shaped (hgh.pattern? hs))).bind fun t k hhk ht => ?_
  have hgk := hgh.trans hhk
  have hk := hk.grow hgk
  have hd := lasts_spans _ d h k hhk hd
  obtain ⟨q, hq, hfits⟩ : ∃ q, k.pattern? a = some q ∧ (q = p ∨ q = .scalar) := by
    rcases ha with ha | ha
    · exact ⟨p, hgk.pattern? ha, .inl rfl⟩
    · exact ⟨.scalar, hgk.pattern? ha, .inr rfl⟩
  refine fulfills_patternOf_bind hq fun _ => ?_
  have hfinish : ∀ {t : MatrixId} {l : MatrixGraph}, k.Grows l → Shaped q.shape t l →
      Fulfills room (do return (some d, ← accumulate known a t)) l fun r h =>
        Prepares p.shape r.1 h ∧ Typed r.2 h := fun hkl ht =>
    (fulfills_accumulate (hk.grow hkl) (hkl.pattern? hq) ht).bind fun known m hlm hk =>
      fulfills_pure ⟨prepares_some (lasts_spans _ d k m (hkl.trans hlm) hd), hk⟩
  dsimp only
  split
  · rename_i hrepeated
    obtain ⟨hscalar, hwide⟩ := Bool.and_eq_true_iff.mp hrepeated
    obtain ⟨r, hr, -⟩ := ht
    refine (fulfills_sum hr).bind fun t l hkl ht => hfinish hkl ⟨_, ht, ?_⟩
    exact (beq_iff_eq.mp hscalar).symm
  · rename_i hsingle
    rw [pure_bind]
    refine hfinish (.refl k) ?_
    have hshape : q.shape = p.shape := by
      rcases hfits with rfl | rfl
      · rfl
      · have hscalar : Pattern.scalar.isScalar = true → p.isScalar = true := by simpa using hsingle
        exact (beq_iff_eq.mp (hscalar (by decide))).symm
    rwa [hshape]

theorem fulfills_pullBinary (hk : known.Typed g) (op : BinaryOp) (hx : g.Fits p x)
    (hy : g.Fits p y) (he : g.pattern? e = some p) (hs : g.pattern? s = some p)
    {made : Option MatrixId × Option MatrixId} (hmade : PreparesBoth p.shape made g) :
    Fulfills room (pullBinary op x y e p s made known) g fun r h =>
      PreparesBoth p.shape r.1 h ∧ Typed r.2 h := by
  refine (fulfills_giveBack hk op .left hx hy he hs hx hmade.1).bind fun left h hgh hleft => ?_
  have hx := hx.imp hgh.pattern? hgh.pattern?
  have hy := hy.imp hgh.pattern? hgh.pattern?
  refine (fulfills_giveBack hleft.2 op .right hx hy (hgh.pattern? he) (hgh.pattern? hs) hy
    (lasts_prepares p.shape _ g h hgh hmade.2)).bind fun right k hhk hright => ?_
  exact fulfills_pure ⟨⟨lasts_prepares p.shape _ h k hhk hleft.1, hright.1⟩, hright.2⟩

theorem fulfills_pullProduct {px py : Pattern} (hk : known.Typed g) (hx : g.pattern? x = some px)
    (hy : g.pattern? y = some py) (hfit : px.ncols = py.nrows)
    (hs : g.pattern? s = some (px.product py)) :
    Fulfills room (pullProduct x y s known) g Typed := by
  refine fulfills_of_graph fun _ hroomy => ?_
  have hcolumns : (px.product py).ncols = py.ncols := congrArg Prod.snd (Pattern.shape_product px py)
  -- the derivative times the transposed right factor has the shape of the left one
  have hleft : ((px.product py).product py.transpose).shape = px.shape := by
    rw [Pattern.shape_product, Pattern.ncols_transpose, Pattern.shape, hfit]
    rfl
  have hright : (px.transpose.product (px.product py)).shape = py.shape := by
    rw [Pattern.shape_product, Pattern.nrows_transpose, hcolumns, Pattern.shape, hfit]
  refine (fulfills_transpose hy).bind fun ty h hgh hty => ?_
  refine (fulfills_product (hgh.pattern? hs) hty (hcolumns.trans py.nrows_transpose.symm)
    fun hroom => ((hroomy hroom).patterns x px hx).of_shape hleft).bind fun t k hhk ht => ?_
  have hgk := hgh.trans hhk
  refine (fulfills_accumulate (hk.grow hgk) (hgk.pattern? hx) (hleft ▸ On.shaped ht)).bind
    fun known l hkl hk => ?_
  have hgl := hgk.trans hkl
  refine (fulfills_transpose (hgl.pattern? hx)).bind fun tx m hlm htx => ?_
  refine (fulfills_product htx ((hgl.trans hlm).pattern? hs) px.ncols_transpose
    fun hroom => ((hroomy hroom).patterns y py hy).of_shape hright).bind fun t n hmn ht => ?_
  exact fulfills_accumulate (hk.grow (hlm.trans hmn)) (((hgl.trans hlm).trans hmn).pattern? hy)
    (hright ▸ On.shaped ht)

theorem fulfills_pullGather {arguments : List MatrixId} {map : GatherMap} (hk : known.Typed g)
    (hmap : g.Gathers arguments map p) (harguments : ∀ a ∈ arguments, ∃ q, g.pattern? a = some q)
    (hs : g.pattern? s = some p) : Fulfills room (pullGather arguments map s known) g Typed := by
  refine Fulfills.foldlM (S := Typed) ?_ hk
  rintro known h ⟨a, i⟩ ha hgh hk
  rw [List.mem_zipIdx_iff_getElem?] at ha
  obtain ⟨q, hq⟩ := harguments a (List.mem_of_getElem? ha)
  have hq := hgh.pattern? hq
  refine fulfills_patternOf_bind hq fun hroomy => ?_
  refine (fulfills_scatter hroomy (hgh.pattern? hs) ((List.length_map _).trans hmap.length) ?_).bind
    fun t k hhk ht => fulfills_accumulate (hk.grow hhk) (hhk.pattern? hq) (On.shaped ht)
  intro k hk
  obtain ⟨r, hr, hlt⟩ := GatherMap.lt_of_mem_targets (hmap.reaches.grow hgh.pattern?) ha hk
  obtain rfl := Option.some.inj (hq.symm.trans hr)
  exact hlt

theorem fulfills_pullScatter {map : ScatterMap} (hk : known.Typed g) (ha : g.pattern? a = some q)
    (hlength : map.length = q.nnz) (htargets : ∀ k, some k ∈ map → k < p.nnz)
    (hs : g.pattern? s = some p) : Fulfills room (pullScatter a map s known) g Typed := by
  refine fulfills_patternOf_bind ha fun hroomy => ?_
  refine (fulfills_gather hroomy (by simpa [GatherMap.ofSources] using hlength)
    (GatherMap.reaches_ofSources hs htargets)).bind fun t h hgh ht => ?_
  exact fulfills_accumulate (hk.grow hgh) (hgh.pattern? ha) (On.shaped ht)

theorem fulfills_weights {r : Routine} {o : Nat} (ho : r.outPatterns[o]? = some p)
    (hs : g.pattern? s = some p) (hroomy : room → ∀ q ∈ r.outPatterns, q.Roomy) :
    Fulfills room (weights r o s) g fun ws h => ws.map h.pattern? = r.outPatterns.map some := by
  refine ((Fulfills.mapM (S := Something) (fun _ _ _ _ _ => trivial) ?_).and_keeps
    (keeps_weights ho hs)).imp fun _ _ _ hws => hws.2
  rintro ⟨q, i⟩ hmem h hgh
  dsimp only
  split
  · exact fulfills_pure trivial
  · rw [List.mem_zipIdx_iff_getElem?] at hmem
    exact (fulfills_fill (fun hroom => hroomy hroom q (List.mem_of_getElem? hmem)) 0.0).imp fun _ _ _ _ => trivial

theorem fulfills_pullCall {r : Routine} {arguments : List MatrixId} {o : Nat} (hk : known.Typed g)
    (harguments : arguments.map g.pattern? = r.inPatterns.map some)
    (ho : r.outPatterns[o]? = some p) (hs : g.pattern? s = some p)
    (hroomy : room → ∀ q ∈ r.outPatterns, q.Roomy) :
    Fulfills room (pullCall r arguments o s known) g Typed := by
  refine fulfills_of_graph fun _ hg => ?_
  have hargument : ∀ {i : Nat} {a : MatrixId}, arguments[i]? = some a →
      ∃ q, g.pattern? a = some q ∧ r.inPatterns[i]? = some q := by
    intro i a ha
    have hget := congrArg (·[i]?) harguments
    simp only [List.getElem?_map, ha, Option.map_some] at hget
    obtain ⟨q, hq, heq⟩ := Option.map_eq_some_iff.mp hget.symm
    exact ⟨q, heq.symm, hq⟩
  have hinputs : room → ∀ q ∈ r.inPatterns, q.Roomy := by
    intro hroom q hq
    have hmem : some q ∈ arguments.map g.pattern? := harguments ▸ List.mem_map_of_mem hq
    obtain ⟨a, -, ha⟩ := List.mem_map.mp hmem
    exact (hg hroom).patterns a q ha
  refine (fulfills_derivativeRoutine r.exists_reverseDerivative).bind fun d h hgh hd => ?_
  obtain ⟨object, hobject, hroutine⟩ := hd
  obtain ⟨hin, hout⟩ := Routine.patterns_reverseDerivative hobject hroutine
  refine (fulfills_weights ho (hgh.pattern? hs) hroomy).bind fun ws k hhk hws => ?_
  have hgk := hgh.trans hhk
  have hgiven : (arguments ++ ws).map k.pattern? = d.inPatterns.map some := by
    rw [List.map_append, hws, MatrixNode.map_pattern?_grow hgk.pattern? harguments, hin,
      List.map_append]
  refine Fulfills.foldlM (S := Typed) ?_ (hk.grow hgk)
  rintro known l ⟨a, i⟩ ha hkl hk
  rw [List.mem_zipIdx_iff_getElem?] at ha
  obtain ⟨q, hq, hi⟩ := hargument ha
  refine (fulfills_callOutput (MatrixNode.map_pattern?_grow hkl.pattern? hgiven) (hout ▸ hi)
    (hout ▸ hinputs)).bind fun t m hlm ht => ?_
  exact fulfills_accumulate (hk.grow hlm) (((hgk.trans hkl).trans hlm).pattern? hq) (On.shaped ht)

/-- The operands of a typed node are on patterns. -/
theorem exists_pattern?_of_typed {n : MatrixNode} (hn : n.Typed g p) (ha : a ∈ n.operands) :
    ∃ q, g.pattern? a = some q :=
  MatrixGraph.exists_pattern?_of_index_lt (hn.operands_lt a ha)

/-- **One node backward**, in one direction that has a derivative for it. -/
theorem fulfills_pull {n : MatrixNode} (hk : known.Typed g) (he : g.pattern? e = some p)
    (hn : n.Typed g p) (hs : g.pattern? s = some p) (hroomy : room → n.Roomy)
    {made : Option MatrixId × Option MatrixId} (hmade : PreparesBoth p.shape made g) :
    Fulfills room (pull e p n made known s) g fun r h => PreparesBoth p.shape r.1 h ∧ Typed r.2 h := by
  have hunmade : ∀ {x : MatrixBuilder Sensitivities}, Fulfills room x g Typed →
      Fulfills room (do return (made, ← x)) g fun r h => PreparesBoth p.shape r.1 h ∧ Typed r.2 h :=
    fun hx => hx.bind fun known h hgh hk => fulfills_pure
      ⟨⟨lasts_prepares _ _ g h hgh hmade.1, lasts_prepares _ _ g h hgh hmade.2⟩, hk⟩
  cases hn with
  | symbol _ => exact fulfills_pure ⟨hmade, hk⟩
  | constant _ => exact fulfills_pure ⟨hmade, hk⟩
  | @unary op x _ hx hdense =>
    refine (fulfills_pullUnary hk op hx he hs hmade.1).bind fun r h hgh hr => fulfills_pure ?_
    exact ⟨⟨hr.1, lasts_prepares _ _ g h hgh hmade.2⟩, hr.2⟩
  | @binary op x y _ hx hy hxy => exact fulfills_pullBinary hk op hx hy he hs hmade
  | @product x y _ _ hx hy hinner => exact hunmade (fulfills_pullProduct hk hx hy hinner hs)
  | @gather arguments map _ hmap =>
    exact hunmade (fulfills_pullGather hk hmap
      (fun a ha => exists_pattern?_of_typed (.gather hmap) ha) hs)
  | scatter hx hlength htargets => exact hunmade (fulfills_pullScatter hk hx hlength htargets hs)
  | @call r arguments o _ harguments ho =>
    exact hunmade (fulfills_pullCall hk harguments ho hs fun hroom =>
      hroomy hroom r arguments o rfl)
  | @lift value guess _ hvalue hguess =>
    exact hunmade (fulfills_accumulate hk hvalue (On.shaped hs))

theorem fulfills_reverseStep {outputs : List MatrixId} {i : MatrixInstr}
    {seeds : List (List (Option MatrixId))} (hds : AllTyped seeds.length directions g)
    (hi : g.pattern? i.node = some i.pattern) (hseeds : Seeds outputs seeds g)
    (houtput : ∀ k, i.op = .output k → outputs[k]? = some i.node) :
    Fulfills room (reverseStep seeds directions i) g (AllTyped seeds.length) := by
  refine fulfills_of_graph fun hw hroomy => ?_
  rw [reverseStep]
  split
  · exact fulfills_pure hds
  · exact fulfills_pure hds
  · exact fulfills_pure hds
  · rename_i k hop
    have hlength : (seeds.zip directions).length = seeds.length := by
      rw [List.length_zip, hds.1, Nat.min_self]
    refine hlength ▸ fulfills_mapM ?_
    rintro ⟨seed, known⟩ hmem h hgh
    have hk := (hds.2 known (List.of_mem_zip hmem).2).grow hgh
    dsimp only
    split
    · exact fulfills_pure hk
    · rename_i s hs
      have hshape := hseeds seed (List.of_mem_zip hmem).1 k s _ _ hs (houtput k hop) hi
      exact fulfills_accumulate hk (hgh.pattern? hi) (lasts_shaped _ s g h hgh hshape)
  · obtain ⟨n, hn⟩ := MatrixGraph.exists_node?_of_pattern? hi
    refine fulfills_nodeOf_bind hn ?_
    refine fulfills_inTurn (M := PreparesBoth i.pattern.shape) ⟨prepares_none _ _, prepares_none _ _⟩ hds
      fun made known h hgh hmade hk => ?_
    split
    · exact fulfills_pure ⟨hmade, hk⟩
    · rename_i s hs
      have hi := hgh.pattern? hi
      refine fulfills_pull hk hi ((hw.typed _ n _ hn ‹_›).grow hgh) (hk.on hs hi)
        (fun hroom r arguments o hcall => ?_) hmade
      exact (hroomy hroom).outputs _ r arguments o (hcall ▸ hn)

/-- **Reverse sweeps** on seeds that have the shapes of the outputs. -/
theorem fulfills_reverse {inputs outputs : List MatrixId} {tape : MatrixTape}
    (ht : Resides g inputs outputs tape) (hout : ∀ e ∈ outputs, ∃ p, g.pattern? e = some p)
    {seeds : List (List (Option MatrixId))} (hseeds : Seeds outputs seeds g) :
    Fulfills room (tape.reverse inputs seeds) g Something := by
  rw [reverse]
  refine Fulfills.bind (Fulfills.foldlM (S := AllTyped seeds.length) ?_ (allTyped_empty seeds g))
    fun directions h _ _ => fulfills_pure trivial
  intro directions h i hi hgh hds
  have hi := List.mem_reverse.mp hi
  exact fulfills_reverseStep hds (hgh.pattern? (ht.patterned i hi)) (hseeds.grow hout hgh)
    (ht.ordered.places i hi).2

/-- Reverse sweeps succeed in graphs with room. -/
theorem succeeds_reverse {inputs outputs : List MatrixId} {tape : MatrixTape}
    (ht : Resides g inputs outputs tape) (hout : ∀ e ∈ outputs, ∃ p, g.pattern? e = some p)
    {seeds : List (List (Option MatrixId))} (hseeds : Seeds outputs seeds g) (hg : g.Roomy) :
    Yields (tape.reverse inputs seeds) g fun weighed h => h.Roomy ∧ Something weighed h :=
  (fulfills_reverse ht hout hseeds).yields hg

end MatrixTape

end Fluxion
