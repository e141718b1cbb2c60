import Fluxion.Proofs.Matrix.Directions
import Fluxion.Proofs.Matrix.Order

/-!
# Forward sweeps over matrix tapes

A forward sweep keeps, for each direction in which the inputs move, expressions that tell how the
expressions move that the tape has computed so far. One instruction adds one of them: it stores the
derivative along the direction, on the pattern of the expression, or there is none and the expression
does not move. So in the end every output has its derivative.

## Main definitions

* `Sensitivities.Follows` — known derivatives tell how expressions move
* `MatrixTape.SeedMoves` — a seed says how the inputs move

## Main results

* `MatrixTape.follows_forwardNode` — **one node**
* `MatrixTape.follows_forward` — **forward sweeps** tell how the outputs move
-/

namespace Fluxion

open MatrixBuilder

variable {V : Type} [CommRing V]

namespace Sensitivities

variable {known : Sensitivities} {g h : MatrixGraph} {I : Interpretation V}
  {given : MatrixId → Option (List V)} {done : List MatrixId} {dx : MatrixId → Nat → V}
  {e t : MatrixId} {p : Pattern}

/-- Along a direction, the derivatives that are known tell how the expressions move that are done, and
no other expression has one. -/
structure Follows (known : Sensitivities) (g : MatrixGraph) (I : Interpretation V)
    (given : MatrixId → Option (List V)) (done : List MatrixId) (dx : MatrixId → Nat → V) :
    Prop where
  moves : ∀ e ∈ done, ∃ p, g.pattern? e = some p ∧
    g.AmountsTo I.algebra given (known.of? e) p (g.tangentOf I given dx e)
  fresh : ∀ e, e ∉ done → known.of? e = none

theorem follows_empty : Follows .empty g I given [] dx :=
  ⟨fun _ he => absurd he List.not_mem_nil, fun e _ => NumberMap.find?_empty e.index⟩

theorem Follows.grow (hk : known.Follows g I given done dx) (hgrow : g.Grows h) :
    known.Follows h I given done dx := by
  refine ⟨fun e he => ?_, hk.fresh⟩
  obtain ⟨p, hp, hmoves⟩ := hk.moves e he
  refine ⟨p, hgrow.pattern? hp, ?_⟩
  rw [MatrixGraph.tangentOf_of_grows hgrow hp]
  exact hmoves.grow hgrow

theorem lasts_follows (I : Interpretation V) (given : MatrixId → Option (List V))
    (done : List MatrixId) (dx : MatrixId → Nat → V) :
    Lasts fun known g => Follows known g I given done dx :=
  fun _ _ _ hgrow hk => hk.grow hgrow

theorem Follows.on (hk : known.Follows g I given done dx) (he : e ∈ done)
    (hp : g.pattern? e = some p) :
    g.AmountsTo I.algebra given (known.of? e) p (g.tangentOf I given dx e) := by
  obtain ⟨q, hq, hmoves⟩ := hk.moves e he
  obtain rfl := Option.some.inj (hp.symm.trans hq)
  exact hmoves

theorem Follows.note (hk : known.Follows g I given done dx) (hp : g.pattern? e = some p)
    (ht : g.Stores I.algebra given t p (g.tangentOf I given dx e)) :
    (known.note e t).Follows g I given (done ++ [e]) dx := by
  refine ⟨fun a ha => ?_, fun a ha => ?_⟩
  · rw [of?_note]
    split
    · rename_i hae
      exact ⟨p, hae ▸ hp, hae ▸ ht⟩
    · rename_i hae
      exact hk.moves a (by simpa [hae] using ha)
  · rw [of?_note, if_neg (by simp_all), hk.fresh a (by simp_all)]

/-- An expression without a derivative does not move. -/
theorem Follows.skip (hk : known.Follows g I given done dx) (hnew : e ∉ done)
    (hp : g.pattern? e = some p)
    (hzero : ∀ r c, (r, c) ∈ p.positions → g.tangentOf I given dx e r c = 0) :
    known.Follows g I given (done ++ [e]) dx := by
  refine ⟨fun a ha => ?_, fun a ha => hk.fresh a (by simp_all)⟩
  by_cases hae : a = e
  · subst hae
    rw [hk.fresh a hnew]
    exact ⟨p, hp, hzero⟩
  · exact hk.moves a (by simpa [hae] using ha)

end Sensitivities

namespace MatrixTape

open Sensitivities MatrixGraph

variable {known : Sensitivities} {g : MatrixGraph} {I : Interpretation V}
  {given : MatrixId → Option (List V)} {done : List MatrixId} {dx : MatrixId → Nat → V}
  {e t x y a : MatrixId} {p q pa pb : Pattern} {z : Nat → Nat → V}

/-! ### Elementwise operations -/

theorem follows_record (hk : known.Follows g I given done dx) (hp : g.pattern? e = some p)
    (ht : g.Stores I.algebra given t q z)
    (hz : ∀ r c, (r, c) ∈ p.positions → q.masked z r c = g.tangentOf I given dx e r c) :
    Keeps (record e p known t) g fun known h => known.Follows h I given (done ++ [e]) dx := by
  refine (stores_project I.simplifies.toOnRing ht p).bind fun t h hgh ht => keeps_pure ?_
  refine (hk.grow hgh).note (hgh.pattern? hp) ?_
  rw [tangentOf_of_grows hgh hp]
  exact ht.2.congr hz

theorem follows_pushUnary (hg : g.Sound I given) (hk : known.Follows g I given done dx)
    (hnew : e ∉ done) {op : UnaryOp} (hn : g.node? e = some (.unary op x))
    (hp : g.pattern? e = some p) (hx : g.pattern? x = some p) (hdone : x ∈ done)
    {made : Option MatrixId}
    (hmade : g.Handed I.algebra given p (g.unaryPartialOf I given op x e) made) :
    Keeps (pushUnary op x e p made known) g fun r h =>
      h.Handed I.algebra given p (g.unaryPartialOf I given op x e) r.1 ∧
        r.2.Follows h I given (done ++ [e]) dx := by
  have hA := I.simplifies.toOnRing
  have hmoves := hk.on hdone hx
  rw [pushUnary]
  cases hxt : known.of? x with
  | none =>
    rw [hxt] at hmoves
    refine keeps_pure ⟨hmade, hk.skip hnew hp fun r c h => ?_⟩
    rw [tangentOf_unary hg hn hp hx h, hmoves r c h, mul_zero]
  | some tx =>
    rw [hxt] at hmoves
    refine (serves_unaryPartialOf hg.typed hx hp op hmade).bind fun d h hgh hd => ?_
    refine (serves_binary hA .mul hd (hmoves.grow hgh).serves).bind fun t k hhk ht => ?_
    refine (stores_broadcast_of_serves hA ht).bind fun t' l hkl ht' => keeps_pure ?_
    have hgl := (hgh.trans hhk).trans hkl
    refine ⟨handed_some ((hd.grow hhk).grow hkl), (hk.grow hgl).note (hgl.pattern? hp) ?_⟩
    rw [tangentOf_of_grows hgl hp]
    refine ht'.congr fun r c h => ?_
    rw [tangentOf_unary hg hn hp hx h, hA.mul]
    rfl

/-- What an operand contributes is its derivative, repeated if it has to be, times the partial
derivative. -/
theorem amountsTo_contribute (hg : g.WellTyped) {op : BinaryOp} {side : Side}
    (hx : g.pattern? x = some pa) (hy : g.pattern? y = some pb) (hp : g.pattern? e = some p)
    (hfx : g.Fits p x) (hfy : g.Fits p y) {u : Nat → Nat → V}
    (hpartial : g.binaryPartialOf I given op side p x y e = u) {made moved sum : Option MatrixId}
    (hmade : g.Handed I.algebra given p u made) (hfits : q = p ∨ q = .scalar)
    (hmoved : g.AmountsTo I.algebra given moved q z) {w : Nat → Nat → V}
    (hsum : g.AmountsTo I.algebra given sum p w) :
    Keeps (contribute op side x y e p made moved sum) g fun r h =>
      h.Handed I.algebra given p u r.1 ∧
        h.AmountsTo I.algebra given r.2 p fun r c => w r c + u r c * q.spread p z r c := by
  have hA := I.simplifies.toOnRing
  subst hpartial
  cases moved with
  | none =>
    refine keeps_pure ⟨hmade, hsum.congr fun r c h => ?_⟩
    rw [Pattern.spread_eq_zero hmoved, mul_zero, add_zero]
  | some t =>
    have hft : g.Fits p t := by
      obtain rfl | rfl := hfits
      · exact .inl hmoved.pattern
      · exact .inr hmoved.pattern
    refine (serves_binaryPartialOf hg hx hy hp hfx hfy op side hmade).bind fun d h hgh hd => ?_
    refine (serves_binary hA .mul hd ((serves_of_fits hft hmoved).grow hgh)).bind
      fun s k hhk hs => ?_
    refine (stores_broadcast_of_serves hA hs).bind fun term l hkl hterm => ?_
    have hd := (hd.grow hhk).grow hkl
    have hterm := hterm.congr (y := fun r c =>
      g.binaryPartialOf I given op side p x y e r c * q.spread p z r c) fun r c _ => hA.mul _ _
    cases sum with
    | none =>
      refine keeps_pure ⟨handed_some hd, hterm.congr fun r c h => ?_⟩
      rw [hsum r c h, zero_add]
    | some s =>
      have hs := hsum.grow ((hgh.trans hhk).trans hkl)
      refine (stores_add hA hs hterm).bind fun total m hlm htotal => keeps_pure ?_
      exact ⟨handed_some (hd.grow hlm), htotal⟩

theorem follows_pushBinary (hg : g.Sound I given) (hk : known.Follows g I given done dx)
    (hnew : e ∉ done) {op : BinaryOp} (hn : g.node? e = some (.binary op x y))
    (hp : g.pattern? e = some p) (hfx : g.Fits p x) (hfy : g.Fits p y) (hxdone : x ∈ done)
    (hydone : y ∈ done) {made : Option MatrixId × Option MatrixId}
    (hleft : g.Handed I.algebra given p (g.binaryPartialOf I given op .left p x y e) made.1)
    (hright : g.Handed I.algebra given p (g.binaryPartialOf I given op .right p x y e) made.2) :
    Keeps (pushBinary op x y e p made known) g fun r h =>
      (h.Handed I.algebra given p (g.binaryPartialOf I given op .left p x y e) r.1.1 ∧
        h.Handed I.algebra given p (g.binaryPartialOf I given op .right p x y e) r.1.2) ∧
        r.2.Follows h I given (done ++ [e]) dx := by
  obtain ⟨pa, hx, hpa⟩ := exists_pattern?_of_fits hfx
  obtain ⟨pb, hy, hpb⟩ := exists_pattern?_of_fits hfy
  rw [pushBinary]
  have hnothing : g.AmountsTo I.algebra given none p 0 := fun _ _ _ => rfl
  refine (amountsTo_contribute hg.typed hx hy hp hfx hfy rfl hleft hpa (hk.on hxdone hx)
    hnothing).bind fun left h hgh hsum => keeps_of_wellTyped fun hh => ?_
  refine (amountsTo_contribute hh (hgh.pattern? hx) (hgh.pattern? hy) (hgh.pattern? hp)
    (hfx.imp hgh.pattern? hgh.pattern?) (hfy.imp hgh.pattern? hgh.pattern?)
    (binaryPartialOf_of_grows hgh hx hy hp op .right) (hright.grow hgh) hpb
    ((hk.on hydone hy).grow hgh) hsum.2).bind fun right k hhk hsum' => ?_
  have hgk := hgh.trans hhk
  have htangent : ∀ r c, (r, c) ∈ p.positions → _ = g.tangentOf I given dx e r c := fun r c hrc =>
    (tangentOf_binary_partial hg hn hp hx hy hfx hfy hrc).symm
  have hmade := And.intro (hsum.1.grow hhk) hsum'.1
  obtain ⟨right, sum⟩ := right
  cases sum with
  | none =>
    refine keeps_pure ⟨hmade, (hk.grow hgk).skip hnew (hgk.pattern? hp) fun r c hrc => ?_⟩
    rw [tangentOf_of_grows hgk hp, ← htangent r c hrc, ← zero_add (_ * _)]
    exact hsum'.2 r c hrc
  | some t =>
    refine (follows_record (hk.grow hgk) (hgk.pattern? hp) hsum'.2 fun r c hrc => ?_).bind
      fun known l hkl hknown => keeps_pure ⟨⟨hmade.1.grow hkl, hmade.2.grow hkl⟩, hknown⟩
    rw [Pattern.masked_of_mem hrc, tangentOf_of_grows hgk hp, ← htangent r c hrc]
    exact congrArg (· + _) (zero_add _)

/-! ### Products and rearrangements -/

/-- A product whose left factor may be missing. -/
theorem amountsTo_leftFactor {moved : Option MatrixId} {w : Nat → Nat → V}
    (hmoved : g.AmountsTo I.algebra given moved pa z) (hy : g.Stores I.algebra given y pb w) :
    Keeps (moved.mapM (product · y)) g fun s h =>
      h.AmountsTo I.algebra given s (pa.product pb) fun i j =>
        ∑ l ∈ Finset.range pa.ncols, pa.masked z i l * pb.masked w l j := by
  cases moved with
  | none =>
    refine keeps_pure fun i j _ => Finset.sum_eq_zero fun l _ => ?_
    rw [Pattern.masked_eq_zero hmoved, zero_mul]
  | some t =>
    exact (stores_product I.simplifies.toOnRing hmoved hy).bind fun _ _ _ hs => keeps_pure hs.2

/-- A product whose right factor may be missing. -/
theorem amountsTo_rightFactor {moved : Option MatrixId} {w : Nat → Nat → V}
    (hx : g.Stores I.algebra given x pa w) (hmoved : g.AmountsTo I.algebra given moved pb z) :
    Keeps (moved.mapM (product x ·)) g fun s h =>
      h.AmountsTo I.algebra given s (pa.product pb) fun i j =>
        ∑ l ∈ Finset.range pa.ncols, pa.masked w i l * pb.masked z l j := by
  cases moved with
  | none =>
    refine keeps_pure fun i j _ => Finset.sum_eq_zero fun l _ => ?_
    rw [Pattern.masked_eq_zero hmoved, mul_zero]
  | some t =>
    exact (stores_product I.simplifies.toOnRing hx hmoved).bind fun _ _ _ hs => keeps_pure hs.2

/-- An expression moves by two contributions, each of which may be missing. -/
theorem follows_both (hk : known.Follows g I given done dx) (hnew : e ∉ done)
    (hp : g.pattern? e = some p) {a b : Option MatrixId} {w : Nat → Nat → V}
    (ha : g.AmountsTo I.algebra given a p w) (hb : g.AmountsTo I.algebra given b p z)
    (hsum : ∀ r c, (r, c) ∈ p.positions → g.tangentOf I given dx e r c = w r c + z r c) :
    Keeps (match a, b with
      | none, none => pure known
      | some a, none | none, some a => record e p known a
      | some a, some b => binary .add a b >>= record e p known) g
      fun known h => known.Follows h I given (done ++ [e]) dx := by
  cases a with
  | none =>
    cases b with
    | none =>
      refine keeps_pure (hk.skip hnew hp fun r c h => ?_)
      rw [hsum r c h, ha r c h, hb r c h, add_zero]
    | some b =>
      refine follows_record hk hp hb fun r c h => ?_
      rw [Pattern.masked_of_mem h, hsum r c h, ha r c h, zero_add]
  | some a =>
    cases b with
    | none =>
      refine follows_record hk hp ha fun r c h => ?_
      rw [Pattern.masked_of_mem h, hsum r c h, hb r c h, add_zero]
    | some b =>
      refine (stores_add I.simplifies.toOnRing ha hb).bind fun t h hgh ht => ?_
      refine follows_record (hk.grow hgh) (hgh.pattern? hp) ht fun r c hrc => ?_
      rw [Pattern.masked_of_mem hrc, tangentOf_of_grows hgh hp, hsum r c hrc]

theorem follows_pushProduct (hg : g.Sound I given) (hk : known.Follows g I given done dx)
    (hnew : e ∉ done) (hn : g.node? e = some (.product x y))
    (hp : g.pattern? e = some (pa.product pb)) (hx : g.pattern? x = some pa)
    (hy : g.pattern? y = some pb) (hxdone : x ∈ done) (hydone : y ∈ done) :
    Keeps (pushProduct x y e (pa.product pb) known) g fun known h =>
      known.Follows h I given (done ++ [e]) dx := by
  rw [pushProduct]
  refine (amountsTo_leftFactor (hk.on hxdone hx) (stores_elementOf hg.typed hy)).bind
    fun a h hgh ha => ?_
  refine (amountsTo_rightFactor ((stores_elementOf hg.typed hx).grow hgh)
    ((hk.on hydone hy).grow hgh)).bind fun b k hhk hb => ?_
  have hgk := hgh.trans hhk
  refine follows_both (hk.grow hgk) hnew (hgk.pattern? hp) (ha.grow hhk) hb fun i j h => ?_
  rw [tangentOf_of_grows hgk hp, tangentOf_product hg hn hp hx hy h, Finset.sum_add_distrib]
  simp only [masked_tangentOf hx, masked_tangentOf hy, masked_elementOf hx, masked_elementOf hy]

/-- An entry of a gather map that leads to an argument that moves leads to its derivative. -/
theorem takes_moved (hk : known.Follows g I given done dx) {arguments : List MatrixId}
    {map : GatherMap} (hreaches : g.Reaches arguments map) (hdone : arguments ⊆ done)
    (zero : MatrixId) {entry : Option (Nat × Nat)} (hentry : entry ∈ map) :
    g.Takes I.algebra given ((arguments.map known.of?).map (·.getD zero))
      (entry.filter fun (i, _) => ((arguments.map known.of?).getD i none).isSome)
      (g.sourceOf arguments (g.tangentOf I given dx) entry) := by
  cases entry with
  | none => exact .nothing
  | some t =>
    obtain ⟨i, k⟩ := t
    obtain ⟨a, q, ha, hq, hlt⟩ := hreaches i k hentry
    obtain ⟨ij, hk'⟩ : ∃ ij, q.positions[k]? = some ij := ⟨_, List.getElem?_eq_getElem hlt⟩
    have hmoves := hk.on (hdone (List.mem_of_getElem? ha)) hq
    have hget : (arguments.map known.of?)[i]? = some (known.of? a) := by
      rw [List.getElem?_map, ha]
      rfl
    rw [sourceOf_of_some ha hq hk']
    simp only [Option.filter_some, getD_of_getElem? hget none]
    cases hat : known.of? a with
    | none =>
      rw [hat] at hmoves
      rw [hmoves _ _ (List.mem_of_getElem? hk')]
      exact .nothing
    | some t =>
      rw [hat] at hmoves hget
      exact .nonzero (by rw [List.getElem?_map, hget]; rfl) hmoves hk'

theorem filter_eq_none {moved : List (Option MatrixId)} (hnone : moved.all Option.isNone = true)
    (entry : Option (Nat × Nat)) : (entry.filter fun (i, _) => (moved.getD i none).isSome) = none := by
  cases entry with
  | none => rfl
  | some t =>
    refine Option.filter_eq_none_iff.mpr fun t _ => ?_
    dsimp only
    rw [List.getD_eq_getElem?_getD]
    cases hi : moved[t.1]? with
    | none => simp
    | some a =>
      have := List.all_eq_true.mp hnone a (List.mem_of_getElem? hi)
      simpa using this

theorem eq_zero_of_takes {arguments : List MatrixId} {v : V}
    (h : g.Takes I.algebra given arguments none v) : v = 0 := by
  cases h
  rfl

theorem follows_pushGather (hg : g.Sound I given) (hk : known.Follows g I given done dx)
    (hnew : e ∉ done) {arguments : List MatrixId} {map : GatherMap}
    (hn : g.node? e = some (.gather arguments map q)) (hp : g.pattern? e = some p)
    (hmap : g.Gathers arguments map p) (hdone : arguments ⊆ done) :
    Keeps (pushGather arguments map e p known) g fun known h =>
      known.Follows h I given (done ++ [e]) dx := by
  have htangent := tangentOf_gather hg dx hn hp hmap
  rw [pushGather]
  dsimp only
  split
  · rename_i hnone
    refine keeps_pure (hk.skip hnew hp fun r c hrc => ?_)
    obtain ⟨entry, hentry, hsource⟩ := exists_of_forall₂ htangent.flip hrc
    have htakes := takes_moved hk hmap.reaches hdone e hentry
    rw [← hsource, filter_eq_none hnone entry] at htakes
    exact eq_zero_of_takes htakes
  · refine (keeps_fill .scalar 0.0).bind fun zero h hgh _ => ?_
    have htakes := (forall₂_and_mem htangent).imp fun entry ij hij =>
      (hij.2 ▸ takes_moved hk hmap.reaches hdone zero hij.1).within hgh.within
    refine (stores_gather I.simplifies.toOnRing (List.forall₂_map_left_iff.mpr htakes)).bind
      fun t k hhk ht => ?_
    have hgk := hgh.trans hhk
    refine keeps_pure ((hk.grow hgk).note (hgk.pattern? hp) ?_)
    rw [tangentOf_of_grows hgk hp]
    exact ht

theorem follows_pushScatter (hg : g.Sound I given) (hk : known.Follows g I given done dx)
    (hnew : e ∉ done) {map : ScatterMap} (hn : g.node? e = some (.scatter a map p))
    (hp : g.pattern? e = some p) (ha : g.pattern? a = some q) (hlength : map.length = q.nnz)
    (htargets : ∀ k, some k ∈ map → k < p.nnz) (hdone : a ∈ done) :
    Keeps (match known.of? a with
      | none => pure known
      | some t => return known.note e (← scatter t map p)) g
      fun known h => known.Follows h I given (done ++ [e]) dx := by
  have hmoves := hk.on hdone ha
  cases hat : known.of? a with
  | none =>
    rw [hat] at hmoves
    refine keeps_pure (hk.skip hnew hp fun r c h => ?_)
    obtain ⟨k, hk⟩ := List.getElem?_of_mem h
    rw [tangentOf_scatter hg dx hn hp ha hlength hk]
    refine List.sum_eq_zero fun v hv => ?_
    obtain ⟨l, -, rfl⟩ := List.mem_map.mp hv
    rw [List.getD_eq_getElem?_getD, Pattern.getElem?_elements]
    cases hl : q.positions[l]? with
    | none => rfl
    | some ij => exact hmoves _ _ (List.mem_of_getElem? hl)
  | some t =>
    rw [hat] at hmoves
    refine (stores_scatter I.simplifies.toOnRing hmoves hlength htargets fun k ij hk =>
      tangentOf_scatter hg dx hn hp ha hlength hk).bind fun s h hgh hs => keeps_pure ?_
    refine (hk.grow hgh).note (hgh.pattern? hp) ?_
    rwa [tangentOf_of_grows hgh hp]

/-! ### Embedded calls -/

theorem tells_movement (hk : known.Follows g I given done dx) (ha : a ∈ done) :
    Keeps (movement known a) g fun t h => h.Tells I given dx a t := by
  obtain ⟨p, hp, hmoves⟩ := hk.moves a ha
  rw [movement]
  cases hat : known.of? a with
  | some t =>
    rw [hat] at hmoves
    exact keeps_pure ⟨p, hp, hmoves⟩
  | none =>
    rw [hat] at hmoves
    refine keeps_patternOf_bind fun q hq => ?_
    obtain rfl := Option.some.inj (hp.symm.trans hq)
    have hzero : Keeps (fill p 0.0) g fun t h =>
        h.Stores I.algebra given t p (g.tangentOf I given dx a) :=
      stores_zero I.simplifies.toOnRing hmoves
    refine hzero.imp fun t h hgh ht => ⟨p, hgh.pattern? hp, ?_⟩
    rwa [tangentOf_of_grows hgh hp]

theorem follows_pushCall (hg : g.Sound I given) (hk : known.Follows g I given done dx)
    (hnew : e ∉ done) {r s : Routine} {d : FunctionObject} {arguments : List MatrixId} {o : Nat}
    (hn : g.node? e = some (.call r arguments o)) (hp : g.pattern? e = some p)
    (harguments : arguments.map g.pattern? = r.inPatterns.map some)
    (hd : r.forwardDerivative = .ok d) (hs : d.routine = .ok s) (hexact : d.FoldsExact I.algebra)
    (hdone : arguments ⊆ done) :
    Keeps (pushCall s arguments o e known) g fun known h =>
      known.Follows h I given (done ++ [e]) dx := by
  rw [pushCall]
  split
  · rename_i hnone
    refine keeps_pure (hk.skip hnew hp fun i j _ => ?_)
    rw [tangentOf_call_of_still hg hn harguments fun a ha => ?_]
    · rfl
    · obtain ⟨q, hq⟩ := exists_pattern?_of_map harguments ha
      have hmoves := hk.on (hdone ha) hq
      rw [Option.isNone_iff_eq_none.mp (List.all_eq_true.mp hnone a ha)] at hmoves
      rw [← masked_tangentOf hq]
      exact funext₂ (Pattern.masked_eq_zero hmoves)
  · have hmoved : Keeps (arguments.mapM (movement known)) g fun ts h =>
        List.Forall₂ (h.Tells I given dx) arguments ts :=
      .mapM (fun a t g h hgrow ht => ht.grow hgrow) fun a ha h hgh =>
        tells_movement (hk.grow hgh) (hdone ha)
    refine hmoved.bind fun ts h hgh hts => keeps_of_wellTyped fun hh => ?_
    refine (stores_forwardCall hh (hgh.node? hn) (hgh.pattern? hp) hd hs hexact hts).bind
      fun t k hhk ht => keeps_pure ?_
    have hgk := hgh.trans hhk
    refine (hk.grow hgk).note (hgk.pattern? hp) ?_
    rwa [tangentOf_of_grows hhk (hgh.pattern? hp)]

/-! ### Several directions -/

/-- In every direction derivatives are on patterns, and in a reliable graph they tell how the expressions
move that are done. -/
def AllFollow (I : Interpretation V) (given : MatrixId → Option (List V)) (done : List MatrixId)
    (dxs : List (MatrixId → Nat → V)) (directions : List Sensitivities) (g : MatrixGraph) : Prop :=
  List.Forall₂ (fun dx known => known.Typed g ∧
    (g.Reliable I given → known.Follows g I given done dx)) dxs directions

variable {dxs : List (MatrixId → Nat → V)} {directions : List Sensitivities} {h : MatrixGraph}

theorem AllFollow.grow (hds : AllFollow I given done dxs directions g) (hgrow : g.Grows h) :
    AllFollow I given done dxs directions h :=
  hds.imp fun dx known hk =>
    lasts_typed.guarded reliable_of_grows (lasts_follows I given done dx) known g h hgrow hk

theorem allFollow_empty {S : (MatrixId → Nat → V) → List (Option MatrixId) → Prop}
    {seeds : List (List (Option MatrixId))} (hseeds : List.Forall₂ S dxs seeds) :
    AllFollow I given [] dxs (seeds.map fun _ => .empty) g :=
  List.forall₂_map_right_iff.mpr (hseeds.imp fun _ _ _ => ⟨typed_empty g, fun _ => follows_empty⟩)

/-- An expression that moves in no direction needs no derivative. -/
theorem AllFollow.skip (hds : AllFollow I given done dxs directions g) (hnew : e ∉ done)
    (hp : g.pattern? e = some p)
    (hzero : g.Reliable I given → ∀ dx ∈ dxs, g.tangentOf I given dx e = 0) :
    AllFollow I given (done ++ [e]) dxs directions g := by
  refine (forall₂_and_mem hds).imp fun dx known hk => ⟨hk.2.1, fun hg => ?_⟩
  refine (hk.2.2 hg).skip hnew hp fun r c _ => ?_
  rw [hzero hg dx hk.1]
  rfl

theorem follows_directions (hds : AllFollow I given done dxs directions g)
    {f : Sensitivities → MatrixBuilder Sensitivities}
    (always : ∀ known h, g.Grows h → known.Typed h → Keeps (f known) h Typed)
    (step : ∀ dx known h, g.Grows h → h.WellTyped → h.Reliable I given →
      known.Follows h I given done dx →
      Keeps (f known) h fun known k => known.Follows k I given (done ++ [e]) dx) :
    Keeps (directions.mapM f) g (AllFollow I given (done ++ [e]) dxs) :=
  .mapM_guarded reliable_of_grows lasts_typed lasts_typed (lasts_follows I given done)
    (lasts_follows I given (done ++ [e])) always
    (fun dx known h hgh hh hk => keeps_of_wellTyped fun ht =>
      (step dx known h hgh ht hh hk).imp fun _ _ _ hknown _ => hknown) hds

theorem follows_inTurn (hds : AllFollow I given done dxs directions g) {σ : Type}
    {f : σ → Sensitivities → MatrixBuilder (σ × Sensitivities)} {M : σ → MatrixGraph → Prop}
    (always : ∀ s known h, g.Grows h → known.Typed h → Keeps (f s known) h fun r => Typed r.2)
    (step : ∀ dx s known h, g.Grows h → h.WellTyped → h.Reliable I given → M s h →
      known.Follows h I given done dx →
      Keeps (f s known) h fun r k => M r.1 k ∧ r.2.Follows k I given (done ++ [e]) dx)
    {s : σ} (hs : M s g) : Keeps (inTurn f s directions) g (AllFollow I given (done ++ [e]) dxs) :=
  .inTurn_guarded reliable_of_grows lasts_typed lasts_typed (lasts_follows I given done)
    (lasts_follows I given (done ++ [e])) always
    (fun dx s known h hgh hh hs hk => keeps_of_wellTyped fun ht =>
      (step dx s known h hgh ht hh hs hk).imp fun _ _ _ hr _ => hr) hs hds

/-- **One node**, in all directions. -/
theorem follows_forwardNode {n : MatrixNode} (hg : g.WellTyped)
    (hds : AllFollow I given done dxs directions g) (hnew : e ∉ done)
    (hn : g.node? e = some n) (hp : g.pattern? e = some p) (hsymbol : n.isSymbol = false)
    (hoperands : n.valueOperands ⊆ done) :
    Keeps (forwardNode e p directions n) g (AllFollow I given (done ++ [e]) dxs) := by
  have htyped := hg.typed e n p hn hp
  cases htyped with
  | symbol => cases hsymbol
  | constant m =>
    exact keeps_pure (hds.skip hnew hp fun hr dx _ => tangentOf_constant ⟨hg, hr.admits⟩ hn)
  | @unary op x _ hx hdense =>
    refine follows_inTurn hds (M := fun made h =>
      h.Handed I.algebra given p (g.unaryPartialOf I given op x e) made)
      (fun made known h hgh hk => keeps_pushUnary hk (hgh.pattern? hp) op x made)
      (fun dx made known h hgh hh hr hmade hk => ?_) handed_none
    rw [← unaryPartialOf_of_grows hgh hx hp] at hmade ⊢
    exact follows_pushUnary ⟨hh, hr.admits⟩ hk hnew (hgh.node? hn) (hgh.pattern? hp) (hgh.pattern? hx)
      (hoperands (by simp [MatrixNode.valueOperands, MatrixNode.operands])) hmade
  | @binary op x y _ hfx hfy hxy =>
    obtain ⟨pa, hx, -⟩ := exists_pattern?_of_fits hfx
    obtain ⟨pb, hy, -⟩ := exists_pattern?_of_fits hfy
    refine follows_inTurn hds (M := fun made h =>
      h.Handed I.algebra given p (g.binaryPartialOf I given op .left p x y e) made.1 ∧
        h.Handed I.algebra given p (g.binaryPartialOf I given op .right p x y e) made.2)
      (fun made known h hgh hk => keeps_pushBinary hk (hgh.pattern? hp) op x y made)
      (fun dx made known h hgh hh hr hmade hk => ?_) ⟨handed_none, handed_none⟩
    simp only [← binaryPartialOf_of_grows hgh hx hy hp] at hmade ⊢
    exact follows_pushBinary ⟨hh, hr.admits⟩ hk hnew (hgh.node? hn) (hgh.pattern? hp)
      (hfx.imp hgh.pattern? hgh.pattern?) (hfy.imp hgh.pattern? hgh.pattern?)
      (hoperands (by simp [MatrixNode.valueOperands, MatrixNode.operands]))
      (hoperands (by simp [MatrixNode.valueOperands, MatrixNode.operands])) hmade.1 hmade.2
  | @product x y pa pb hx hy hinner =>
    exact follows_directions hds
      (fun known h hgh hk => keeps_pushProduct hk (hgh.pattern? hp) x y)
      fun dx known h hgh hh hr hk => follows_pushProduct ⟨hh, hr.admits⟩ hk hnew (hgh.node? hn)
        (hgh.pattern? hp) (hgh.pattern? hx) (hgh.pattern? hy)
        (hoperands (by simp [MatrixNode.valueOperands, MatrixNode.operands]))
        (hoperands (by simp [MatrixNode.valueOperands, MatrixNode.operands]))
  | @gather arguments map _ hmap =>
    have hmap : ∀ {h}, g.Grows h → h.Gathers arguments map p := fun hgh =>
      ⟨hmap.length, hmap.reaches.grow hgh.pattern?, hmap.nodup, hmap.used⟩
    exact follows_directions hds
      (fun known h hgh hk => keeps_pushGather hk (hgh.pattern? hp) (hmap hgh))
      fun dx known h hgh hh hr hk => follows_pushGather ⟨hh, hr.admits⟩ hk hnew (hgh.node? hn)
        (hgh.pattern? hp) (hmap hgh) hoperands
  | @scatter x map _ q hx hlength htargets =>
    refine follows_directions hds (fun known h hgh hk => ?_) fun dx known h hgh hh hr hk =>
      follows_pushScatter ⟨hh, hr.admits⟩ hk hnew (hgh.node? hn) (hgh.pattern? hp) (hgh.pattern? hx)
        hlength htargets (hoperands (by simp [MatrixNode.valueOperands, MatrixNode.operands]))
    exact keeps_pushScatter hk (hgh.pattern? hp) (hgh.pattern? hx) hlength htargets
  | @call r arguments o _ harguments ho =>
    refine (keeps_derivativeRoutine_exact I given hn (.inl rfl)).bind fun s h hgh hs => ?_
    obtain ⟨d, hd, hs, hexact⟩ := hs
    obtain ⟨hin, hout⟩ := Routine.patterns_forwardDerivative hd hs
    refine follows_directions (hds.grow hgh) (fun known k hhk hk => ?_) fun dx known k hhk ht hr hk =>
      follows_pushCall ⟨ht, hr.admits⟩ hk hnew ((hgh.trans hhk).node? hn) ((hgh.trans hhk).pattern? hp)
        (MatrixNode.map_pattern?_grow (hgh.trans hhk).pattern? harguments) hd hs
        (hexact (hr.of_grows hhk)) hoperands
    have hgk := hgh.trans hhk
    exact keeps_pushCall hk (hgk.pattern? hp) ((MatrixNode.Typed.call harguments ho).grow hgk) hin hout
  | @lift value guess _ hvalue hguess =>
    refine keeps_pure (List.forall₂_map_right_iff.mpr (hds.imp fun dx known hk => ?_))
    have hdone := hoperands (show value ∈ _ by simp [MatrixNode.valueOperands])
    cases ht : known.of? value with
    | none =>
      refine ⟨hk.1, fun hr => (hk.2 hr).skip hnew hp fun r c h => ?_⟩
      have hmoves := (hk.2 hr).on hdone hvalue
      rw [ht] at hmoves
      rw [tangentOf_lift ⟨hg, hr.admits⟩ hn hp hvalue, hmoves r c h]
    | some t =>
      refine ⟨hk.1.note hp (hk.1.on ht hvalue), fun hr => (hk.2 hr).note hp ?_⟩
      have hmoves := (hk.2 hr).on hdone hvalue
      rw [ht] at hmoves
      rwa [tangentOf_lift ⟨hg, hr.admits⟩ hn hp hvalue]

/-! ### Whole sweeps -/

/-- A seed tells how the inputs move along a direction, and nothing but the inputs moves. -/
structure SeedMoves (g : MatrixGraph) (I : Interpretation V) (given : MatrixId → Option (List V))
    (inputs : List MatrixId) (dx : MatrixId → Nat → V) (seed : List (Option MatrixId)) : Prop where
  moves : ∀ i e, inputs.idxOf? e = some i → ∃ p, g.pattern? e = some p ∧
    g.ReadsAs I.algebra given (seed.getD i none) p (g.tangentOf I given dx e)
  fixed : ∀ e, inputs.idxOf? e = none → dx e = 0

variable {inputs outputs : List MatrixId} {seeds : List (List (Option MatrixId))}
  {seed : List (Option MatrixId)}

theorem SeedMoves.grow (hs : SeedMoves g I given inputs dx seed) (hgrow : g.Grows h) :
    SeedMoves h I given inputs dx seed := by
  refine ⟨fun i e he => ?_, hs.fixed⟩
  obtain ⟨p, hp, hmoves⟩ := hs.moves i e he
  refine ⟨p, hgrow.pattern? hp, ?_⟩
  rw [tangentOf_of_grows hgrow hp]
  exact hmoves.grow hgrow

/-- In a reliable graph seeds tell how the inputs move. -/
def AllMove (I : Interpretation V) (given : MatrixId → Option (List V)) (inputs : List MatrixId)
    (dxs : List (MatrixId → Nat → V)) (seeds : List (List (Option MatrixId))) (g : MatrixGraph) :
    Prop :=
  List.Forall₂ (fun dx seed => g.Reliable I given → SeedMoves g I given inputs dx seed) dxs seeds

theorem AllMove.grow (hseeds : AllMove I given inputs dxs seeds g) (hgrow : g.Grows h) :
    AllMove I given inputs dxs seeds h :=
  hseeds.imp fun _ _ hs hh => (hs (hh.of_grows hgrow)).grow hgrow

/-- An input moves as the seed tells. -/
theorem follows_input {i : Nat} (hs : SeedMoves g I given inputs dx seed)
    (hk : known.Follows g I given done dx) (hnew : e ∉ done) (hp : g.pattern? e = some p)
    (hi : inputs.idxOf? e = some i) :
    Keeps (match seed.getD i none with
      | none => pure known
      | some s => record e p known s) g fun known h => known.Follows h I given (done ++ [e]) dx := by
  obtain ⟨q, hq, hmoves⟩ := hs.moves i e hi
  obtain rfl := Option.some.inj (hp.symm.trans hq)
  cases ht : seed.getD i none with
  | none =>
    rw [ht] at hmoves
    exact keeps_pure (hk.skip hnew hp hmoves)
  | some t =>
    rw [ht] at hmoves
    obtain ⟨q, y, -, hstores, hy⟩ := hmoves
    exact follows_record hk hp hstores hy

/-- **One instruction** that computes an expression, in all directions. -/
theorem follows_forwardStep {i : MatrixInstr} {n : MatrixNode} (hg : g.WellTyped)
    (hseeds : AllMove I given inputs dxs seeds g) (hds : AllFollow I given done dxs directions g)
    (hn : g.node? i.node = some n) (hp : g.pattern? i.node = some i.pattern)
    (hcarries : Carries inputs i.node i.op n) (hnew : i.node ∉ done)
    (hoperands : n.valueOperands ⊆ done) :
    Keeps (forwardStep seeds directions i) g (AllFollow I given (done ++ [i.node]) dxs) := by
  rw [forwardStep]
  generalize i.op = op at hcarries
  cases hcarries with
  | @input serial p j hj =>
    have hpairs : List.Forall₂ (fun dx (sk : List (Option MatrixId) × Sensitivities) =>
        sk.2.Typed g ∧ (g.Reliable I given →
          SeedMoves g I given inputs dx sk.1 ∧ sk.2.Follows g I given done dx))
        dxs (seeds.zip directions) :=
      (forall₂_zip hseeds hds).imp fun dx sk h => ⟨h.2.1, fun hr => ⟨h.1 hr, h.2.2 hr⟩⟩
    refine Keeps.mapM_guarded (P := fun (sk : List (Option MatrixId) × Sensitivities) h => sk.2.Typed h)
      (Q := fun dx sk h => SeedMoves h I given inputs dx sk.1 ∧ sk.2.Follows h I given done dx)
      reliable_of_grows (fun sk g h hgrow hk => hk.grow hgrow) lasts_typed
      (fun dx sk g h hgrow hk => ⟨hk.1.grow hgrow, hk.2.grow hgrow⟩)
      (lasts_follows I given (done ++ [i.node])) (fun sk h hgh hk => ?_)
      (fun dx sk h hgh hh hk => ?_) hpairs
    · dsimp only
      split
      · exact keeps_pure hk
      · exact keeps_record hk (hgh.pattern? hp) _
    · exact (follows_input hk.1 hk.2 hnew (hgh.pattern? hp) hj).imp fun _ _ _ hknown _ => hknown
  | @free serial p k hfree =>
    refine keeps_pure (hds.skip hnew hp fun hr dx hdx => ?_)
    obtain ⟨seed, -, hs⟩ := exists_of_forall₂ hseeds hdx
    exact tangentOf_free ⟨hg, hr.admits⟩ hn hp ((hs hr).fixed _ hfree)
  | constant m =>
    exact keeps_pure (hds.skip hnew hp fun hr dx _ => tangentOf_constant ⟨hg, hr.admits⟩ hn)
  | operation hop hsymbol =>
    split
    · cases hop
    · cases hop
    · cases hop
    · cases hop
    · refine keeps_nodeOf_bind fun n' hn' => ?_
      obtain rfl := Option.some.inj (hn.symm.trans hn')
      exact follows_forwardNode hg hds hnew hn hp hsymbol hoperands

/-- Instructions in order, in all directions: in the end all their expressions are done. -/
theorem follows_instrs {instrs : List MatrixInstr} (ho : Ordered g inputs outputs done instrs)
    (hpatterns : ∀ i ∈ instrs, g.pattern? i.node = some i.pattern)
    (hseeds : AllMove I given inputs dxs seeds g) (hds : AllFollow I given done dxs directions g) :
    Keeps (instrs.foldlM (forwardStep seeds) directions) g fun directions h =>
      ∃ all, done ⊆ all ∧ (∀ i ∈ instrs, i.node ∈ all) ∧ AllFollow I given all dxs directions h := by
  induction instrs generalizing g done directions with
  | nil => exact keeps_pure ⟨done, fun _ he => he, fun _ hi => absurd hi List.not_mem_nil, hds⟩
  | cons i rest ih =>
    have hi := hpatterns i (by simp)
    rw [List.foldlM_cons]
    cases ho with
    | store hop hout hdone ho =>
      rw [forwardStep, hop]
      refine (ih ho (fun i' hi' => hpatterns i' (by simp [hi'])) hseeds hds).imp fun ds h _ hds => ?_
      obtain ⟨all, hsubset, hnodes, hds⟩ := hds
      exact ⟨all, hsubset, List.forall_mem_cons.mpr ⟨hsubset hdone, hnodes⟩, hds⟩
    | @compute _ _ _ n hn hcarries hnew hoperands ho =>
      refine keeps_of_wellTyped fun hg => ?_
      refine (follows_forwardStep hg hseeds hds hn hi hcarries hnew hoperands).bind
        fun ds h hgh hds => ?_
      refine (ih (ho.grow hgh) (fun i' hi' => hgh.pattern? (hpatterns i' (by simp [hi'])))
        (hseeds.grow hgh) hds).imp fun ds k _ hds => ?_
      obtain ⟨all, hsubset, hnodes, hds⟩ := hds
      exact ⟨all, fun e he => hsubset (by simp [he]),
        List.forall_mem_cons.mpr ⟨hsubset (by simp), hnodes⟩, hds⟩

/-- Every output has an instruction that stores it. -/
theorem Resides.exists_store (ht : Resides g inputs outputs tape) {o : Nat}
    (ho : outputs[o]? = some e) : ∃ i ∈ tape.instrs, i.node = e := by
  have hmem : (o, e) ∈ outputs.zipIdx.map Prod.swap :=
    List.mem_map.mpr ⟨(e, o), List.mem_zipIdx_iff_getElem?.mpr ho, rfl⟩
  rw [← ht.stores] at hmem
  obtain ⟨i, hi, hstore⟩ := List.mem_filterMap.mp hmem
  refine ⟨i, hi, ?_⟩
  rw [MatrixInstr.stores?] at hstore
  split at hstore
  · exact congrArg Prod.snd (Option.some.inj hstore)
  · cases hstore

/-- **Forward sweeps** tell how the outputs move, in every direction in which seeds move the inputs. -/
theorem follows_forward {tape : MatrixTape} (ht : Resides g inputs outputs tape)
    (hseeds : AllMove I given inputs dxs seeds g) :
    Keeps (tape.forward outputs seeds) g fun moved h => h.Reliable I given →
      List.Forall₂ (fun dx row => ∀ o e, outputs[o]? = some e → ∃ p, h.pattern? e = some p ∧
        h.AmountsTo I.algebra given (row.getD o none) p (h.tangentOf I given dx e)) dxs moved := by
  rw [forward]
  refine (follows_instrs ht.ordered ht.patterned hseeds (allFollow_empty hseeds)).bind
    fun ds h hgh hds => keeps_pure fun hr => ?_
  obtain ⟨all, -, hnodes, hds⟩ := hds
  refine List.forall₂_map_right_iff.mpr (hds.imp fun dx known hk o e he => ?_)
  obtain ⟨i, hi, rfl⟩ := ht.exists_store he
  rw [getD_of_getElem? (by rw [List.getElem?_map, he]; rfl)]
  exact (hk.2 hr).moves _ (hnodes i hi)

end MatrixTape

end Fluxion
