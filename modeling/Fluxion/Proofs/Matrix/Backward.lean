import Fluxion.Proofs.Matrix.Adjoints
import Fluxion.Proofs.Matrix.Order

/-!
# Reverse sweeps over matrix tapes

A reverse sweep keeps, for each direction that weighs the outputs, weights of the expressions that the
tape computes. Pair every expression that is not treated yet with how it moves, and the inputs as well,
and add up: as long as the sweep goes on this is what the weighted outputs that were met contribute. When
a node is treated its weight is handed on to the operands, which does not change the sum, since each rule
for derivatives has an adjoint. In the end only the inputs are left.

## Main definitions

* `Sensitivities.AmountTo` — known derivatives as matrices
* `MatrixTape.total` — weights, paired with how expressions move
* `MatrixTape.Gains` — what a request adds to the total

## Main results

* `MatrixTape.gains_pull` — **one node** hands on its weight
* `MatrixTape.balances_reverse` — **reverse sweeps** weigh the inputs as the outputs were weighed
-/

namespace Fluxion

open MatrixBuilder

variable {V : Type} [CommRing V]

namespace Sensitivities

variable {known : Sensitivities} {g h : MatrixGraph} {I : Interpretation V}
  {given : MatrixId → Option (List V)} {adj : MatrixId → Nat → Nat → V} {a e t : MatrixId}
  {p : Pattern} {y : Nat → Nat → V}

/-- The derivatives that are known store matrices, and those that are missing are zero. -/
structure AmountTo (known : Sensitivities) (g : MatrixGraph) (I : Interpretation V)
    (given : MatrixId → Option (List V)) (adj : MatrixId → Nat → Nat → V) : Prop where
  stored : ∀ e s, known.of? e = some s → ∃ p, g.pattern? e = some p ∧
    g.Stores I.algebra given s p (adj e)
  missing : ∀ e, known.of? e = none → adj e = 0

theorem amountTo_empty : AmountTo .empty g I given 0 :=
  ⟨fun e s hs => by rw [of?, NumberMap.find?_empty] at hs; contradiction, fun _ _ => rfl⟩

theorem AmountTo.grow (hk : known.AmountTo g I given adj) (hgrow : g.Grows h) :
    known.AmountTo h I given adj := by
  refine ⟨fun e s hs => ?_, hk.missing⟩
  obtain ⟨p, hp, hstores⟩ := hk.stored e s hs
  exact ⟨p, hgrow.pattern? hp, hstores.grow hgrow⟩

theorem AmountTo.typed (hk : known.AmountTo g I given adj) : known.Typed g := by
  intro e s hs
  obtain ⟨p, hp, hstores⟩ := hk.stored e s hs
  exact ⟨p, hp, hstores.pattern⟩

theorem AmountTo.on {s : MatrixId} (hk : known.AmountTo g I given adj) (hs : known.of? e = some s)
    (hp : g.pattern? e = some p) : g.Stores I.algebra given s p (adj e) := by
  obtain ⟨q, hq, hstores⟩ := hk.stored e s hs
  obtain rfl := Option.some.inj (hp.symm.trans hq)
  exact hstores

theorem AmountTo.note (hk : known.AmountTo g I given adj) (hp : g.pattern? a = some p)
    (ht : g.Stores I.algebra given t p y) :
    (known.note a t).AmountTo g I given (Function.update adj a y) := by
  refine ⟨fun e s hs => ?_, fun e hnone => ?_⟩
  · rw [of?_note] at hs
    split at hs
    · rename_i hea
      obtain rfl := Option.some.inj hs
      rw [hea, Function.update_self]
      exact ⟨p, hp, ht⟩
    · rename_i hea
      rw [Function.update_of_ne hea]
      exact hk.stored e s hs
  · rw [of?_note] at hnone
    split at hnone
    · cases hnone
    · rename_i hea
      rw [Function.update_of_ne hea]
      exact hk.missing e hnone

end Sensitivities

namespace MatrixTape

open Sensitivities MatrixGraph

/-! ### What requests add -/

section Gains

variable (g : MatrixGraph) (I : Interpretation V) (given : MatrixId → Option (List V))
  (S : Finset MatrixId)

/-- Weights of expressions, paired with how these move along a direction. -/
def total (adj : MatrixId → Nat → Nat → V) (dx : MatrixId → Nat → V) : V :=
  ∑ e ∈ S, (patternIn g e).pairing (adj e) (g.tangentOf I given dx e)

/-- The derivatives that are known in a later graph add something to the total, along each direction. -/
def Gains (adj : MatrixId → Nat → Nat → V) (added : (MatrixId → Nat → V) → V)
    (known : Sensitivities) (h : MatrixGraph) : Prop :=
  ∃ adj', known.AmountTo h I given adj' ∧
    ∀ dx, total g I given S adj' dx = total g I given S adj dx + added dx

end Gains

variable {g h : MatrixGraph} {I : Interpretation V} {given : MatrixId → Option (List V)}
  {S : Finset MatrixId} {known : Sensitivities} {adj adj' : MatrixId → Nat → Nat → V}
  {a e s t x y : MatrixId} {p q pa pb : Pattern} {z : Nat → Nat → V}

theorem Gains.congr {added added' : (MatrixId → Nat → V) → V}
    (hgains : Gains g I given S adj added known h) (heq : ∀ dx, added dx = added' dx) :
    Gains g I given S adj added' known h := by
  obtain ⟨adj', hk, htotal⟩ := hgains
  exact ⟨adj', hk, fun dx => by rw [htotal, heq]⟩

theorem Gains.after {added added' : (MatrixId → Nat → V) → V}
    (htotal : ∀ dx, total g I given S adj' dx = total g I given S adj dx + added dx)
    (hgains : Gains g I given S adj' added' known h) :
    Gains g I given S adj (fun dx => added dx + added' dx) known h := by
  obtain ⟨adj'', hk, htotal'⟩ := hgains
  exact ⟨adj'', hk, fun dx => by rw [htotal', htotal, add_assoc]⟩

theorem gains_nothing (hk : known.AmountTo h I given adj) :
    Gains g I given S adj (fun _ => 0) known h :=
  ⟨adj, hk, fun _ => (add_zero _).symm⟩

theorem total_update (ha : a ∈ S) (hp : g.pattern? a = some p) (z : Nat → Nat → V)
    (dx : MatrixId → Nat → V) :
    total g I given S (Function.update adj a fun r c => adj a r c + z r c) dx
      = total g I given S adj dx + p.pairing z (g.tangentOf I given dx a) := by
  rw [total, total, ← Finset.add_sum_erase S _ ha, ← Finset.add_sum_erase S _ ha,
    Function.update_self, patternIn_eq hp, Pattern.pairing_add_left, add_right_comm]
  refine congrArg (_ + · + _) (Finset.sum_congr rfl fun e he => ?_)
  rw [Function.update_of_ne (Finset.ne_of_mem_erase he)]

/-- What is accumulated is paired with how the target moves. -/
theorem gains_accumulate (hgh : g.Grows h) (hk : known.AmountTo h I given adj) (ha : a ∈ S)
    (hp : g.pattern? a = some p) (ht : h.Stores I.algebra given t q z) :
    Keeps (accumulate known a t) h
      (Gains g I given S adj fun dx => q.pairing z (g.tangentOf I given dx a)) := by
  have hA := I.simplifies.toOnRing
  refine keeps_patternOf_bind fun p' hp' => ?_
  obtain rfl := Option.some.inj ((hgh.pattern? hp).symm.trans hp')
  refine (stores_project hA ht p).bind fun t' k hhk ht' => ?_
  obtain ⟨hshape, ht'⟩ := ht'
  have hpk := hhk.pattern? hp'
  have htotal : ∀ dx, total g I given S
        (Function.update adj a fun r c => adj a r c + q.masked z r c) dx
      = total g I given S adj dx + q.pairing z (g.tangentOf I given dx a) := fun dx => by
    rw [total_update ha hp, Pattern.pairing_masked hshape (masked_tangentOf hp)]
  cases hs : known.of? a with
  | none =>
    refine keeps_pure ⟨_, (hk.grow hhk).note hpk (ht'.congr fun r c _ => ?_), htotal⟩
    rw [hk.missing a hs]
    exact (zero_add _).symm
  | some s =>
    refine (stores_add hA ((hk.grow hhk).on hs hpk) ht').bind fun sum l hkl hsum => ?_
    exact keeps_pure ⟨_, ((hk.grow hhk).grow hkl).note (hkl.pattern? hpk) hsum, htotal⟩

/-- Requests one after another add up. -/
theorem gains_foldlM {ι : Type} {f : Sensitivities → ι → MatrixBuilder Sensitivities}
    {items : List ι} (added : ι → (MatrixId → Nat → V) → V)
    (step : ∀ i ∈ items, ∀ known adj k, h.Grows k → known.AmountTo k I given adj →
      Keeps (f known i) k (Gains g I given S adj (added i)))
    (hk : known.AmountTo h I given adj) :
    Keeps (items.foldlM f known) h
      (Gains g I given S adj fun dx => (items.map (added · dx)).sum) := by
  induction items generalizing h known adj with
  | nil => exact keeps_pure (gains_nothing hk)
  | cons i rest ih =>
    rw [List.foldlM_cons]
    refine (step i (by simp) known adj h (.refl h) hk).bind fun known' k hhk hgains => ?_
    obtain ⟨adj', hk', htotal⟩ := hgains
    refine (ih (fun j hj known adj l hkl => step j (by simp [hj]) known adj l (hhk.trans hkl))
      hk').imp fun known'' l _ hgains => ?_
    exact (hgains.after htotal).congr fun dx => by rw [List.map_cons, List.sum_cons]

/-! ### Elementwise operations -/

theorem gains_pullUnary (hg : g.Sound I given) (hgh : g.Grows h) {op : UnaryOp}
    (hn : g.node? e = some (.unary op x)) (hp : g.pattern? e = some p) (hx : g.pattern? x = some p)
    (hxS : x ∈ S) (hs : h.Stores I.algebra given s p z) (hk : known.AmountTo h I given adj)
    {made : Option MatrixId}
    (hmade : h.Handed I.algebra given p (g.unaryPartialOf I given op x e) made) :
    Keeps (pullUnary op x e s made known) h fun r k =>
      k.Handed I.algebra given p (g.unaryPartialOf I given op x e) r.1 ∧
        Gains g I given S adj (fun dx => p.pairing z (g.tangentOf I given dx e)) r.2 k := by
  have hA := I.simplifies.toOnRing
  rw [← unaryPartialOf_of_grows hgh hx hp] at hmade ⊢
  refine keeps_of_wellTyped fun hh => ?_
  refine (serves_unaryPartialOf hh (hgh.pattern? hx) (hgh.pattern? hp) op hmade).bind
    fun d k hhk hd => ?_
  refine (stores_mul_of_serves hA hd (hs.grow hhk)).bind fun t l hkl ht => ?_
  obtain ⟨q, -, hpositions, ht⟩ := ht
  have hhl := hhk.trans hkl
  refine (gains_accumulate (hgh.trans hhl) (hk.grow hhl) hxS hx ht).bind
    fun known' m hlm hgains => keeps_pure ⟨handed_some ((hd.grow hkl).grow hlm), ?_⟩
  refine hgains.congr fun dx => ?_
  rw [Pattern.pairing_of_positions hpositions, unaryPartialOf_of_grows hgh hx hp,
    ← pairing_unary hg hn hp hx]

/-- The weight of an operand of a binary result, with its elements added up if it was repeated. -/
theorem gains_giveBack (hgh : g.Grows h) {op : BinaryOp} {side : Side} (hx : g.pattern? x = some pa)
    (hy : g.pattern? y = some pb) (hp : g.pattern? e = some p) (hfx : g.Fits p x) (hfy : g.Fits p y)
    (ha : g.pattern? a = some q) (hfits : q = p ∨ q = .scalar) (haS : a ∈ S)
    (hs : h.Stores I.algebra given s p z) (hk : known.AmountTo h I given adj)
    {made : Option MatrixId}
    (hmade : h.Handed I.algebra given p (g.binaryPartialOf I given op side p x y e) made) :
    Keeps (giveBack op side x y e p s a made known) h fun r k =>
      k.Handed I.algebra given p (g.binaryPartialOf I given op side p x y e) r.1 ∧
        Gains g I given S adj (fun dx => p.pairing
          (fun r c => g.binaryPartialOf I given op side p x y e r c * z r c)
          (q.spread p (g.tangentOf I given dx a))) r.2 k := by
  have hA := I.simplifies.toOnRing
  rw [← binaryPartialOf_of_grows hgh hx hy hp] at hmade ⊢
  refine keeps_of_wellTyped fun hh => ?_
  refine (serves_binaryPartialOf hh (hgh.pattern? hx) (hgh.pattern? hy) (hgh.pattern? hp)
    (hfx.imp hgh.pattern? hgh.pattern?) (hfy.imp hgh.pattern? hgh.pattern?) op side hmade).bind
    fun d k hhk hd => ?_
  refine (stores_mul_of_serves hA hd (hs.grow hhk)).bind fun t l hkl ht => ?_
  obtain ⟨q', hshape, hpositions, ht⟩ := ht
  have hhl := hhk.trans hkl
  have hd := hd.grow hkl
  refine keeps_patternOf_bind fun q'' hq => ?_
  obtain rfl := Option.some.inj (((hgh.trans hhl).pattern? ha).symm.trans hq)
  dsimp only
  split
  · rename_i hrepeated
    obtain ⟨hscalar, hsingle⟩ : q.isScalar = true ∧ p.isScalar = false := by simpa using hrepeated
    have hne : Pattern.scalar.shape ≠ p.shape := fun heq => by
      rw [Pattern.isScalar, ← heq] at hsingle
      exact absurd hsingle (by decide)
    obtain rfl : q = .scalar := hfits.resolve_left fun heq => by
      rw [heq, hsingle] at hscalar
      exact Bool.false_ne_true hscalar
    refine (stores_sum hA ht).bind fun sum m hlm hsum => ?_
    refine (gains_accumulate ((hgh.trans hhl).trans hlm) ((hk.grow hhl).grow hlm) haS ha hsum).bind
      fun known' n hmn hgains => keeps_pure ⟨handed_some ((hd.grow hlm).grow hmn), ?_⟩
    refine hgains.congr fun dx => ?_
    rw [Pattern.pairing_spread_scalar hne, Pattern.masked_of_positions hpositions,
      show q'.nrows = p.nrows from congrArg Prod.fst hshape,
      show q'.ncols = p.ncols from congrArg Prod.snd hshape]
  · rename_i hrepeated
    rw [pure_bind]
    refine (gains_accumulate (hgh.trans hhl) (hk.grow hhl) haS ha ht).bind
      fun known' n hln hgains => keeps_pure ⟨handed_some (hd.grow hln), ?_⟩
    refine hgains.congr fun dx => ?_
    have hqp : q.shape = p.shape := by
      obtain rfl | rfl := hfits
      · rfl
      · have hsingle : p.isScalar = true := by
          simpa [show Pattern.scalar.isScalar = true by decide] using hrepeated
        exact (beq_iff_eq.mp hsingle).symm
    rw [Pattern.pairing_of_positions hpositions, Pattern.spread, if_pos hqp, masked_tangentOf ha]

theorem gains_pullBinary (hg : g.Sound I given) (hgh : g.Grows h) {op : BinaryOp}
    (hn : g.node? e = some (.binary op x y)) (hp : g.pattern? e = some p) (hfx : g.Fits p x)
    (hfy : g.Fits p y) (hxS : x ∈ S) (hyS : y ∈ S) (hs : h.Stores I.algebra given s p z)
    (hk : known.AmountTo h I given adj) {made : Option MatrixId × Option MatrixId}
    (hleft : h.Handed I.algebra given p (g.binaryPartialOf I given op .left p x y e) made.1)
    (hright : h.Handed I.algebra given p (g.binaryPartialOf I given op .right p x y e) made.2) :
    Keeps (pullBinary op x y e p s made known) h fun r k =>
      (k.Handed I.algebra given p (g.binaryPartialOf I given op .left p x y e) r.1.1 ∧
        k.Handed I.algebra given p (g.binaryPartialOf I given op .right p x y e) r.1.2) ∧
        Gains g I given S adj (fun dx => p.pairing z (g.tangentOf I given dx e)) r.2 k := by
  obtain ⟨pa, hx, hpa⟩ := exists_pattern?_of_fits hfx
  obtain ⟨pb, hy, hpb⟩ := exists_pattern?_of_fits hfy
  refine (gains_giveBack hgh hx hy hp hfx hfy hx hpa hxS hs hk hleft).bind fun left k hhk hkept => ?_
  obtain ⟨hleft, adj', hk', htotal⟩ := hkept
  refine (gains_giveBack (hgh.trans hhk) hx hy hp hfx hfy hy hpb hyS (hs.grow hhk) hk'
    (hright.grow hhk)).bind fun right l hkl hkept => keeps_pure ⟨⟨hleft.grow hkl, hkept.1⟩, ?_⟩
  exact (hkept.2.after htotal).congr fun dx => (pairing_binary hg hn hp hx hy hfx hfy z).symm

/-! ### Products and rearrangements -/

theorem gains_pullProduct (hg : g.Sound I given) (hgh : g.Grows h)
    (hn : g.node? e = some (.product x y)) (hp : g.pattern? e = some (pa.product pb))
    (hx : g.pattern? x = some pa) (hy : g.pattern? y = some pb) (hinner : pa.ncols = pb.nrows)
    (hxS : x ∈ S) (hyS : y ∈ S) (hs : h.Stores I.algebra given s (pa.product pb) z)
    (hk : known.AmountTo h I given adj) :
    Keeps (pullProduct x y s known) h
      (Gains g I given S adj fun dx => (pa.product pb).pairing z (g.tangentOf I given dx e)) := by
  have hA := I.simplifies.toOnRing
  have hxs : g.Stores I.algebra given x pa (g.elementOf I.algebra given x) :=
    stores_elementOf hg.typed hx
  have hys : g.Stores I.algebra given y pb (g.elementOf I.algebra given y) :=
    stores_elementOf hg.typed hy
  refine (stores_transpose hA (hys.grow hgh)).bind fun ty k hhk hty => ?_
  refine (stores_product hA (hs.grow hhk) hty).bind fun t l hkl ht => ?_
  have hhl := hhk.trans hkl
  refine (gains_accumulate (hgh.trans hhl) (hk.grow hhl) hxS hx ht.2).bind
    fun known' m hlm hgains => ?_
  obtain ⟨adj', hk', htotal⟩ := hgains
  have hhm := hhl.trans hlm
  have hgm := hgh.trans hhm
  refine (stores_transpose hA (hxs.grow hgm)).bind fun tx n hmn htx => ?_
  refine (stores_product hA htx (hs.grow (hhm.trans hmn))).bind fun t' o hno ht' => ?_
  have hmo := hmn.trans hno
  refine (gains_accumulate (hgm.trans hmo) (hk'.grow hmo) hyS hy ht'.2).imp
    fun known'' _ _ hgains => (hgains.after htotal).congr fun dx => ?_
  exact (pairing_product hg hn hp hx hy hinner z).symm

theorem gains_pullGather (hg : g.Sound I given) (hgh : g.Grows h) {arguments : List MatrixId}
    {map : GatherMap} (hn : g.node? e = some (.gather arguments map q)) (hp : g.pattern? e = some p)
    (hmap : g.Gathers arguments map p) (hS : ∀ a ∈ arguments, a ∈ S)
    (hs : h.Stores I.algebra given s p z) (hk : known.AmountTo h I given adj) :
    Keeps (pullGather arguments map s known) h
      (Gains g I given S adj fun dx => p.pairing z (g.tangentOf I given dx e)) := by
  refine (gains_foldlM (fun (ai : MatrixId × Nat) dx => (patternIn g ai.1).pairing
    (p.sentTo (patternIn g ai.1) (map.targets ai.2) z) (g.tangentOf I given dx ai.1)) ?_ hk).imp
    fun known' k _ hgains => hgains.congr fun dx => (pairing_gather hg hn hp hmap z).symm
  rintro ⟨a, i⟩ ha known adj k hhk hk
  have ha' : arguments[i]? = some a := List.mem_zipIdx_iff_getElem?.mp ha
  have haS : a ∈ S := hS a (List.mem_of_getElem? ha')
  obtain ⟨q', hq⟩ : ∃ q', g.pattern? a = some q' := by
    obtain ⟨l, hl⟩ := hmap.used i (List.getElem?_eq_some_iff.mp ha').1
    obtain ⟨b, q', hb, hq, -⟩ := hmap.reaches i l hl
    obtain rfl := Option.some.inj (hb.symm.trans ha')
    exact ⟨q', hq⟩
  refine keeps_patternOf_bind fun q'' hq' => ?_
  obtain rfl := Option.some.inj (((hgh.trans hhk).pattern? hq).symm.trans hq')
  have htargets : ∀ k, some k ∈ map.targets i → k < q'.nnz := fun k hk => by
    obtain ⟨r, hr, hlt⟩ := GatherMap.lt_of_mem_targets hmap.reaches ha' hk
    obtain rfl := Option.some.inj (hq.symm.trans hr)
    exact hlt
  refine (stores_scatter I.simplifies.toOnRing (hs.grow hhk) ((List.length_map _).trans hmap.length)
    htargets fun r ij hr => Pattern.sentTo_of_getElem? hr).bind fun t l hkl ht => ?_
  dsimp only
  rw [patternIn_eq hq]
  exact gains_accumulate ((hgh.trans hhk).trans hkl) (hk.grow hkl) haS hq ht

theorem stores_takenFrom {map : ScatterMap} (hs : h.Stores I.algebra given s p z)
    (hlength : map.length = q.nnz) (htargets : ∀ k, some k ∈ map → k < p.nnz) :
    Keeps (gather [s] (.ofSources map) q) h fun t k =>
      k.Stores I.algebra given t q (p.takenFrom q map z) := by
  refine stores_gather I.simplifies.toOnRing (List.forall₂_map_left_iff.mpr ?_)
  refine List.forall₂_iff_get.mpr ⟨hlength, fun k hk hk' => ?_⟩
  have hget : map[k]? = some (map.get ⟨k, hk⟩) := List.getElem?_eq_getElem hk
  have hmem : map.get ⟨k, hk⟩ ∈ map := List.get_mem ..
  have hvalue : p.takenFrom q map z (q.positions.get ⟨k, hk'⟩).1 (q.positions.get ⟨k, hk'⟩).2
      = (map.get ⟨k, hk⟩).elim 0 fun l => (p.elements z).getD l 0 := by
    have hposition : q.positions[k]? = some (q.positions.get ⟨k, hk'⟩) :=
      List.getElem?_eq_getElem hk'
    rw [Pattern.takenFrom, Pattern.placed_of_getElem? hposition]
    exact getD_of_getElem? (by rw [List.getElem?_map, hget]; rfl) 0
  rw [hvalue]
  cases htarget : map.get ⟨k, hk⟩ with
  | none => exact .nothing
  | some l =>
    obtain ⟨ij, hl⟩ : ∃ ij, p.positions[l]? = some ij :=
      ⟨_, List.getElem?_eq_getElem (htargets l (htarget ▸ hmem))⟩
    have htaken : (p.elements z).getD l 0 = z ij.1 ij.2 :=
      getD_of_getElem? (by rw [Pattern.getElem?_elements, hl]; rfl) 0
    rw [Option.elim_some, htaken]
    exact .nonzero rfl hs hl

theorem gains_pullScatter (hg : g.Sound I given) (hgh : g.Grows h) {map : ScatterMap}
    (hn : g.node? e = some (.scatter a map p)) (hp : g.pattern? e = some p)
    (ha : g.pattern? a = some q) (hlength : map.length = q.nnz)
    (htargets : ∀ k, some k ∈ map → k < p.nnz) (haS : a ∈ S)
    (hs : h.Stores I.algebra given s p z) (hk : known.AmountTo h I given adj) :
    Keeps (pullScatter a map s known) h
      (Gains g I given S adj fun dx => p.pairing z (g.tangentOf I given dx e)) := by
  refine keeps_patternOf_bind fun q' hq => ?_
  obtain rfl := Option.some.inj ((hgh.pattern? ha).symm.trans hq)
  refine (stores_takenFrom hs hlength htargets).bind fun t k hhk ht => ?_
  exact (gains_accumulate (hgh.trans hhk) (hk.grow hhk) haS ha ht).imp fun known' l _ hgains =>
    hgains.congr fun dx => (pairing_scatter hg hn hp ha hlength htargets z).symm

/-! ### Embedded calls -/

theorem weighs_weights {r : Routine} {o : Nat} (ho : r.outPatterns[o]? = some p)
    (hs : h.Stores I.algebra given s p z) :
    Keeps (weights r o s) h fun ws k =>
      List.Forall₂ (k.Weighs I given o z) r.outPatterns.zipIdx ws := by
  refine Keeps.mapM (S := fun entry w k => k.Weighs I given o z entry w)
    (fun entry w g h hgrow hw => Stores.grow hw hgrow) ?_
  rintro ⟨q, i⟩ hmem k hhk
  rw [List.mem_zipIdx_iff_getElem?] at hmem
  dsimp only at hmem ⊢
  split
  · rename_i hi
    obtain rfl := Option.some.inj ((hi ▸ hmem).symm.trans ho)
    refine keeps_pure ?_
    rw [Weighs, if_pos hi]
    exact hs.grow hhk
  · rename_i hi
    simp only [Weighs, if_neg hi]
    exact stores_zero I.simplifies.toOnRing fun _ _ _ => rfl

theorem gains_pullBy (hg : g.Sound I given) (hgh : g.Grows h) {r d : Routine}
    {object : FunctionObject} {arguments : List MatrixId} {o : Nat}
    (hn : g.node? e = some (.call r arguments o)) (hp : g.pattern? e = some p)
    (harguments : arguments.map g.pattern? = r.inPatterns.map some)
    (ho : r.outPatterns[o]? = some p) (hr : r.IsCompiled) (hobject : r.reverseDerivative = .ok object)
    (hd : object.routine = .ok d) (hexact : object.FoldsExact I.algebra)
    (hS : ∀ a ∈ arguments, a ∈ S) (hs : h.Stores I.algebra given s p z)
    (hk : known.AmountTo h I given adj) :
    Keeps (do
      let given := arguments ++ (← weights r o s)
      arguments.zipIdx.foldlM (fun known (a, i) => do
        accumulate known a (← callOutput d given i)) known) h
      (Gains g I given S adj fun dx => p.pairing z (g.tangentOf I given dx e)) := by
  refine (weighs_weights ho hs).bind fun ws k hhk hws => ?_
  refine (gains_foldlM (fun (ai : MatrixId × Nat) dx => (patternIn g ai.1).pairing
    (g.reverseValues I given r d arguments o z ai.2) (g.tangentOf I given dx ai.1)) ?_ (hk.grow hhk)).imp
    fun known' k _ hgains => hgains.congr fun dx =>
      pairing_reverseValues hg hn hp hr hobject hd hexact
  rintro ⟨a, i⟩ ha known adj l hkl hk
  have ha : arguments[i]? = some a := List.mem_zipIdx_iff_getElem?.mp ha
  have hmap := congrArg (·[i]?) harguments
  simp only [List.getElem?_map, ha, Option.map_some] at hmap
  obtain ⟨q, hi, hq⟩ := Option.map_eq_some_iff.mp hmap.symm
  have hgl := (hgh.trans hhk).trans hkl
  refine (stores_reverseCall (MatrixNode.map_pattern?_grow hgl.pattern? harguments) hobject hd
    (hws.imp fun _ _ hw => Stores.grow hw hkl) hi).bind fun t m hlm ht => ?_
  rw [reverseValues_of_grows hgl harguments] at ht
  dsimp only
  rw [patternIn_eq hq.symm]
  exact gains_accumulate (hgl.trans hlm) (hk.grow hlm) (hS a (List.mem_of_getElem? ha)) hq.symm ht

/-- What was made of the partial derivatives of a node serves, if the node has any. -/
def HandedFor (g h : MatrixGraph) (I : Interpretation V) (given : MatrixId → Option (List V))
    (p : Pattern) (e : MatrixId) (made : Option MatrixId × Option MatrixId) : MatrixNode → Prop
  | .unary op x => h.Handed I.algebra given p (g.unaryPartialOf I given op x e) made.1
  | .binary op x y => h.Handed I.algebra given p (g.binaryPartialOf I given op .left p x y e) made.1 ∧
      h.Handed I.algebra given p (g.binaryPartialOf I given op .right p x y e) made.2
  | _ => True

theorem handedFor_none (n : MatrixNode) : HandedFor g h I given p e (none, none) n := by
  cases n with
  | unary => exact handed_none
  | binary => exact ⟨handed_none, handed_none⟩
  | _ => trivial

/-- **One node**, in one direction, hands on its weight. -/
theorem gains_pull (hg : g.Sound I given) (hcompiled : g.RoutinesCompiled) (hgh : g.Grows h)
    {n : MatrixNode} (hn : g.node? e = some n) (hp : g.pattern? e = some p)
    (hsymbol : n.isSymbol = false) (hS : ∀ a ∈ n.valueOperands, a ∈ S)
    (hs : h.Stores I.algebra given s p z) (hk : known.AmountTo h I given adj)
    {made : Option MatrixId × Option MatrixId} (hmade : HandedFor g h I given p e made n) :
    Keeps (pull e p n made known s) h fun r k => k.Reliable I given →
      HandedFor g k I given p e r.1 n ∧
        Gains g I given S adj (fun dx => p.pairing z (g.tangentOf I given dx e)) r.2 k := by
  have htyped := hg.typed.typed e n p hn hp
  cases htyped with
  | symbol => cases hsymbol
  | constant m =>
    refine keeps_pure fun _ => ⟨trivial, (gains_nothing hk).congr fun dx => ?_⟩
    rw [tangentOf_constant hg hn]
    exact (Pattern.pairing_eq_zero fun _ _ _ => mul_zero _).symm
  | @unary op x _ hx hdense =>
    exact (gains_pullUnary hg hgh hn hp hx (hS x (by simp [MatrixNode.valueOperands,
      MatrixNode.operands])) hs hk hmade).bind fun r k _ hr => keeps_pure fun _ => hr
  | @binary op x y _ hfx hfy hxy =>
    exact (gains_pullBinary hg hgh hn hp hfx hfy
      (hS x (by simp [MatrixNode.valueOperands, MatrixNode.operands]))
      (hS y (by simp [MatrixNode.valueOperands, MatrixNode.operands])) hs hk hmade.1 hmade.2).imp
      fun r k _ hr _ => hr
  | @product x y pa pb hx hy hinner =>
    exact (gains_pullProduct hg hgh hn hp hx hy hinner
      (hS x (by simp [MatrixNode.valueOperands, MatrixNode.operands]))
      (hS y (by simp [MatrixNode.valueOperands, MatrixNode.operands])) hs hk).bind
      fun r k _ hr => keeps_pure fun _ => ⟨trivial, hr⟩
  | @gather arguments map _ hmap =>
    exact (gains_pullGather hg hgh hn hp hmap hS hs hk).bind
      fun r k _ hr => keeps_pure fun _ => ⟨trivial, hr⟩
  | @scatter x map _ q hx hlength htargets =>
    exact (gains_pullScatter hg hgh hn hp hx hlength htargets
      (hS x (by simp [MatrixNode.valueOperands, MatrixNode.operands])) hs hk).bind
      fun r k _ hr => keeps_pure fun _ => ⟨trivial, hr⟩
  | @call r arguments o _ harguments ho =>
    refine Keeps.bind (Q := fun known k => k.Reliable I given →
      Gains g I given S adj (fun dx => p.pairing z (g.tangentOf I given dx e)) known k) ?_
      fun known k _ hk => keeps_pure fun hr => ⟨trivial, hk hr⟩
    refine (keeps_derivativeRoutine_exact I given (hgh.node? hn) (.inr rfl)).bind fun d k hhk hd => ?_
    obtain ⟨object, hobject, hd, hexact⟩ := hd
    obtain ⟨hin, hout⟩ := Routine.patterns_reverseDerivative hobject hd
    refine (Keeps.guarded reliable_of_grows (keeps_pullBy (hk.grow hhk).typed
      (MatrixNode.map_pattern?_grow (hgh.trans hhk).pattern? harguments) ho (hs.grow hhk).pattern
      hin hout) fun hr => ?_).imp fun known l _ hk => hk.2
    exact (gains_pullBy hg (hgh.trans hhk) hn hp harguments ho (hcompiled e r arguments o hn) hobject
      hd (hexact hr) hS (hs.grow hhk) (hk.grow hhk)).imp fun known l _ hgains _ => hgains
  | @lift value guess _ hvalue hguess =>
    refine (gains_accumulate hgh hk (hS value (by simp [MatrixNode.valueOperands])) hvalue hs).bind
      fun known k _ hgains => keeps_pure fun _ => ⟨trivial, hgains.congr fun dx => ?_⟩
    rw [tangentOf_lift hg hn hp hvalue]

/-! ### Several directions -/

section Balance

variable (g : MatrixGraph) (I : Interpretation V) (given : MatrixId → Option (List V))
  (inputs : List MatrixId)

/-- Derivatives that are known balance a sum: it is the total of their weights along every direction in
which nothing but the inputs moves. -/
def Balances (S : Finset MatrixId) (sum : (MatrixId → Nat → V) → V) (known : Sensitivities)
    (h : MatrixGraph) : Prop :=
  ∃ adj, known.AmountTo h I given adj ∧
    ∀ dx, (∀ e, inputs.idxOf? e = none → dx e = 0) → total g I given S adj dx = sum dx

/-- What instructions store, weighed and paired with how it moves. -/
def storedSum (instrs : List MatrixInstr) (w : Nat → Nat → Nat → V) (dx : MatrixId → Nat → V) : V :=
  ((instrs.filterMap MatrixInstr.stores?).map fun s =>
    (patternIn g s.2).pairing (w s.1) (g.tangentOf I given dx s.2)).sum

/-- In every direction derivatives are on patterns, and in a reliable graph they balance what
instructions store. -/
def AllBalance (S : Finset MatrixId) (instrs : List MatrixInstr) (ws : List (Nat → Nat → Nat → V))
    (directions : List Sensitivities) (h : MatrixGraph) : Prop :=
  List.Forall₂ (fun w known => known.Typed h ∧ (h.Reliable I given →
    Balances g I given inputs S (storedSum g I given instrs w) known h)) ws directions

/-- A seed weighs the outputs. -/
def SeedWeighs (outputs : List MatrixId) (w : Nat → Nat → Nat → V) (seed : List (Option MatrixId)) :
    Prop :=
  ∀ o e, outputs[o]? = some e → ∃ p, g.pattern? e = some p ∧
    g.ReadsAs I.algebra given (seed.getD o none) p (w o)

/-- In a reliable graph seeds weigh the outputs. -/
def AllWeigh (outputs : List MatrixId) (ws : List (Nat → Nat → Nat → V))
    (seeds : List (List (Option MatrixId))) (h : MatrixGraph) : Prop :=
  List.Forall₂ (fun w seed => h.Reliable I given → SeedWeighs h I given outputs w seed) ws seeds

end Balance

variable {inputs outputs : List MatrixId} {instrs : List MatrixInstr} {i : MatrixInstr}
  {n : MatrixNode} {w : Nat → Nat → Nat → V} {ws : List (Nat → Nat → Nat → V)}
  {seed : List (Option MatrixId)} {seeds : List (List (Option MatrixId))}
  {directions : List Sensitivities} {sum : (MatrixId → Nat → V) → V}

theorem lasts_balances (g : MatrixGraph) (I : Interpretation V) (given : MatrixId → Option (List V))
    (inputs : List MatrixId) (S : Finset MatrixId) (sum : (MatrixId → Nat → V) → V) :
    Lasts (Balances g I given inputs S sum) := by
  rintro known h k hhk ⟨adj, hk, htotal⟩
  exact ⟨adj, hk.grow hhk, htotal⟩

theorem SeedWeighs.grow (hs : SeedWeighs g I given outputs w seed) (hgh : g.Grows h) :
    SeedWeighs h I given outputs w seed := by
  intro o e he
  obtain ⟨p, hp, ht⟩ := hs o e he
  exact ⟨p, hgh.pattern? hp, ht.grow hgh⟩

theorem AllWeigh.grow (hseeds : AllWeigh I given outputs ws seeds g) (hgh : g.Grows h) :
    AllWeigh I given outputs ws seeds h :=
  hseeds.imp fun _ _ hs hh => (hs (hh.of_grows hgh)).grow hgh

/-- An expression that contributes nothing may be left out. -/
theorem Balances.drop (hb : Balances g I given inputs (insert e S) sum known h) (he : e ∉ S)
    (hp : g.pattern? e = some p)
    (hzero : ∀ adj dx, known.AmountTo h I given adj → (∀ e, inputs.idxOf? e = none → dx e = 0) →
      p.pairing (adj e) (g.tangentOf I given dx e) = 0) :
    Balances g I given inputs S sum known h := by
  obtain ⟨adj, hk, htotal⟩ := hb
  refine ⟨adj, hk, fun dx hdx => ?_⟩
  rw [← htotal dx hdx, total, total, Finset.sum_insert he, patternIn_eq hp, hzero adj dx hk hdx,
    zero_add]

/-- What an expression contributes may be handed on. -/
theorem Balances.pull {α : Type} (hb : Balances g I given inputs (insert e S) sum known h)
    (he : e ∉ S) (hp : g.pattern? e = some p) {f : MatrixBuilder (α × Sensitivities)} {M : α → MatrixGraph → Prop}
    (hf : ∀ adj, known.AmountTo h I given adj → Keeps f h fun r k => k.Reliable I given → M r.1 k ∧
      Gains g I given S adj (fun dx => p.pairing (adj e) (g.tangentOf I given dx e)) r.2 k) :
    Keeps f h fun r k => k.Reliable I given →
      M r.1 k ∧ Balances g I given inputs S sum r.2 k := by
  obtain ⟨adj, hk, htotal⟩ := hb
  refine (hf adj hk).imp fun r k _ hr hreliable => ?_
  obtain ⟨hm, adj', hk', hgains⟩ := hr hreliable
  refine ⟨hm, adj', hk', fun dx hdx => ?_⟩
  rw [hgains, ← htotal dx hdx, total, total, Finset.sum_insert he, patternIn_eq hp, add_comm]

theorem stores?_of_carries (hcarries : Carries inputs e i.op n) : i.stores? = none := by
  rw [MatrixInstr.stores?]
  generalize i.op = op at hcarries
  cases hcarries with
  | operation hop => cases op <;> first | rfl | cases hop
  | _ => rfl

theorem storedSum_cons_of_stores {o : Nat} (hstores : i.stores? = some (o, e))
    (hp : g.pattern? e = some p) (rest : List MatrixInstr) (dx : MatrixId → Nat → V) :
    storedSum g I given (i :: rest) w dx
      = storedSum g I given rest w dx + p.pairing (w o) (g.tangentOf I given dx e) := by
  rw [storedSum, storedSum, List.filterMap_cons_some hstores, List.map_cons, List.sum_cons,
    patternIn_eq hp, add_comm]

/-- An instruction that computes an expression stores nothing. -/
theorem allBalance_cons (hcarries : Carries inputs e i.op n) (rest : List MatrixInstr) :
    AllBalance g I given inputs S (i :: rest) = AllBalance g I given inputs S rest := by
  have hsum : storedSum g I given (i :: rest) = storedSum g I given rest := by
    funext w dx
    rw [storedSum, storedSum, List.filterMap_cons_none (stores?_of_carries hcarries)]
  funext ws directions h
  rw [AllBalance, hsum]
  rfl

/-- An instruction without a node to treat, whose expression contributes nothing. -/
theorem AllBalance.drop {rest : List MatrixInstr}
    (hds : AllBalance g I given inputs (insert i.node S) rest ws directions h)
    (hcarries : Carries inputs i.node i.op n) (he : i.node ∉ S) (hp : g.pattern? i.node = some p)
    (hzero : h.Reliable I given → ∀ dx, (∀ e, inputs.idxOf? e = none → dx e = 0) →
      g.tangentOf I given dx i.node = 0) :
    AllBalance g I given inputs S (i :: rest) ws directions h := by
  rw [allBalance_cons hcarries]
  refine hds.imp fun w known hk => ⟨hk.1, fun hr => (hk.2 hr).drop he hp fun adj dx _ hdx => ?_⟩
  rw [hzero hr dx hdx]
  exact Pattern.pairing_eq_zero fun _ _ _ => mul_zero _

/-- **One store**, in all directions: the weight of the output is added. -/
theorem balances_store (hgh : g.Grows h) {rest : List MatrixInstr} {o : Nat}
    (hseeds : AllWeigh I given outputs ws seeds h)
    (hds : AllBalance g I given inputs S rest ws directions h) (hop : i.op = .output o)
    (hout : outputs[o]? = some i.node) (hS : i.node ∈ S) (hp : g.pattern? i.node = some p) :
    Keeps (reverseStep seeds directions i) h (AllBalance g I given inputs S (i :: rest) ws) := by
  have hstores : i.stores? = some (o, i.node) := by rw [MatrixInstr.stores?, hop]
  rw [reverseStep, hop]
  refine Keeps.mapM_guarded (P := fun (sk : List (Option MatrixId) × Sensitivities) h => sk.2.Typed h)
    (Q := fun w sk k => SeedWeighs k I given outputs w sk.1 ∧
      Balances g I given inputs S (storedSum g I given rest w) sk.2 k)
    reliable_of_grows (fun sk g h hgrow hk => hk.grow hgrow) lasts_typed
    (fun w sk g h hgrow hk => ⟨hk.1.grow hgrow, lasts_balances _ _ _ _ _ _ _ _ _ hgrow hk.2⟩)
    (fun w => lasts_balances g I given inputs S (storedSum g I given (i :: rest) w))
    (fun sk k hhk hk => ?_) (fun w sk k hhk hr hk => ?_)
    ((forall₂_zip hseeds hds).imp fun w sk hk => ⟨hk.2.1, fun hr => ⟨hk.1 hr, hk.2.2 hr⟩⟩)
  · dsimp only
    split
    · exact keeps_pure hk
    · exact keeps_accumulate hk _ _
  · obtain ⟨hweighs, adj, hk, htotal⟩ := hk
    obtain ⟨q, hq, hs⟩ := hweighs o i.node hout
    have hgk := hgh.trans hhk
    obtain rfl := Option.some.inj ((hgk.pattern? hp).symm.trans hq)
    dsimp only
    cases ht : sk.1.getD o none with
    | none =>
      rw [ht] at hs
      refine keeps_pure fun _ => ⟨adj, hk, fun dx hdx => ?_⟩
      rw [htotal dx hdx, storedSum_cons_of_stores hstores hp, Pattern.pairing_eq_zero fun r c h => ?_, add_zero]
      rw [hs r c h, zero_mul]
    | some s =>
      rw [ht] at hs
      obtain ⟨q', y, hshape, hs, hy⟩ := hs
      refine (gains_accumulate hgk hk hS hp hs).imp fun known' l _ hgains _ => ?_
      obtain ⟨adj', hk', hgains⟩ := hgains
      refine ⟨adj', hk', fun dx hdx => ?_⟩
      have hread : p.pairing (w o) (g.tangentOf I given dx i.node)
          = q'.pairing y (g.tangentOf I given dx i.node) := by
        rw [← Pattern.pairing_masked hshape (masked_tangentOf hp)]
        exact (Pattern.pairing_congr hy fun _ _ _ => rfl).symm
      rw [hgains, htotal dx hdx, storedSum_cons_of_stores hstores hp, hread]

/-- **One operation**, in all directions: its weight is handed on. -/
theorem balances_operation (hg : g.WellTyped) (hcompiled : g.RoutinesCompiled) (hgh : g.Grows h)
    {rest : List MatrixInstr} (hds : AllBalance g I given inputs (insert i.node S) rest ws directions h)
    (hn : g.node? i.node = some n) (hp : g.pattern? i.node = some i.pattern)
    (hop : i.op.isOperation = true) (hsymbol : n.isSymbol = false) (he : i.node ∉ S)
    (hS : ∀ a ∈ n.valueOperands, a ∈ S) :
    Keeps (reverseStep seeds directions i) h (AllBalance g I given inputs S (i :: rest) ws) := by
  rw [reverseStep, allBalance_cons (.operation hop hsymbol : Carries inputs i.node i.op n)]
  split
  · rename_i hinput
    rw [hinput] at hop
    cases hop
  · rename_i hconstant
    rw [hconstant] at hop
    cases hop
  · rename_i hfree
    rw [hfree] at hop
    cases hop
  · rename_i houtput
    rw [houtput] at hop
    cases hop
  · refine keeps_nodeOf_bind fun n' hn' => ?_
    obtain rfl := Option.some.inj ((hgh.node? hn).symm.trans hn')
    refine Keeps.inTurn_guarded (M := fun made k => HandedFor g k I given i.pattern i.node made n)
      reliable_of_grows lasts_typed lasts_typed
      (fun w => lasts_balances g I given inputs (insert i.node S) (storedSum g I given rest w))
      (fun w => lasts_balances g I given inputs S (storedSum g I given rest w))
      (fun made known k hhk hk => ?_) (fun w made known k hhk hr hmade hk => ?_)
      (handedFor_none n) hds
    · have hgk := hgh.trans hhk
      split
      · exact keeps_pure hk
      · rename_i s hs
        exact keeps_pull hk ((hg.typed _ n _ hn hp).grow hgk) (hk.on hs (hgk.pattern? hp)) _ made
    · have hgk := hgh.trans hhk
      have hsound : g.Sound I given := ⟨hg, (hr.of_grows hgk).admits⟩
      split
      · rename_i hnone
        refine keeps_pure fun _ => ⟨hmade, hk.drop he hp fun adj dx hk _ => ?_⟩
        rw [hk.missing _ hnone]
        exact Pattern.pairing_eq_zero fun _ _ _ => zero_mul _
      · rename_i s hs
        exact hk.pull he hp (M := fun made k => HandedFor g k I given i.pattern i.node made n)
          fun adj hk => gains_pull hsound hcompiled hgk hn hp hsymbol hS
            (hk.on hs (hgk.pattern? hp)) hk hmade

/-- **One instruction** that computes an expression, in all directions. -/
theorem balances_compute (hg : g.WellTyped) (hcompiled : g.RoutinesCompiled) (hgh : g.Grows h)
    {rest : List MatrixInstr} {done : List MatrixId}
    (hds : AllBalance g I given inputs ((done ++ [i.node]).toFinset ∪ inputs.toFinset) rest ws
      directions h)
    (hsymbols : ∀ e ∈ inputs, g.isSymbol e = true) (hn : g.node? i.node = some n)
    (hp : g.pattern? i.node = some i.pattern) (hcarries : Carries inputs i.node i.op n)
    (hnew : i.node ∉ done) (hoperands : n.valueOperands ⊆ done) :
    Keeps (reverseStep seeds directions i) h
      (AllBalance g I given inputs (done.toFinset ∪ inputs.toFinset) (i :: rest) ws) := by
  have hinsert : (done ++ [i.node]).toFinset ∪ inputs.toFinset
      = insert i.node (done.toFinset ∪ inputs.toFinset) := by
    ext e
    simp
  rw [hinsert] at hds
  have hout : inputs.idxOf? i.node = none → i.node ∉ done.toFinset ∪ inputs.toFinset := by
    simp [List.idxOf?_eq_none_iff, hnew]
  have hfree : n.isSymbol = false → inputs.idxOf? i.node = none := fun hsymbol => by
    rw [List.idxOf?_eq_none_iff]
    intro hmem
    have := hsymbols _ hmem
    rw [isSymbol, hn, Option.any_some, hsymbol] at this
    contradiction
  have hcarries' := hcarries
  generalize hop : i.op = op at hcarries'
  cases hcarries' with
  | @input serial p j hj =>
    rw [reverseStep, hop]
    have hmem : i.node ∈ inputs := by
      by_contra hmem
      rw [List.idxOf?_eq_none_iff.mpr hmem] at hj
      cases hj
    rw [Finset.insert_eq_of_mem (by simp [hmem])] at hds
    exact keeps_pure (by rwa [allBalance_cons hcarries])
  | @free serial p k hnone =>
    rw [reverseStep, hop]
    exact keeps_pure (hds.drop hcarries (hout hnone) hp fun hr dx hdx =>
      tangentOf_free ⟨hg, (hr.of_grows hgh).admits⟩ hn hp (hdx _ hnone))
  | constant m =>
    rw [reverseStep, hop]
    exact keeps_pure (hds.drop hcarries (hout (hfree rfl)) hp fun hr dx _ =>
      tangentOf_constant ⟨hg, (hr.of_grows hgh).admits⟩ hn)
  | operation hoperation hsymbol =>
    exact balances_operation hg hcompiled hgh hds hn hp (hop ▸ hoperation) hsymbol
      (hout (hfree hsymbol)) fun a ha => by simp [hoperands ha]

/-- Instructions in reverse order, in all directions: in the end the weights of the expressions before
them balance what they store. -/
theorem balances_instrs (hg : g.WellTyped) (hcompiled : g.RoutinesCompiled)
    (hsymbols : ∀ e ∈ inputs, g.isSymbol e = true) {done : List MatrixId}
    (ho : Ordered g inputs outputs done instrs)
    (hpatterns : ∀ i ∈ instrs, g.pattern? i.node = some i.pattern)
    (hseeds : AllWeigh I given outputs ws seeds g) :
    Keeps (instrs.reverse.foldlM (reverseStep seeds) (seeds.map fun _ => .empty)) g
      (AllBalance g I given inputs (done.toFinset ∪ inputs.toFinset) instrs ws) := by
  induction instrs generalizing done with
  | nil =>
    have hempty : Sensitivities.AmountTo .empty g I given 0 := amountTo_empty
    refine keeps_pure (List.forall₂_map_right_iff.mpr (hseeds.imp fun w seed _ =>
      ⟨hempty.typed, fun _ => ⟨0, hempty, fun dx _ => ?_⟩⟩))
    exact Finset.sum_eq_zero fun e _ => Pattern.pairing_eq_zero fun _ _ _ => zero_mul _
  | cons i rest ih =>
    have hi := hpatterns i (by simp)
    have ih := fun {done} (ho : Ordered g inputs outputs done rest) =>
      ih ho fun i' hi' => hpatterns i' (by simp [hi'])
    rw [List.reverse_cons, List.foldlM_append]
    simp only [List.foldlM_cons, List.foldlM_nil, bind_pure]
    cases ho with
    | store hop hout hdone ho =>
      exact (ih ho).bind fun ds h hgh hds =>
        balances_store hgh (hseeds.grow hgh) hds hop hout (by simp [hdone]) hi
    | compute hn hcarries hnew hoperands ho =>
      exact (ih ho).bind fun ds h hgh hds =>
        balances_compute hg hcompiled hgh hds hsymbols hn hi hcarries hnew hoperands

/-- **Reverse sweeps** weigh the inputs as the outputs were weighed: along every direction in which
nothing but the inputs moves, the weighted inputs move as the weighted outputs do. -/
theorem balances_reverse {tape : MatrixTape} (ht : Resides g inputs outputs tape)
    (hcompiled : g.RoutinesCompiled) (hseeds : AllWeigh I given outputs ws seeds g) :
    Keeps (tape.reverse inputs seeds) g fun rows h => h.Reliable I given →
      List.Forall₂ (fun w row => ∃ adj : MatrixId → Nat → Nat → V,
        (∀ j e p, inputs[j]? = some e → g.pattern? e = some p →
          h.AmountsTo I.algebra given (row.getD j none) p (adj e)) ∧
        ∀ dx, (∀ e, inputs.idxOf? e = none → dx e = 0) →
          (inputs.map fun e => (patternIn g e).pairing (adj e) (g.tangentOf I given dx e)).sum
            = (outputs.zipIdx.map fun eo =>
              (patternIn g eo.1).pairing (w eo.2) (g.tangentOf I given dx eo.1)).sum) ws rows := by
  refine keeps_of_wellTyped fun hg => ?_
  rw [reverse]
  refine (balances_instrs hg hcompiled ht.symbols ht.ordered ht.patterned hseeds).bind
    fun ds h hgh hds => keeps_pure fun hr => ?_
  refine List.forall₂_map_right_iff.mpr (hds.imp fun w known hk => ?_)
  obtain ⟨adj, hk, htotal⟩ := hk.2 hr
  refine ⟨adj, fun j e p he hp => ?_, fun dx hdx => ?_⟩
  · rw [getD_of_getElem? (a := known.of? e) (by rw [List.getElem?_map, he]; rfl)]
    cases hs : known.of? e with
    | none =>
      intro r c _
      rw [hk.missing e hs]
      rfl
    | some s => exact hk.on hs (hgh.pattern? hp)
  · have htotal := htotal dx hdx
    rw [total, List.toFinset_nil, Finset.empty_union, List.sum_toFinset _ ht.nodup] at htotal
    rw [htotal, storedSum, ht.stores, List.map_map]
    rfl

end MatrixTape

end Fluxion
