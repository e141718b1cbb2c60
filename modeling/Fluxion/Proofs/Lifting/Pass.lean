import Fluxion.Proofs.Lifting.Replacing

/-!
# The pass that lifts

The pass over a tape never fails. What a step needs has been treated by the steps before it: the nodes
that it adds are typed, a residual is a difference of two expressions on one pattern, and both
functions are made of expressions that are there.

## Main definitions

* `MatrixTape.Program` — the steps of a tape in a graph
* `MatrixFunction.Lifts` — what there is at the end

## Main results

* `MatrixFunction.yields_liftSteps` — the pass
* `MatrixFunction.yields_liftingFunctions` — **lifting succeeds** and keeps graphs well typed
-/

namespace Fluxion

open MatrixBuilder MatrixGraph

/-! ### Operations on one pattern -/

namespace MatrixBuilder

variable {g : MatrixGraph} {a b e : MatrixId} {p : Pattern}

theorem yields_operandFor (he : g.pattern? e = some p) :
    Yields (operandFor e p p p) g fun d h => d = e ∧ h = g := by
  rw [operandFor, if_pos (.inl rfl), project]
  refine yields_patternOf_bind he ?_
  rw [if_neg (not_not.mpr rfl), if_pos rfl]
  exact yields_pure ⟨rfl, rfl⟩

/-- An operation on two expressions on one pattern, which is the pattern of the result, is added as
it is. -/
theorem yields_binary {op : BinaryOp} (ha : g.pattern? a = some p) (hb : g.pattern? b = some p)
    (hp : elementwisePattern op p p = .ok p) (hconstant : g.constant? a = none) :
    Yields (binary op a b) g fun e h => h.node? e = some (.binary op a b) ∧ On p e h := by
  refine yields_patternOf_bind ha (yields_patternOf_bind hb (yields_ofExcept_bind hp ?_))
  refine (yields_operandFor ha).bind fun a' h _ ha' => ?_
  obtain ⟨rfl, rfl⟩ := ha'
  refine (yields_operandFor hb).bind fun b' h _ hb' => ?_
  obtain ⟨rfl, rfl⟩ := hb'
  refine yields_get_bind (yields_get_bind ?_)
  rw [hconstant]
  exact yields_intern (.binary (.inl ha) (.inl hb) (.inl ha))

end MatrixBuilder

theorem elementwisePattern_sub_self (p : Pattern) : elementwisePattern .sub p p = .ok p := by
  rw [elementwisePattern]
  simp only [dif_pos]
  rw [if_neg (by decide), if_neg (by decide), Pattern.union_self]

/-! ### Steps in a graph -/

namespace MatrixTape

variable {g h : MatrixGraph} {inputs outputs : List MatrixId} {tape : MatrixTape}

theorem instr_eq_of_agreeBelow {free : List MatrixId} {bound : Nat}
    (hagree : arena.AgreeBelow g h bound) {s : SlottedStep} (hs : s.step.node < bound) :
    instr g inputs free s = instr h inputs free s := by
  have hop : opOf g inputs free ⟨s.step.node⟩ = opOf h inputs free ⟨s.step.node⟩ := by
    have hnode := node?_eq_of_agreeBelow (e := ⟨s.step.node⟩) hagree hs
    rw [opOf, opOf, ← hnode]
    cases hn : g.node? ⟨s.step.node⟩ with
    | none => rfl
    | some n =>
      cases n with
      | product a b =>
        have hbefore := g.operands_before hn
        have ha := hbefore a (by simp [MatrixNode.operands])
        have hb := hbefore b (by simp [MatrixNode.operands])
        dsimp only
        rw [patternIn_eq_of_agreeBelow hagree (Nat.lt_trans ha hs),
          patternIn_eq_of_agreeBelow hagree (Nat.lt_trans hb hs)]
      | _ => rfl
  have hpattern := patternIn_eq_of_agreeBelow (e := ⟨s.step.node⟩) hagree hs
  rw [instr, instr]
  cases hstep : s.step with
  | compute n =>
    rw [hstep] at hop hpattern
    exact congrArg₂ (fun op p => (⟨op, s.arguments, some (s.result.getD 0), p, ⟨n⟩⟩ : MatrixInstr))
      hop hpattern
  | store root n =>
    rw [hstep] at hpattern
    exact congrArg (fun p => (⟨.output root, s.arguments, none, p, ⟨n⟩⟩ : MatrixInstr)) hpattern

/-- Operands that the value needs are the same where graphs agree. -/
theorem ordered_of_agreeBelow {bound : Nat} (hagree : arena.AgreeBelow g h bound)
    {steps : List Step} {done : List Nat}
    (hsteps : Step.Ordered g.valueOperandNumbers bound done steps) :
    Step.Ordered h.valueOperandNumbers bound done steps := by
  induction steps generalizing done with
  | nil => trivial
  | cons s rest ih =>
    cases s with
    | compute n =>
      obtain ⟨hnew, hlt, hoperands, hrest⟩ := hsteps
      have hsame : g.valueOperandNumbers n = h.valueOperandNumbers n := by
        rw [valueOperandNumbers, valueOperandNumbers, valueOperands, valueOperands,
          node?_eq_of_agreeBelow hagree hlt]
      exact ⟨hnew, hlt, hsame ▸ hoperands, ih hrest⟩
    | store root n => exact ⟨hsteps.1, ih hsteps.2⟩

/-- The expressions that a list of steps computes, by number. -/
def computedBy (steps : List SlottedStep) : List Nat :=
  (steps.map SlottedStep.step).filterMap Step.computes?

/-- A tape carries out the steps of a program, read off the graph: no expression is computed twice,
none before its operands, and the outputs are computed. -/
structure Program (g : MatrixGraph) (inputs outputs : List MatrixId) (tape : MatrixTape)
    (steps : List SlottedStep) : Prop where
  instrs : tape.instrs = steps.map (instr g inputs tape.freeSymbols)
  free : tape.freeSymbols = ((computedBy steps).map MatrixId.mk).filter fun e =>
    g.isSymbol e && !inputs.contains e
  ordered : ∃ bound, bound ≤ g.size ∧
    Step.Ordered g.valueOperandNumbers bound [] (steps.map SlottedStep.step)
  outputs : ∀ e ∈ outputs, e.index ∈ computedBy steps
  symbols : ∀ e ∈ inputs, g.isSymbol e = true
  nodup : inputs.Nodup

theorem Resides.program (ht : Resides g inputs outputs tape) :
    ∃ steps, Program g inputs outputs tape steps := by
  obtain ⟨origin, bound, hcompiled, hagree, horigin, hsize, hin, hout⟩ := ht
  have hless := valueOperandNumbers_lt origin
  have hroots : ∀ r ∈ outputs.map MatrixId.index, r < bound := by
    intro r hr
    obtain ⟨e, he, rfl⟩ := List.mem_map.mp hr
    exact hout e he
  have hordered := Schedule.ordered_stepsFor_of_le hless horigin hroots
  have hsteps := Schedule.steps_make (Schedule.ordered_stepsFor hless hcompiled.roots_lt)
  refine ⟨(scheduleFor origin outputs).steps, ?_, ?_, ⟨bound, hsize, ?_⟩, fun e he => ?_,
    fun e he => ?_, hcompiled.nodup⟩
  · rw [hcompiled.instrs]
    refine List.map_congr_left fun s hs => ?_
    exact instr_eq_of_agreeBelow hagree (hcompiled.node_lt horigin hout hs)
  · rw [hcompiled.free, computedBy, List.filterMap_map]
    refine List.filter_congr fun e he => ?_
    obtain ⟨n, hn, rfl⟩ := List.mem_map.mp he
    have hlt := Schedule.lt_of_mem_computed hless horigin hroots hn
    rw [isSymbol, isSymbol, node?_eq_of_agreeBelow (e := ⟨n⟩) hagree hlt]
  · rw [scheduleFor, hsteps]
    exact ordered_of_agreeBelow hagree hordered
  · rw [computedBy, scheduleFor, hsteps]
    obtain ⟨k, hk⟩ := List.getElem?_of_mem (List.mem_map_of_mem (f := MatrixId.index) he)
    have hstored : (k, e.index) ∈ (Schedule.stepsFor origin.valueOperandNumbers origin.size
        (outputs.map MatrixId.index)).filterMap Step.stores? := by
      rw [Schedule.stores_stepsFor]
      exact List.mem_map.mpr ⟨(e.index, k), List.mk_mem_zipIdx_iff_getElem?.mpr hk, rfl⟩
    obtain ⟨s, hs, hstore⟩ := List.mem_filterMap.mp hstored
    obtain ⟨t, ht⟩ := List.getElem?_of_mem hs
    cases s with
    | compute n => contradiction
    | store root n =>
      obtain ⟨rfl, rfl⟩ := Prod.mk.inj (Option.some.inj hstore)
      rcases hordered.exists_of_reads ht (a := e.index) (by simp [Step.reads]) with hdone | ⟨u, -, hu⟩
      · cases hdone
      · exact List.mem_filterMap.mpr ⟨_, List.mem_of_getElem? hu, rfl⟩
  · rw [isSymbol, ← node?_eq_of_agreeBelow hagree (hin e he)]
    exact hcompiled.symbols e he

end MatrixTape

namespace MatrixFunction

variable {g h : MatrixGraph} {done : List Nat} {l : Lifted} {i : Nat} {n : MatrixNode} {p : Pattern}

/-! ### One step -/

/-- A node that has no other operands stands for itself. -/
theorem Lifted.Treats.stay (ht : l.Treats g h done) (hg : g.WellTyped) (hgrow : g.Grows h)
    (hi : i ∉ done) (hn : g.node? ⟨i⟩ = some n) (hp : g.pattern? ⟨i⟩ = some p)
    (hlift : n.isLift = false) (hoperands : ∀ a ∈ n.operands, a.index ∈ done)
    (hsame : n.mapOperands l.replace = n) : l.Treats g h (done ++ [i]) := by
  have hself : l.replace ⟨i⟩ = ⟨i⟩ := replace_of_find? (ht.rest i hi)
  refine ht.snoc_node hg hi hn hp hlift hoperands (fun _ _ => rfl) ⟨rfl, rfl, rfl⟩ ?_ ?_
  · rw [hself, hsame]
    exact hgrow.node? hn
  · rw [hself]
    exact hgrow.pattern? hp

theorem liftNode_of_not_lift (l : Lifted) (e : MatrixId) (p : Pattern) (hlift : n.isLift = false) :
    liftNode l e p n = if n.mapOperands l.replace = n then pure l else do
      let e' ← intern (n.mapOperands l.replace) p
      return { l with replaced := l.replaced.insert e.index e' } := by
  cases n with
  | lift => contradiction
  | _ => rfl

/-- A handle that the graph has is not the one of a symbol that is new. -/
theorem ne_of_new {z d : MatrixId} {k : MatrixGraph} {q : Pattern} (hh : h.WellTyped)
    (hgrow : h.Grows k) (hz : k.node? z = some (.symbol h.names.size p)) (hd : h.pattern? d = some q) :
    d ≠ z := by
  rintro rfl
  obtain ⟨⟨m, q⟩, hm, rfl⟩ := Option.map_eq_some_iff.mp hd
  have hm : h.node? d = some m := node?_eq_some_iff.mpr ⟨q, hm⟩
  obtain rfl := Option.some.inj ((hgrow.node? hm).symm.trans hz)
  cases hh.typed d _ q hm hd with
  | symbol hlt => exact absurd hlt (Nat.lt_irrefl _)

theorem yields_liftNode (ht : l.Treats g h done) (hg : g.WellTyped) (hgrow : g.Grows h)
    (hi : i ∉ done) (hn : g.node? ⟨i⟩ = some n) (hp : g.pattern? ⟨i⟩ = some p)
    (hoperands : ∀ a ∈ n.valueOperands, a.index ∈ done) :
    Yields (liftNode l ⟨i⟩ p n) h fun l' k => l'.Treats g k (done ++ [i]) := by
  have htyped := hg.typed _ n p hn hp
  cases hlift : n.isLift with
  | false =>
    rw [MatrixNode.valueOperands_eq_operands hlift] at hoperands
    rw [liftNode_of_not_lift l _ p hlift]
    split
    · rename_i hsame
      exact yields_pure (ht.stay hg hgrow hi hn hp hlift hoperands hsame)
    · have hpatterns : ∀ a ∈ n.operands, h.pattern? (l.replace a) = g.pattern? a := by
        intro a ha
        obtain ⟨q, hq, hq'⟩ := ht.stands.pattern _ (hoperands a ha)
        exact hq'.trans hq.symm
      have hinj : ∀ a ∈ n.operands, ∀ b ∈ n.operands, l.replace a = l.replace b → a = b := by
        intro a ha b hb hab
        have hindex := ht.stands.injective _ (hoperands a ha) _ (hoperands b hb) hab
        cases a; cases b
        exact congrArg _ hindex
      refine (yields_intern (htyped.mapOperands hpatterns hinj hgrow.size_names_le)).bind
        fun d k hhk hd => yields_pure ?_
      have hself : Lifted.replace { l with replaced := l.replaced.insert i d } ⟨i⟩ = d :=
        (replace_insert l i d ⟨i⟩).trans (if_pos rfl)
      refine (ht.grow hhk).snoc_node hg hi hn hp hlift hoperands (fun j hj => ?_) ⟨rfl, rfl, rfl⟩ ?_ ?_
      · exact (NumberMap.find?_insert ..).trans (if_neg hj)
      · rw [hself]
        exact hd.1
      · rw [hself]
        exact hd.2
  | true =>
    cases n with
    | lift value guess =>
      cases htyped with
      | lift hvalue hguess =>
        have hdone : value.index ∈ done := hoperands value (by simp [MatrixNode.valueOperands])
        obtain ⟨q, hq, hq'⟩ := ht.stands.pattern _ hdone
        obtain rfl := Option.some.inj (hvalue.symm.trans hq)
        refine yields_of_wellTyped fun hh => ?_
        refine (yields_symbol _ p).bind fun z k hhk hz => ?_
        have hconstant : k.constant? z = none := by
          rw [constant?, hz.1]
          rfl
        refine (yields_binary hz.2 (hhk.pattern? hq') (elementwisePattern_sub_self p) hconstant).bind
          fun r m hkm hr => yields_pure ?_
        have hhm := hhk.trans hkm
        refine (ht.grow hhm).snoc_lift hi hn hp hdone (hkm.node? hz.1) hgrow.size_names_le
          (hkm.pattern? hz.2) (fun j hj => ?_) hr.1 hr.2
        obtain ⟨q', -, hd⟩ := ht.stands.pattern j hj
        exact ne_of_new hh hhk hz.1 hd
    | _ => contradiction

/-- What one instruction computes is replaced. -/
theorem yields_liftStep (ht : l.Treats g h done) (hg : g.WellTyped) (hgrow : g.Grows h)
    {inputs free : List MatrixId} {s : SlottedStep} (hs : s.step = .compute i) (hi : i ∉ done)
    (hlt : i < g.size) (hoperands : ∀ a ∈ g.valueOperandNumbers i, a ∈ done) :
    Yields (liftStep l (MatrixTape.instr g inputs free s)) h fun l' k =>
      l'.Treats g k (done ++ [i]) := by
  obtain ⟨⟨n, p⟩, hget⟩ : ∃ entry, g.entries.items[i]? = some entry :=
    ⟨_, Array.getElem?_eq_getElem hlt⟩
  have hn : g.node? ⟨i⟩ = some n := node?_eq_some_iff.mpr ⟨p, hget⟩
  have hp : g.pattern? ⟨i⟩ = some p := by rw [pattern?, hget]; rfl
  have hpattern : MatrixTape.patternIn g ⟨i⟩ = p := patternIn_eq hp
  have hvalues : ∀ a ∈ n.valueOperands, a.index ∈ done := by
    intro a ha
    refine hoperands _ (List.mem_map.mpr ⟨a, ?_, rfl⟩)
    rwa [valueOperands, hn]
  have hnode := yields_liftNode ht hg hgrow hi hn hp hvalues
  have hnodeOf := yields_nodeOf_bind (f := liftNode l ⟨i⟩ p) (hgrow.node? hn) hnode
  rw [liftStep, MatrixTape.instr, hs]
  dsimp only
  rw [MatrixTape.opOf, hn, hpattern]
  cases n with
  | symbol serial q =>
    have hstay := ht.stay hg hgrow hi hn hp rfl hvalues rfl
    dsimp only
    cases inputs.idxOf? ⟨i⟩ <;> exact yields_pure hstay
  | constant m => exact yields_pure (ht.stay hg hgrow hi hn hp rfl hvalues rfl)
  | _ => exact hnodeOf

/-- **The pass.** -/
theorem yields_liftSteps (hg : g.WellTyped) {inputs free : List MatrixId} {steps : List SlottedStep}
    {bound : Nat} (hbound : bound ≤ g.size)
    (hsteps : Step.Ordered g.valueOperandNumbers bound done (steps.map SlottedStep.step))
    (ht : l.Treats g h done) (hgrow : g.Grows h) :
    Yields ((steps.map (MatrixTape.instr g inputs free)).foldlM liftStep l) h fun l' k =>
      l'.Treats g k (done ++ (steps.map SlottedStep.step).filterMap Step.computes?) := by
  induction steps generalizing done l h with
  | nil =>
    rw [List.map_nil, List.map_nil, List.filterMap_nil, List.append_nil]
    exact yields_pure ht
  | cons s rest ih =>
    rw [List.map_cons, List.foldlM_cons, List.map_cons]
    rw [List.map_cons] at hsteps
    cases hs : s.step with
    | compute i =>
      rw [hs] at hsteps
      obtain ⟨hi, hlt, hoperands, hrest⟩ := hsteps
      refine (yields_liftStep ht hg hgrow hs hi (Nat.lt_of_lt_of_le hlt hbound) hoperands).bind
        fun l' k hhk ht' => ?_
      have hfold := ih hrest ht' (hgrow.trans hhk)
      rwa [List.append_assoc] at hfold
    | store root i =>
      rw [hs] at hsteps
      have hskip : liftStep l (MatrixTape.instr g inputs free s) = pure l := by
        rw [liftStep, MatrixTape.instr, hs]
      rw [hskip, pure_bind]
      exact ih hsteps.2 ht hgrow

/-! ### The functions that are made -/

section Made

variable {f : MatrixFunction} {tape : MatrixTape} {steps : List SlottedStep}
  {inputs outputs : List MatrixId}

theorem nodup_liftsAmong (hdone : done.Nodup) : (g.liftsAmong done).Nodup :=
  (hdone.map fun _ _ h => MatrixId.mk.inj h).filter _

/-- Inputs and new symbols are different symbols. -/
theorem symbols_of_treats (ht : l.Treats g h done) (hg : g.WellTyped) (hgrow : g.Grows h)
    (hdone : done.Nodup) (hsymbols : ∀ e ∈ inputs, g.isSymbol e = true) (hnodup : inputs.Nodup) :
    (∀ e ∈ inputs ++ l.unknowns.reverse, h.isSymbol e = true) ∧
      (inputs ++ l.unknowns.reverse).Nodup := by
  have hold : ∀ e ∈ inputs, ∃ serial p, h.node? e = some (.symbol serial p) ∧
      serial < g.names.size := by
    intro e he
    obtain ⟨serial, p, hn, hlt⟩ := hg.exists_symbol (hsymbols e he)
    exact ⟨serial, p, hgrow.node? hn, hlt⟩
  have hnew : ∀ z ∈ l.unknowns.reverse, ∃ serial p, h.node? z = some (.symbol serial p) ∧
      g.names.size ≤ serial := by
    intro z hz
    rw [ht.unknowns] at hz
    obtain ⟨e, he, rfl⟩ := List.mem_map.mp hz
    obtain ⟨hdone, hlift⟩ := mem_liftsAmong.mp he
    exact ht.stands.unknown _ hdone hlift
  have hsymbol : ∀ e serial p, h.node? e = some (.symbol serial p) → h.isSymbol e = true := by
    intro e serial p hn
    rw [isSymbol, hn]
    rfl
  refine ⟨fun e he => ?_, List.nodup_append.mpr ⟨hnodup, ?_, fun e he z hz => ?_⟩⟩
  · rcases List.mem_append.mp he with he | he
    · obtain ⟨serial, p, hn, -⟩ := hold e he
      exact hsymbol e serial p hn
    · obtain ⟨serial, p, hn, -⟩ := hnew e he
      exact hsymbol e serial p hn
  · rw [ht.unknowns]
    refine (nodup_liftsAmong hdone).map_on fun a ha b hb hab => ?_
    have hindex := ht.stands.injective _ (mem_liftsAmong.mp ha).1 _ (mem_liftsAmong.mp hb).1 hab
    cases a; cases b
    exact congrArg _ hindex
  · rintro rfl
    obtain ⟨serial, p, hn, hlt⟩ := hold e he
    obtain ⟨serial', p', hn', hle⟩ := hnew e hz
    obtain ⟨rfl, -⟩ := MatrixNode.symbol.inj (Option.some.inj (hn.symm.trans hn'))
    omega

/-- Residuals and replaced outputs are there. -/
theorem known_of_treats (ht : l.Treats g h done) (houtputs : ∀ e ∈ outputs, e.index ∈ done) :
    ∀ e ∈ l.residuals.reverse ++ outputs.map l.replace, ∃ n, h.node? e = some n := by
  intro e he
  rcases List.mem_append.mp he with he | he
  · refine forall_of_forall₂ (P := fun r => ∃ n, h.node? r = some n)
      (ht.residuals.imp fun _ r hr => ?_) e he
    obtain ⟨value, guess, p, -, -, hr, -⟩ := hr
    exact ⟨_, hr⟩
  · obtain ⟨o, ho, rfl⟩ := List.mem_map.mp he
    obtain ⟨p, -, hp⟩ := ht.stands.pattern _ (houtputs o ho)
    exact exists_node?_of_pattern? hp

theorem known_guesses (hgrow : g.Grows h) (done : List Nat) :
    ∀ e ∈ (g.liftsAmong done).map g.guessOf, ∃ n, h.node? e = some n := by
  intro e he
  obtain ⟨d, hd, rfl⟩ := List.mem_map.mp he
  have hlift := (mem_liftsAmong.mp hd).2
  rw [isLift] at hlift
  cases hn : g.node? d with
  | none => simp [hn] at hlift
  | some n =>
    rw [hn, Option.any_some] at hlift
    cases n with
    | lift value guess =>
      have hbefore := g.operands_before hn guess (by simp [MatrixNode.operands])
      have hlt : guess.index < g.entries.items.size :=
        Nat.lt_trans hbefore (index_lt_of_node? hn)
      have hguess : g.node? guess = some g.entries.items[guess.index].node := by
        rw [node?, Array.getElem?_eq_getElem hlt]
        rfl
      rw [guessOf, hn]
      exact ⟨_, hgrow.node? hguess⟩
    | _ => contradiction

/-- What there is when lifting has been carried out. -/
structure Lifts (f : MatrixFunction) (g h : MatrixGraph) (done : List Nat) (l : Lifted)
    (fs : LiftingFunctions) : Prop where
  treats : l.Treats g h done
  outputs : ∀ e ∈ f.outputs, e.index ∈ done
  definition : fs.definition.Made h (f.inputs ++ (g.liftsAmong done).map l.replace)
    (l.residuals.reverse ++ f.outputs.map l.replace)
  guess : fs.guess.Made h f.inputs ((g.liftsAmong done).map g.guessOf)

/-- **Lifting succeeds**, and keeps graphs well typed. -/
theorem yields_liftingFunctions (htape : f.tape? = some tape)
    (hlives : f.livesIn g = true)
    (hprogram : MatrixTape.Program g f.inputs f.outputs tape steps) :
    Yields f.liftingFunctions g fun fs h => ∃ l, f.Lifts g h (MatrixTape.computedBy steps) l fs := by
  refine yields_of_wellTyped fun hg => yields_get_bind ?_
  refine yields_ofExcept_bind (if_pos hlives) (yields_ofExcept_bind (a := tape) ?_ ?_)
  · rw [MatrixFunction.tape, htape]
  obtain ⟨bound, hbound, hordered⟩ := hprogram.ordered
  rw [hprogram.instrs]
  refine Yields.bind (Q := fun l k => g.Grows k ∧ l.Treats g k (MatrixTape.computedBy steps)) ?_ ?_
  · exact (yields_liftSteps hg hbound hordered (treats_nil g g) (.refl g)).imp
      fun l k hgk ht => ⟨hgk, ht⟩
  rintro l h - ⟨hgrow, ht⟩
  have hdone : (MatrixTape.computedBy steps).Nodup := hordered.nodup_computes
  obtain ⟨hsymbols, hnodup⟩ := symbols_of_treats ht hg hgrow hdone hprogram.symbols hprogram.nodup
  obtain ⟨definition, hdefinition⟩ := make_eq_ok (f.options.extended "_vdef") hsymbols hnodup
    (known_of_treats ht hprogram.outputs)
  have hold : ∀ e ∈ f.inputs, h.isSymbol e = true := fun e he =>
    hsymbols e (List.mem_append_left _ he)
  obtain ⟨guess, hguess⟩ := make_eq_ok (f.options.extended "_vinit") hold hprogram.nodup
    (known_guesses hgrow (MatrixTape.computedBy steps))
  refine yields_get_bind (yields_ofExcept_bind hdefinition ?_)
  rw [ht.guesses]
  refine yields_get_bind (yields_ofExcept_bind hguess (yields_pure ⟨l, ht, hprogram.outputs, ?_,
    made_of_make hguess⟩))
  have hmade := made_of_make hdefinition
  rwa [ht.unknowns] at hmade

theorem keeps_liftingFunctions (hf : f.livesIn g = true → f.Ready g) :
    Keeps f.liftingFunctions g fun fs h =>
      ∃ ins outs ins' outs', fs.definition.Made h ins outs ∧ fs.guess.Made h ins' outs' := by
  cases hlives : f.livesIn g with
  | false =>
    have hcheck : f.checkGraph g = .error .foreignGraph := by rw [checkGraph, hlives]; rfl
    refine keeps_get_bind ?_
    rw [hcheck]
    exact Keeps.bind (Q := fun _ _ => False) (keeps_throw _) fun _ _ _ h => h.elim
  | true =>
    cases htape : f.tape? with
    | none =>
      refine keeps_get_bind (keeps_ofExcept_bind fun _ _ => keeps_ofExcept_bind fun tape ht => ?_)
      rw [MatrixFunction.tape, htape] at ht
      contradiction
    | some tape =>
      obtain ⟨steps, hprogram⟩ := ((hf hlives).resides tape htape).program
      refine (yields_liftingFunctions htape hlives hprogram).keeps.imp fun fs h _ hfs => ?_
      obtain ⟨l, hl⟩ := hfs
      exact ⟨_, _, _, _, hl.definition, hl.guess⟩

end Made

end MatrixFunction

end Fluxion
