import Fluxion.Proofs.Expansion.Function
import Fluxion.Proofs.History.Ownership

/-!
# Which symbols an expansion takes

An expansion on given handles succeeds exactly if there is one for each nonzero of the inputs, the
function has a tape without free symbols, and the handles are different symbols of the graph. A
request that fails names the first of these that is missing, and among handles that the graph has the
first one that cannot be an input.

Handles that the graph does not have are the exception. The tape runs over the handles before they
are looked at, so the first operation that reads such a handle stops the request with an index past
the end, which is no answer to a wrong argument.

## Main definitions

* `ScalarGraph.Unfit` — a handle of a list that cannot be an input
* `ScalarFunction.inputOf` — the input that a value belongs to
* `MatrixFunction.Expandable` — what an expansion on given handles asks for

## Main results

* `ScalarTape.exists_checkInputs_eq_error` — **the first handle that is unfit decides**
* `MatrixHistory.expandWith_outcome` — **expansion on given handles**, whatever they are
* `EmbeddedProduct.expandWith_outOfRange` — a handle that the graph does not have
-/

namespace Fluxion

open ScalarBuilder

variable {g h : ScalarGraph}

/-! ### Handles that cannot be inputs -/

/-- Handle number `k` cannot be an input after those before it: it is no symbol of the graph, or it is
one of them. -/
def ScalarGraph.Unfit (g : ScalarGraph) (es : List ScalarId) (k : Nat) : Prop :=
  ∃ e, es[k]? = some e ∧ (g.isSymbol e = false ∨ e ∈ es.take k)

/-- The number of the input that value `k` belongs to, where the inputs have these sizes. -/
def ScalarFunction.inputOf : List Nat → Nat → Nat
  | [], _ => 0
  | n :: rest, k => if k < n then 0 else inputOf rest (k - n) + 1

/-- Different symbols can all be inputs. -/
theorem ScalarGraph.not_unfit {es : List ScalarId} (hsymbols : ∀ e ∈ es, g.isSymbol e = true)
    (hnodup : es.Nodup) (k : Nat) : ¬ g.Unfit es k := by
  rintro ⟨e, he, hbad⟩
  obtain ⟨hk, rfl⟩ := List.getElem?_eq_some_iff.mp he
  rcases hbad with hbad | hbad
  · rw [hsymbols _ (List.getElem_mem hk)] at hbad
    contradiction
  · obtain ⟨i, hi, heq⟩ := List.mem_take_iff_getElem.mp hbad
    have := (hnodup.getElem_inj_iff).mp heq
    omega

/-- Only the handles before it matter. -/
theorem ScalarGraph.unfit_append {es ds : List ScalarId} {k : Nat} (hk : k < es.length) :
    g.Unfit (es ++ ds) k ↔ g.Unfit es k := by
  rw [Unfit, Unfit, List.getElem?_append_left hk, List.take_append_of_le_length (Nat.le_of_lt hk)]

namespace ScalarTape

theorem symbols_of_checkInputs {ps : List Place} (hok : checkInputs g .empty ps = .ok ()) :
    (∀ e ∈ ps.map Place.e, g.isSymbol e = true) ∧ (ps.map Place.e).Nodup := by
  obtain ⟨hsymbols, hnodup⟩ := checkInputs_eq_ok hok
  have hindices : (ps.map Place.e).map ScalarId.index = ps.map fun p => p.e.index := List.map_map
  exact ⟨List.forall_mem_map.mpr fun p hp => (hsymbols p hp).1, (hindices ▸ hnodup).of_map _⟩

/-- Values are numbered input by input. -/
theorem index_of_getElem?_places {ms : List (SparseMatrix ScalarId)} {k : Nat} {p : Place}
    (hp : (places ms)[k]? = some p) :
    p.index = ScalarFunction.inputOf (ms.map fun m => m.pattern.nnz) k := by
  suffices hall : ∀ n, ((ms.zipIdx n).flatMap fun mi =>
      mi.1.values.zipIdx.map fun ej => (⟨ej.1, mi.2, ej.2⟩ : Place))[k]? = some p →
        p.index = n + ScalarFunction.inputOf (ms.map fun m => m.pattern.nnz) k by
    simpa using hall 0 hp
  clear hp
  induction ms generalizing k with
  | nil => intro n hp; contradiction
  | cons m rest ih =>
    intro n hp
    rw [List.zipIdx_cons, List.flatMap_cons, List.getElem?_append, List.length_map,
      List.length_zipIdx, m.length_values] at hp
    rw [List.map_cons, ScalarFunction.inputOf]
    split at hp
    · rename_i hk
      obtain ⟨ej, -, rfl⟩ := Option.map_eq_some_iff.mp (List.getElem?_map ▸ hp)
      rw [if_pos hk, Nat.add_zero]
    · rename_i hk
      rw [ih (n + 1) hp, if_neg hk]
      omega

/-- Where inputs are refused whose handles the graph has, those before some place are different
symbols, and the one in that place is no symbol or is there already. -/
theorem exists_checkInputs_split {seen : NumberSet} {ps : List Place}
    (hhas : ∀ p ∈ ps, g.Has p.e) (hrefused : checkInputs g seen ps ≠ .ok ()) :
    ∃ before p after, ps = before ++ p :: after ∧ checkInputs g seen before = .ok () ∧
      (g.isSymbol p.e = false ∨ seen.contains p.e.index = true ∨
        p.e.index ∈ before.map fun q => q.e.index) ∧
      checkInputs g seen ps = .error
        (if g.isSymbol p.e then .repeatedSymbol p.index else .notSymbolic p.index) := by
  induction ps generalizing seen with
  | nil => exact absurd rfl hrefused
  | cons p rest ih =>
    obtain ⟨⟨n, hn⟩, hrest⟩ := List.forall_mem_cons.mp hhas
    have hsymbol : g.isSymbol p.e = n.isSymbol := by rw [ScalarGraph.isSymbol, hn]; rfl
    rw [checkInputs, hn] at hrefused ⊢
    dsimp only at hrefused ⊢
    by_cases hno : (!n.isSymbol) = true
    · have hno : n.isSymbol = false := by simpa using hno
      exact ⟨[], p, rest, rfl, rfl, .inl (hsymbol.trans hno), by simp [hsymbol, hno]⟩
    by_cases hseen : seen.contains p.e.index = true
    · have hyes : n.isSymbol = true := by simpa using hno
      exact ⟨[], p, rest, rfl, rfl, .inr (.inl hseen), by simp [hsymbol, hyes, hseen]⟩
    rw [if_neg hno, if_neg hseen] at hrefused ⊢
    obtain ⟨before, q, after, rfl, hbefore, hq, herror⟩ := ih hrest hrefused
    refine ⟨p :: before, q, after, rfl, ?_, ?_, herror⟩
    · rw [checkInputs, hn]
      dsimp only
      rw [if_neg hno, if_neg hseen, hbefore]
    · rw [NumberSet.contains_insert, Bool.or_eq_true] at hq
      rcases hq with hq | (hq | hq) | hq
      · exact .inl hq
      · exact .inr (.inl hq)
      · refine .inr (.inr ?_)
        rw [List.map_cons, of_decide_eq_true hq]
        exact List.mem_cons_self ..
      · exact .inr (.inr (List.mem_cons_of_mem _ hq))

/-- **The first handle that is unfit decides.** -/
theorem exists_checkInputs_eq_error {ps : List Place} (hhas : ∀ p ∈ ps, g.Has p.e)
    (hrefused : checkInputs g .empty ps ≠ .ok ()) :
    ∃ k p, ps[k]? = some p ∧ g.Unfit (ps.map Place.e) k ∧
      (∀ j < k, ¬ g.Unfit (ps.map Place.e) j) ∧
      checkInputs g .empty ps = .error
        (if g.isSymbol p.e then .repeatedSymbol p.index else .notSymbolic p.index) := by
  obtain ⟨before, p, after, rfl, hbefore, hp, herror⟩ := exists_checkInputs_split hhas hrefused
  have hlength : before.length = (before.map Place.e).length := (List.length_map _).symm
  rw [List.map_append]
  refine ⟨before.length, p, by simp, ⟨p.e, by simp, ?_⟩, fun j hj => ?_, herror⟩
  · rw [List.take_left' hlength.symm]
    rcases hp with hp | hp | hp
    · exact .inl hp
    · rw [NumberSet.contains_empty] at hp
      contradiction
    · obtain ⟨q, hq, heq⟩ := List.mem_map.mp hp
      exact .inr (List.mem_map.mpr ⟨q, hq, congrArg ScalarId.mk heq⟩)
  · rw [ScalarGraph.unfit_append (hlength ▸ hj)]
    obtain ⟨hsymbols, hnodup⟩ := symbols_of_checkInputs hbefore
    exact ScalarGraph.not_unfit hsymbols hnodup j

end ScalarTape

/-! ### Making functions of any handles -/

namespace ScalarFunction

variable {inputs outputs : List (SparseMatrix ScalarId)} {options : FunctionOptions}

/-- Inputs are looked at when the function is compiled. -/
theorem checkInputs_eq_ok_of_make {k : ScalarFunction} (hmake : make g inputs outputs options = .ok k) :
    ScalarTape.checkInputs g .empty (ScalarTape.places inputs) = .ok () := by
  rw [make, declare] at hmake
  split at hmake
  · contradiction
  · simp only [bind, Except.bind, init] at hmake
    split at hmake
    · contradiction
    · simp only [ScalarTape.compile] at hmake
      cases hcheck : ScalarTape.checkInputs g .empty (ScalarTape.places inputs) with
      | ok _ => rfl
      | error e =>
        rw [hcheck] at hmake
        contradiction

/-- On handles that the graph has, the refusal of an input is that of the function. -/
theorem make_eq_error (hhas : ∀ e ∈ handlesOf (inputs ++ outputs), g.Has e) {e : Error}
    (hcheck : ScalarTape.checkInputs g .empty (ScalarTape.places inputs) = .error e) :
    make g inputs outputs options = .error e := by
  rw [make, declare, ScalarGraph.unknown?_eq_none hhas]
  simp only [bind, Except.bind, init, checkGraph, livesIn, Lineage.sharesOwner_self, if_true,
    ScalarTape.compile, hcheck]

end ScalarFunction

/-! ### Expansion on any handles -/

/-- What is there is made of what is there. -/
theorem ScalarGraph.Has.within {e : ScalarId} (he : g.Has e) : g.Within (fun _ => True) e := by
  obtain ⟨i⟩ := e
  induction i using Nat.strong_induction_on with
  | _ i ih =>
    obtain ⟨n, hn⟩ := he
    have hoperand : ∀ a ∈ n.operands, g.Within (fun _ => True) a := fun a ha =>
      ih a.index (g.ordered i n hn a ha) (has_of_mem_operands hn a ha)
    cases n with
    | symbol serial => exact .symbol hn trivial
    | literal v => exact .literal hn
    | unary op a => exact .unary hn (hoperand a (by simp [ScalarNode.operands]))
    | binary op a b =>
      exact .binary hn (hoperand a (by simp [ScalarNode.operands]))
        (hoperand b (by simp [ScalarNode.operands]))

namespace MatrixFunction

variable {f : MatrixFunction} {mg : MatrixGraph} {tape : MatrixTape}
  {inputs : List (SparseMatrix ScalarId)} {es : List ScalarId} {rows : Bundle ScalarId}

theorem tape?_of_tape (htape : f.tape = .ok tape) : f.tape? = some tape := by
  rw [MatrixFunction.tape] at htape
  split at htape
  · rename_i tape' htape'
    cases htape
    exact htape'
  · contradiction

theorem closed_of_checkClosed (hcheck : checkClosed tape = .ok ()) : tape.freeSymbols = [] := by
  rw [checkClosed] at hcheck
  split at hcheck
  · rename_i hempty
    exact List.isEmpty_iff.mp hempty
  · contradiction

/-- After the run the function is made, or refused, in the graph that the run has left. -/
theorem expandOn_of_replay (htape : f.tape? = some tape) (hclosed : tape.freeSymbols = [])
    (hrun : tape.replay scalarAlgebra (inputs.map SparseMatrix.values) f.outCount g = .ok rows h) :
    f.expandOn inputs g = ofExcept
      (ScalarFunction.make h inputs (ScalarFunction.wrap f.outPatterns rows .zero) f.options) h := by
  have htapeOk : f.tape = .ok tape := by rw [MatrixFunction.tape, htape]
  rw [expandOn, htapeOk]
  change (ofExcept (checkClosed tape) >>= _) g = _
  rw [checkClosed_eq_ok hclosed]
  exact bind_of_ok hrun

/-- What has to be the case where an expansion succeeds. -/
theorem exists_of_expandOn {k : ScalarFunction} (hok : f.expandOn inputs g = .ok k h) :
    ∃ tape rows, f.tape? = some tape ∧ tape.freeSymbols = [] ∧
      tape.replay scalarAlgebra (inputs.map SparseMatrix.values) f.outCount g = .ok rows h ∧
      ScalarFunction.make h inputs (ScalarFunction.wrap f.outPatterns rows .zero) f.options
        = .ok k := by
  obtain ⟨tape, g₁, htape, hchecked⟩ := ok_of_bind hok
  obtain ⟨htapeOk, rfl⟩ := ok_of_ofExcept htape
  obtain ⟨_, g₂, hclosed, hreplayed⟩ := ok_of_bind hchecked
  obtain ⟨hclosedOk, rfl⟩ := ok_of_ofExcept hclosed
  obtain ⟨rows, g₃, hrun, hmade⟩ := ok_of_bind hreplayed
  obtain ⟨hmake, rfl⟩ := ok_of_ofExcept (show ofExcept _ g₃ = _ from hmade)
  exact ⟨tape, rows, tape?_of_tape htapeOk, closed_of_checkClosed hclosedOk, hrun, hmake⟩

/-- Inputs of a function that is made are different symbols, and they were that before the run: a
run adds no symbols. -/
theorem symbols_of_expandOn {k : ScalarFunction} (hok : f.expandOn inputs g = .ok k h) :
    (∀ e ∈ ScalarFunction.handlesOf inputs, g.isSymbol e = true) ∧
      (ScalarFunction.handlesOf inputs).Nodup := by
  obtain ⟨tape, rows, -, -, hrun, hmake⟩ := exists_of_expandOn hok
  obtain ⟨hsymbols, hnodup⟩ :=
    ScalarTape.symbols_of_checkInputs (ScalarFunction.checkInputs_eq_ok_of_make hmake)
  have hafter : (tape.replay scalarAlgebra (inputs.map SparseMatrix.values) f.outCount).after g = h := by
    rw [after, hrun]
  rw [← ScalarTape.map_e_places]
  refine ⟨fun e he => ?_, hnodup⟩
  exact ScalarGraph.isSymbol_of_assembled (MatrixTape.assembled_replay tape _ _)
    (hafter ▸ hsymbols e he)

/-- A run over handles that the graph has succeeds, and the graph has what the outputs hold. -/
theorem yields_replay_has (hf : f.Ready mg) (hmg : mg.WellTyped) (htape : f.tape? = some tape)
    (hhas : ∀ e ∈ ScalarFunction.handlesOf inputs, g.Has e)
    (hpatterns : inputs.map SparseMatrix.pattern = f.inPatterns) :
    Yields (tape.replay scalarAlgebra (inputs.map SparseMatrix.values) f.outCount) g fun rows h =>
      ∀ e ∈ ScalarFunction.handlesOf (ScalarFunction.wrap f.outPatterns rows .zero), h.Has e := by
  have hinputs : List.Forall₂ (List.Forall₂ fun e (_ : Nat) => g.Within (fun _ => True) e)
      (inputs.map SparseMatrix.values) (inputs.map fun m => m.values.map fun _ => 0) := by
    refine forall₂_map_same inputs fun m hm => List.forall₂_map_right_iff.mpr ?_
    exact List.forall₂_same.mpr fun e he => (hhas e (List.mem_flatMap.mpr ⟨m, hm, he⟩)).within
  refine (MatrixTape.yields_replay (ScalarGraph.simulates_within (fun _ => True) dependencyAlgebra)
    tape hinputs f.outCount).imp fun rows h _ _ hrows e he => ?_
  have hlengths : rows.map List.length = f.outPatterns.map Pattern.nnz := by
    rw [← hf.length_replay hmg htape dependencyAlgebra
      (show _ = f.inSizes by rw [map_length_values inputs fun _ => 0, hpatterns]; rfl)]
    exact map_eq_map_of_forall₂ hrows fun _ _ _ hrow => hrow.length_eq
  obtain ⟨m, hm, he⟩ := List.mem_flatMap.mp he
  have hmem : m.values ∈ rows := ScalarFunction.values_wrap hlengths ▸ List.mem_map_of_mem hm
  have hwithin : ∀ row ∈ rows, ∀ e ∈ row, h.Within (fun _ => True) e :=
    forall_of_forall₂ (hrows.flip.imp fun _ _ hrow => forall_of_forall₂ hrow.flip)
  exact (hwithin m.values hmem e he).has

/-- **Handles that the graph has are refused in order.** The first one that is unfit is named by the
input that it is for, and by what is wrong with it. -/
theorem expandOn_eq_error (hf : f.Ready mg) (hmg : mg.WellTyped) (htape : f.tape? = some tape)
    (hclosed : tape.freeSymbols = []) (hg : g.Founded)
    (hhas : ∀ e ∈ ScalarFunction.handlesOf inputs, g.Has e)
    (hpatterns : inputs.map SparseMatrix.pattern = f.inPatterns)
    (hunfit : ¬ ((∀ e ∈ ScalarFunction.handlesOf inputs, g.isSymbol e = true) ∧
      (ScalarFunction.handlesOf inputs).Nodup)) :
    ∃ k e h, (ScalarFunction.handlesOf inputs)[k]? = some e ∧
      g.Unfit (ScalarFunction.handlesOf inputs) k ∧
      (∀ j < k, ¬ g.Unfit (ScalarFunction.handlesOf inputs) j) ∧
      f.expandOn inputs g = .error (if g.isSymbol e then
        .repeatedSymbol (ScalarFunction.inputOf f.inSizes k)
        else .notSymbolic (ScalarFunction.inputOf f.inSizes k)) h := by
  obtain ⟨rows, h, hrun, hgrow, hrows⟩ := yields_replay_has hf hmg htape hhas hpatterns hg
  have hplaces := ScalarTape.map_e_places inputs
  have hsame : ∀ e ∈ ScalarFunction.handlesOf inputs, h.isSymbol e = g.isSymbol e := by
    intro e he
    obtain ⟨n, hn⟩ := hhas e he
    rw [ScalarGraph.isSymbol, hgrow.node? hn, ScalarGraph.isSymbol, hn]
  have hsameUnfit : ∀ j, h.Unfit (ScalarFunction.handlesOf inputs) j
      ↔ g.Unfit (ScalarFunction.handlesOf inputs) j := fun j =>
    exists_congr fun e => and_congr_right fun he => by rw [hsame e (List.mem_of_getElem? he)]
  have hgrown : ∀ p ∈ ScalarTape.places inputs, h.Has p.e := fun p hp =>
    (hhas p.e (hplaces ▸ List.mem_map_of_mem hp)).grow hgrow
  -- the check is made after the run, in the graph that the run leaves
  have hrefused : ScalarTape.checkInputs h .empty (ScalarTape.places inputs) ≠ .ok () := by
    intro hok
    obtain ⟨hsymbols, hnodup⟩ := ScalarTape.symbols_of_checkInputs hok
    rw [hplaces] at hsymbols hnodup
    exact hunfit ⟨fun e he => hsame e he ▸ hsymbols e he, hnodup⟩
  obtain ⟨k, p, hp, hfirst, hbefore, herror⟩ :=
    ScalarTape.exists_checkInputs_eq_error hgrown hrefused
  have hat : (ScalarFunction.handlesOf inputs)[k]? = some p.e := by
    rw [← hplaces, List.getElem?_map, hp, Option.map_some]
  have hindex : p.index = ScalarFunction.inputOf f.inSizes k := by
    rw [ScalarTape.index_of_getElem?_places hp, inSizes, ← hpatterns, List.map_map]
    rfl
  rw [hplaces] at hfirst hbefore
  refine ⟨k, p.e, h, hat, (hsameUnfit k).mp hfirst,
    fun j hj => mt (hsameUnfit j).mpr (hbefore j hj), ?_⟩
  rw [← hsame p.e (List.mem_of_getElem? hat), ← hindex, expandOn_of_replay htape hclosed hrun,
    ScalarFunction.make_eq_error ?_ herror]
  · rfl
  · rw [ScalarFunction.handlesOf, List.flatMap_append]
    exact List.forall_mem_append.mpr ⟨fun e he => (hhas e he).grow hgrow, hrows⟩

/-- What an expansion on given handles asks for: one for each nonzero of the inputs, a tape without
free symbols, and different symbols of the graph. -/
structure Expandable (f : MatrixFunction) (es : List ScalarId) (g : ScalarGraph) : Prop where
  count : es.length = f.inSizes.foldr (· + ·) 0
  closed : ∃ tape, f.tape? = some tape ∧ tape.freeSymbols = []
  symbols : ∀ e ∈ es, g.isSymbol e = true
  distinct : es.Nodup

theorem expandWith_of_count (hcount : es.length = f.inSizes.foldr (· + ·) 0) :
    f.expandWith es = f.expandOn (distribute .zero f.inPatterns es) := by
  rw [expandWith, if_neg (not_not.mpr hcount)]

theorem expandable_of_ok {k : ScalarFunction} (hok : f.expandWith es g = .ok k h) :
    f.Expandable es g := by
  by_cases hcount : es.length = f.inSizes.foldr (· + ·) 0
  · rw [expandWith_of_count hcount] at hok
    obtain ⟨tape, -, htape, hclosed, -⟩ := exists_of_expandOn hok
    obtain ⟨hsymbols, hnodup⟩ := symbols_of_expandOn hok
    rw [ScalarFunction.handlesOf, flatMap_values_distribute _ hcount] at hsymbols hnodup
    exact ⟨hcount, ⟨tape, htape, hclosed⟩, hsymbols, hnodup⟩
  · rw [expandWith, if_pos hcount] at hok
    contradiction

end MatrixFunction

/-! ### After every history -/

namespace MatrixHistory

variable {gs : GraphId → Option MatrixGraph} {fs : List MatrixFunction} {f : MatrixFunction}
  {scalars : GraphId → Option ScalarGraph} {functions : List ScalarFunction} {i : GraphId}

/-- **Expansion on given handles.** It succeeds exactly if there is a handle for each nonzero of the
inputs, the function has a tape without free symbols, and the handles are different symbols of the
graph. A wrong number of handles, a missing tape and free symbols are found in this order, before
anything is added. Handles that the graph has are refused by the input that the first unfit one is
for, as no symbol or as a repeated one. -/
theorem expandWith_outcome (hist : MatrixHistory gs fs) (hf : f ∈ fs)
    (hscalars : ScalarHistory scalars functions) (hg : scalars i = some g) (es : List ScalarId) :
    ((∃ k h, f.expandWith es g = .ok k h) ↔ f.Expandable es g) ∧
    (es.length ≠ f.inSizes.foldr (· + ·) 0 → f.expandWith es g
      = .error (.shape (.symbolCount (f.inSizes.foldr (· + ·) 0) es.length)) g) ∧
    (es.length = f.inSizes.foldr (· + ·) 0 →
      (f.tape? = none → f.expandWith es g = .error (.notInitialized f.name) g) ∧
      ∀ tape, f.tape? = some tape →
        (tape.freeSymbols ≠ [] → f.expandWith es g = .error (.freeSymbols tape.freeNames) g) ∧
        (tape.freeSymbols = [] → (∀ e ∈ es, g.Has e) →
          ¬ ((∀ e ∈ es, g.isSymbol e = true) ∧ es.Nodup) →
          ∃ k e h, es[k]? = some e ∧ g.Unfit es k ∧ (∀ j < k, ¬ g.Unfit es j) ∧
            f.expandWith es g = .error (if g.isSymbol e then
              .repeatedSymbol (ScalarFunction.inputOf f.inSizes k)
              else .notSymbolic (ScalarFunction.inputOf f.inSizes k)) h)) := by
  obtain ⟨mg, hmg, -, hready⟩ := hist.invariant.2.2 f hf
  refine ⟨⟨fun ⟨k, h, hok⟩ => MatrixFunction.expandable_of_ok hok, fun hes => ?_⟩,
    fun hcount => ?_, fun hcount => ⟨fun htape => ?_, fun tape htape =>
      ⟨fun hfree => ?_, fun hclosed hhas hunfit => ?_⟩⟩⟩
  · obtain ⟨tape, htape, hclosed⟩ := hes.closed
    obtain ⟨k, h, hok, -⟩ := MatrixFunction.yields_expandWith hready (hist.invariant.2.1 _ mg hmg)
      htape hclosed hes.symbols hes.distinct hes.count (hscalars.founded hg)
    exact ⟨k, h, hok⟩
  · rw [MatrixFunction.expandWith, if_pos hcount]
    rfl
  · rw [MatrixFunction.expandWith_of_count hcount, MatrixFunction.expandOn, MatrixFunction.tape,
      htape]
    rfl
  · have hcheck : MatrixFunction.checkClosed tape = .error (.freeSymbols tape.freeNames) := by
      rw [MatrixFunction.checkClosed, if_neg (by simpa using hfree)]
    rw [MatrixFunction.expandWith_of_count hcount, MatrixFunction.expandOn,
      MatrixFunction.tape_eq htape]
    change (ScalarBuilder.ofExcept (MatrixFunction.checkClosed tape) >>= _) g = _
    rw [hcheck]
    rfl
  · have hhandles : ScalarFunction.handlesOf (MatrixFunction.distribute .zero f.inPatterns es) = es :=
      MatrixFunction.flatMap_values_distribute ScalarId.zero hcount
    have herror := MatrixFunction.expandOn_eq_error hready (hist.invariant.2.1 _ mg hmg) htape hclosed
      (hscalars.founded hg) (hhandles.symm ▸ hhas)
      (MatrixFunction.map_pattern_distribute ScalarId.zero f.inPatterns es) (hhandles.symm ▸ hunfit)
    rw [hhandles] at herror
    rwa [MatrixFunction.expandWith_of_count hcount]

end MatrixHistory

/-! ### The embedded product on any handles -/

namespace EmbeddedProduct

/-- The two symbols of the graph are taken, and the first of them twice is refused. -/
theorem expandWith_symbols :
    (∃ k h, (functionWith (some tape)).expandWith [⟨3⟩, ⟨4⟩] Product.graph = .ok k h) ∧
      ∃ h, (functionWith (some tape)).expandWith [⟨3⟩, ⟨3⟩] Product.graph
        = .error (.repeatedSymbol 0) h := by
  have houtcome := functions.history.expandWith_outcome (f := functionWith (some tape))
    (List.mem_cons_self ..) Product.history
    (show Product.graphs (.numbered 0) = some Product.graph from Function.update_self ..)
  constructor
  · exact (houtcome [⟨3⟩, ⟨4⟩]).1.mpr ⟨rfl, ⟨tape, rfl, rfl⟩, by decide, by decide⟩
  · obtain ⟨-, hclosed⟩ := ((houtcome [⟨3⟩, ⟨3⟩]).2.2 rfl).2 tape rfl
    obtain ⟨k, e, h, he, -, -, herror⟩ := hclosed rfl
      (fun e he => ScalarGraph.has_of_isSymbol (by fin_cases he <;> rfl)) (by decide)
    refine ⟨h, herror.trans ?_⟩
    match k with
    | 0 | 1 =>
      obtain rfl := Option.some.inj he
      rfl

/-- A handle that the graph does not have is no symbol of it and cannot be an input. The request
should say so, but it stops where the product reads the handle. -/
theorem expandWith_outOfRange :
    functionWith (some tape) ∈ [functionWith (some tape), functionWith none] ∧
      (functionWith (some tape)).inSizes = [2] ∧ tape.freeSymbols = [] ∧
      Product.graph.node? ⟨9⟩ = none ∧
      ∃ h, (functionWith (some tape)).expandWith [⟨3⟩, ⟨9⟩] Product.graph = .error .outOfRange h :=
  ⟨List.mem_cons_self .., rfl, rfl, rfl, _, rfl⟩

end EmbeddedProduct

end Fluxion
