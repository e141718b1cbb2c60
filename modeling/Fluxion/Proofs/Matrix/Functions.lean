import Fluxion.Proofs.Jacobian.Scalar
import Fluxion.Proofs.Matrix.Sweeping
import Fluxion.Function.Derivative.Matrix

/-!
# Matrix functions in a graph

What a request for a derivative relies on is that the graph has the expressions of the function on the
patterns that the function remembers, and the nodes of its tape if there is one. Declaring a function
and compiling its tape gives all of that. Then sweeps keep the graph well typed, and so does the gather
that assembles a Jacobian: a plan reads components of sweeps that are there.

## Main definitions

* `MatrixFunction.Ready` — a graph has what a function remembers
* `MatrixFunction.Made` — what is known of a function that was made in a graph

## Main results

* `MatrixFunction.made_of_make`, `MatrixFunction.make_eq_ok` — functions that are made
* `MatrixFunction.shape_dependencyPattern` — dependencies are counted by nonzeros
* `MatrixFunction.keeps_jac`, `MatrixFunction.keeps_grad`, `MatrixFunction.keeps_tang`,
  `MatrixFunction.keeps_hess`, `MatrixFunction.keeps_jacobian` — **derivatives keep graphs well
  typed**
-/

namespace Fluxion

open MatrixBuilder

/-! ### Tapes under change of graph -/

namespace MatrixTape

variable {g h : MatrixGraph} {inputs outputs : List MatrixId} {tape : MatrixTape} {bound : Nat}

theorem Compiled.resides (hc : Compiled g inputs outputs tape) : Resides g inputs outputs tape := by
  refine ⟨g, g.size, hc, fun _ _ => rfl, Nat.le_refl _, Nat.le_refl _, fun e he => ?_, fun e he => ?_⟩
  · have hsymbol := hc.symbols e he
    rw [MatrixGraph.isSymbol] at hsymbol
    cases hn : g.node? e with
    | none => simp [hn] at hsymbol
    | some n => exact MatrixGraph.index_lt_of_node? hn
  · obtain ⟨n, hn⟩ := hc.known e he
    exact MatrixGraph.index_lt_of_node? hn

/-- A tape resides in any graph that has the nodes up to the last expression. -/
theorem Resides.of_agree (ht : Resides g inputs outputs tape)
    (hagree : MatrixGraph.arena.AgreeBelow g h bound) (hh : bound ≤ h.size)
    (hin : ∀ e ∈ inputs, e.index < bound) (hout : ∀ e ∈ outputs, e.index < bound) :
    Resides h inputs outputs tape := by
  obtain ⟨origin, limit, hcompiled, hlimit, horigin, hsize, hin', hout'⟩ := ht
  have hleft : min limit bound ≤ limit := Nat.min_le_left _ _
  have hright : min limit bound ≤ bound := Nat.min_le_right _ _
  exact ⟨origin, min limit bound, hcompiled, (hlimit.mono hleft).trans (hagree.mono hright),
    hleft.trans horigin, hright.trans hh, fun e he => Nat.lt_min.mpr ⟨hin' e he, hin e he⟩,
    fun e he => Nat.lt_min.mpr ⟨hout' e he, hout e he⟩⟩

end MatrixTape

namespace MatrixFunction

variable {f f' : MatrixFunction} {g h : MatrixGraph} {i o bound : Nat} {p : Pattern}

/-- The graph has the expressions of the function, on the patterns that the function remembers, and
the nodes of its tape. Every input has a name. -/
structure Ready (f : MatrixFunction) (g : MatrixGraph) : Prop where
  inPatterns : f.inputs.map g.pattern? = f.inPatterns.map some
  outPatterns : f.outputs.map g.pattern? = f.outPatterns.map some
  resides : ∀ tape, f.tape? = some tape → MatrixTape.Resides g f.inputs f.outputs tape
  named : f.inNames.length = f.inputs.length

theorem Ready.inCount_eq (hf : f.Ready g) : f.inPatterns.length = f.inCount := by
  simpa [inCount] using (congrArg List.length hf.inPatterns).symm

theorem Ready.outCount_eq (hf : f.Ready g) : f.outPatterns.length = f.outCount := by
  simpa [outCount] using (congrArg List.length hf.outPatterns).symm

theorem Ready.grow (hf : f.Ready g) (hgrow : g.Grows h) : f.Ready h :=
  ⟨MatrixNode.map_pattern?_grow hgrow.pattern? hf.inPatterns,
    MatrixNode.map_pattern?_grow hgrow.pattern? hf.outPatterns,
    fun tape ht => (hf.resides tape ht).grow hgrow, hf.named⟩

theorem map_pattern?_of_agree {es : List MatrixId}
    (hagree : MatrixGraph.arena.AgreeBelow g h bound) (hes : ∀ e ∈ es, e.index < bound) :
    es.map g.pattern? = es.map h.pattern? :=
  List.map_congr_left fun e he => MatrixGraph.pattern?_eq_of_agreeBelow hagree (hes e he)

theorem Ready.of_agree (hf : f.Ready g) (hagree : MatrixGraph.arena.AgreeBelow g h bound)
    (hh : bound ≤ h.size) (hin : ∀ e ∈ f.inputs, e.index < bound)
    (hout : ∀ e ∈ f.outputs, e.index < bound) : f.Ready h :=
  ⟨(map_pattern?_of_agree hagree hin).symm.trans hf.inPatterns,
    (map_pattern?_of_agree hagree hout).symm.trans hf.outPatterns,
    fun tape ht => (hf.resides tape ht).of_agree hagree hh hin hout, hf.named⟩

theorem ready_declare {inputs outputs : List MatrixId} {options : FunctionOptions}
    (hf : declare g inputs outputs options = .ok f) : f.Ready g := by
  rw [declare] at hf
  split at hf
  · contradiction
  · rename_i hknown
    obtain rfl := Except.ok.inj hf
    have hknown := MatrixTape.known_of_unknown? hknown
    exact ⟨MatrixTape.map_patternIn fun e he => hknown e (List.mem_append_left _ he),
      MatrixTape.map_patternIn fun e he => hknown e (List.mem_append_right _ he),
      fun _ ht => by contradiction, by simp⟩

/-- Initialization only adds the tape, compiled in the graph. -/
theorem init_eq_ok (hinit : f.init g = .ok f') : f' = f ∧ (∃ tape, f.tape? = some tape) ∨
    ∃ tape, MatrixTape.compile g f.inputs f.outputs = .ok tape ∧
      f' = { f with tape? := some tape } := by
  rw [init] at hinit
  cases hcheck : f.checkGraph g with
  | error e => simp [hcheck, bind, Except.bind] at hinit
  | ok _ =>
    simp only [hcheck, bind, Except.bind, pure, Except.pure] at hinit
    cases htape : f.tape? with
    | some tape =>
      rw [htape] at hinit
      exact .inl ⟨(Except.ok.inj hinit).symm, tape, rfl⟩
    | none =>
      rw [htape] at hinit
      dsimp only at hinit
      cases hcompile : MatrixTape.compile g f.inputs f.outputs with
      | error e => simp [hcompile] at hinit
      | ok tape =>
        rw [hcompile] at hinit
        exact .inr ⟨tape, rfl, (Except.ok.inj hinit).symm⟩

theorem ready_init (hf : f.Ready g) (hinit : f.init g = .ok f') : f'.Ready g := by
  rcases init_eq_ok hinit with ⟨rfl, -⟩ | ⟨tape, hcompile, rfl⟩
  · exact hf
  · refine ⟨hf.inPatterns, hf.outPatterns, fun t ht => ?_, hf.named⟩
    obtain rfl := Option.some.inj ht
    exact (MatrixTape.compiled_of_compile hcompile).resides

/-- The handles of a function are handles of the graph, up to the last one that its owner tells of.
A function without handles tells of one that need not be there. -/
def Owned (f : MatrixFunction) (g : MatrixGraph) : Prop :=
  ∃ bound, (bound = 0 ∨ bound = f.owner.last + 1) ∧ bound ≤ g.size ∧
    (∀ e ∈ f.inputs, e.index < bound) ∧ ∀ e ∈ f.outputs, e.index < bound

theorem owned_declare {inputs outputs : List MatrixId} {options : FunctionOptions}
    (hf : declare g inputs outputs options = .ok f) : f.Owned g := by
  rw [declare] at hf
  split at hf
  · contradiction
  · rename_i hknown
    obtain rfl := Except.ok.inj hf
    have hlt : ∀ x ∈ (inputs ++ outputs).map MatrixId.index, x < g.size := by
      intro x hx
      obtain ⟨e, he, rfl⟩ := List.mem_map.mp hx
      obtain ⟨n, hn⟩ := MatrixTape.known_of_unknown? hknown e he
      exact MatrixGraph.index_lt_of_node? hn
    have hle : ∀ e ∈ inputs ++ outputs, e.index
        < ((inputs ++ outputs).map MatrixId.index).foldl max 0 + 1 := fun e he =>
      Nat.lt_succ_of_le (le_foldl_max.2 _ (List.mem_map_of_mem he))
    by_cases hempty : inputs ++ outputs = []
    · obtain ⟨rfl, rfl⟩ := List.append_eq_nil_iff.mp hempty
      exact ⟨0, .inl rfl, Nat.zero_le _, by simp, by simp⟩
    · obtain ⟨e, he⟩ := List.exists_mem_of_ne_nil _ hempty
      have hpos : 0 < g.size :=
        Nat.lt_of_le_of_lt (Nat.zero_le _) (hlt e.index (List.mem_map_of_mem he))
      refine ⟨_, .inr rfl, foldl_max_lt hpos hlt, fun d hd => ?_, fun d hd => ?_⟩
      · exact hle d (List.mem_append_left _ hd)
      · exact hle d (List.mem_append_right _ hd)

/-- What is known of a function that was made in a graph. -/
structure Made (f : MatrixFunction) (g : MatrixGraph) (inputs outputs : List MatrixId) : Prop where
  inputs_eq : f.inputs = inputs
  outputs_eq : f.outputs = outputs
  owner : f.owner.graph = g.lineage.id
  owned : f.Owned g
  ready : f.Ready g
  compiled : ∃ tape, f.tape? = some tape ∧ MatrixTape.Compiled g inputs outputs tape

/-- **Functions are ready in the graph that they are made in.** -/
theorem made_of_make {inputs outputs : List MatrixId} {options : FunctionOptions}
    (hf : make g inputs outputs options = .ok f) : f.Made g inputs outputs := by
  rw [make] at hf
  cases hdeclare : declare g inputs outputs options with
  | error e => simp [hdeclare, bind, Except.bind] at hf
  | ok declared =>
    simp only [hdeclare, bind, Except.bind] at hf
    have hready := ready_init (ready_declare hdeclare) hf
    have howned := owned_declare hdeclare
    rw [declare] at hdeclare
    split at hdeclare
    · contradiction
    · obtain rfl := Except.ok.inj hdeclare
      rcases init_eq_ok hf with ⟨-, tape, htape⟩ | ⟨tape, hcompile, rfl⟩
      · contradiction
      · exact ⟨rfl, rfl, rfl, howned, hready, tape, rfl, MatrixTape.compiled_of_compile hcompile⟩

theorem checkInputs_eq {seen inputs : List MatrixId} (i : Nat)
    (hsymbols : ∀ e ∈ inputs, g.isSymbol e = true) (hnodup : inputs.Nodup)
    (hseen : ∀ e ∈ inputs, e ∉ seen) : MatrixTape.checkInputs g seen i inputs = .ok () := by
  induction inputs generalizing seen i with
  | nil => rfl
  | cons e rest ih =>
    obtain ⟨he, hrest⟩ := List.forall_mem_cons.mp hsymbols
    obtain ⟨hfirst, hnodup⟩ := List.nodup_cons.mp hnodup
    rw [MatrixGraph.isSymbol] at he
    rw [MatrixTape.checkInputs]
    cases hn : g.node? e with
    | none => simp [hn] at he
    | some n =>
      rw [hn, Option.any_some] at he
      dsimp only
      rw [if_neg (by simp [he]), if_neg (by simpa using hseen e (by simp))]
      refine ih (i + 1) hrest hnodup fun d hd hmem => ?_
      rcases List.mem_cons.mp hmem with rfl | hmem
      · exact hfirst hd
      · exact hseen d (List.mem_cons_of_mem e hd) hmem

theorem unknown?_eq_none {es : List MatrixId} (hes : ∀ e ∈ es, ∃ n, g.node? e = some n) :
    g.unknown? es = none := by
  refine List.find?_eq_none.mpr fun e he => ?_
  obtain ⟨n, hn⟩ := hes e he
  simp [hn]

/-- **Functions can be made** of different symbols and of expressions that are there. -/
theorem make_eq_ok {inputs outputs : List MatrixId} (options : FunctionOptions)
    (hsymbols : ∀ e ∈ inputs, g.isSymbol e = true) (hnodup : inputs.Nodup)
    (houtputs : ∀ e ∈ outputs, ∃ n, g.node? e = some n) :
    ∃ f, make g inputs outputs options = .ok f := by
  have hinputs : ∀ e ∈ inputs, ∃ n, g.node? e = some n := by
    intro e he
    have he := hsymbols e he
    rw [MatrixGraph.isSymbol] at he
    cases hn : g.node? e with
    | none => simp [hn] at he
    | some n => exact ⟨n, rfl⟩
  have hhandles : g.unknown? (inputs ++ outputs) = none :=
    unknown?_eq_none (List.forall_mem_append.mpr ⟨hinputs, houtputs⟩)
  rw [make, declare, hhandles]
  simp only [bind, Except.bind, pure, Except.pure, init, checkGraph, livesIn,
    Lineage.sharesOwner_self, if_true, MatrixTape.compile,
    checkInputs_eq 0 hsymbols hnodup fun _ _ => List.not_mem_nil, unknown?_eq_none houtputs]
  exact ⟨_, rfl⟩

theorem Ready.pattern?_input (hf : f.Ready g) {e : MatrixId} (he : f.inputs[i]? = some e) :
    g.pattern? e = some (f.inPattern i) := by
  have hget : (f.inputs.map g.pattern?)[i]? = some (g.pattern? e) := by rw [List.getElem?_map, he]; rfl
  rw [hf.inPatterns, List.getElem?_map] at hget
  obtain ⟨p, hp, hpe⟩ := Option.map_eq_some_iff.mp hget
  rw [← hpe, inPattern, List.getD_eq_getElem?_getD, hp]
  rfl

theorem Ready.pattern?_output (hf : f.Ready g) {e : MatrixId} (he : f.outputs[o]? = some e) :
    g.pattern? e = some (f.outPattern o) := by
  have hget : (f.outputs.map g.pattern?)[o]? = some (g.pattern? e) := by
    rw [List.getElem?_map, he]; rfl
  rw [hf.outPatterns, List.getElem?_map] at hget
  obtain ⟨p, hp, hpe⟩ := Option.map_eq_some_iff.mp hget
  rw [← hpe, outPattern, List.getD_eq_getElem?_getD, hp]
  rfl

theorem Ready.patterned (hf : f.Ready g) {tape : MatrixTape} (ht : f.tape = .ok tape) :
    MatrixTape.Patterned g tape := by
  rw [MatrixFunction.tape] at ht
  split at ht
  · rename_i t htape
    obtain rfl := Except.ok.inj ht
    exact (hf.resides _ htape).patterned
  · contradiction

/-! ### Dependencies -/

theorem length_dependencySeeds (counts : List Nat) (i : Nat) :
    (ScalarTape.dependencySeeds counts i).map List.length = counts := by
  rw [ScalarTape.dependencySeeds, List.map_map]
  refine (List.map_congr_left fun entry _ => ?_).trans (List.zipIdx_map_fst 0 counts)
  show ((List.range entry.1).map _).length = entry.1
  rw [List.length_map, List.length_range]

/-- Dependencies have a row for each nonzero of the output and a column for each nonzero of the
input. -/
theorem shape_dependencyPattern (hf : f.Ready g) (hg : g.WellTyped)
    (hp : f.dependencyPattern i o = .ok p) :
    i < f.inCount ∧ o < f.outCount ∧ p.nrows = (f.outPattern o).nnz ∧
      p.ncols = (f.inPattern i).nnz := by
  rw [dependencyPattern, checkInput, checkOutput, tape] at hp
  split at hp
  · rename_i hi
    split at hp
    · rename_i ho
      split at hp
      · rename_i tape htape
        obtain rfl := Except.ok.inj hp
        refine ⟨hi, ho, ?_, by rw [ScalarTape.dependencyPattern, Pattern.ncols, Pattern.tabulate,
          List.length_map, List.length_range]⟩
        have hget : f.outputs[o]? = some f.outputs[o] := List.getElem?_eq_getElem ho
        have hseeds : (ScalarTape.dependencySeeds f.inSizes i).map List.length
            = f.inPatterns.map Pattern.nnz := length_dependencySeeds _ i
        have hlength : (g.evaluate dependencyAlgebra (MatrixTape.supply f.inputs
            (ScalarTape.dependencySeeds f.inSizes i)) f.outputs[o]).length = (f.outPattern o).nnz :=
          hg.length_evaluate (fun e values q hvalues hq =>
            MatrixTape.length_supply hf.inPatterns hseeds hvalues hq) (hf.pattern?_output hget)
        show (tape.dependencies f.inSizes f.outCount i o).length = _
        rw [MatrixTape.dependencies, outCount, (hf.resides tape htape).replay_eq,
          List.getD_eq_getElem?_getD, List.getElem?_map, hget]
        exact hlength
      · contradiction
    · contradiction
  · contradiction

theorem tape_eq {tape : MatrixTape} (htape : f.tape? = some tape) : f.tape = .ok tape := by
  rw [MatrixFunction.tape, htape]

theorem exists_dependencyPattern {tape : MatrixTape} (htape : f.tape? = some tape) (hi : i < f.inCount)
    (ho : o < f.outCount) : ∃ p, f.dependencyPattern i o = .ok p := by
  rw [dependencyPattern, checkInput, if_pos hi, checkOutput, if_pos ho, tape_eq htape]
  exact ⟨_, rfl⟩

/-! ### Derivatives -/

theorem keeps_orZero {t : Option MatrixId} (ht : ∀ d, t = some d → g.pattern? d = some p) :
    Keeps (orZero p t) g (On p) := by
  cases t with
  | none => exact keeps_fill p 0.0
  | some d => exact keeps_pure (ht d rfl)

theorem getD_seedAt {count which : Nat} (hwhich : which < count) (s : MatrixId) (i' : Nat) :
    (seedAt count which s).getD i' none = if i' = which then some s else none := by
  rw [seedAt, List.getD_eq_getElem?_getD, List.getElem?_set, List.length_replicate]
  by_cases hi : which = i'
  · rw [if_pos hi, if_pos (hi ▸ hwhich), if_pos hi.symm]
    rfl
  · rw [if_neg hi, if_neg fun h => hi h.symm, List.getElem?_replicate]
    split <;> rfl

/-- Derivatives that are there are on one pattern. -/
def AllOn (count : Nat) (p : Pattern) (ts : List (Option MatrixId)) (g : MatrixGraph) : Prop :=
  ts.length = count ∧ ∀ t ∈ ts, ∀ d, t = some d → g.pattern? d = some p

theorem allOn_of_allTyped {directions : List Sensitivities} {es : List MatrixId} {k count : Nat}
    {e : MatrixId} (hds : MatrixTape.AllTyped count directions g) (he : es[k]? = some e)
    (hp : g.pattern? e = some p) :
    AllOn count p ((directions.map fun known => es.map fun e => known.of? e).map (·.getD k none))
      g := by
  refine ⟨by rw [List.length_map, List.length_map, hds.1], fun t ht d hd => ?_⟩
  obtain ⟨row, hrow, rfl⟩ := List.mem_map.mp ht
  obtain ⟨known, hknown, rfl⟩ := List.mem_map.mp hrow
  rw [List.getD_eq_getElem?_getD, List.getElem?_map, he] at hd
  exact (hds.2 known hknown).on hd hp

theorem keeps_forwardColumns (hf : f.Ready g) (ho : o < f.outCount) (i : Nat)
    (seeds : List MatrixId) :
    Keeps (f.forwardColumns i o seeds) g (AllOn seeds.length (f.outPattern o)) := by
  refine keeps_ofExcept_bind fun tape ht => ?_
  refine (MatrixTape.keeps_forward (hf.patterned ht) f.outputs _).bind fun moved h hgh hmoved => ?_
  obtain ⟨directions, hds, rfl⟩ := hmoved
  rw [List.length_map] at hds
  have hget : f.outputs[o]? = some f.outputs[o] := List.getElem?_eq_getElem ho
  exact keeps_pure (allOn_of_allTyped hds hget ((hf.grow hgh).pattern?_output hget))

theorem keeps_reverseRows (hf : f.Ready g) (hi : i < f.inCount) (o : Nat) (seeds : List MatrixId) :
    Keeps (f.reverseRows i o seeds) g (AllOn seeds.length (f.inPattern i)) := by
  refine keeps_ofExcept_bind fun tape ht => ?_
  refine (MatrixTape.keeps_reverse (hf.patterned ht) f.inputs _).bind fun moved h hgh hmoved => ?_
  obtain ⟨directions, hds, rfl⟩ := hmoved
  rw [List.length_map] at hds
  have hget : f.inputs[i]? = some f.inputs[i] := List.getElem?_eq_getElem hi
  exact keeps_pure (allOn_of_allTyped hds hget ((hf.grow hgh).pattern?_input hget))

theorem keeps_orZeros {ts : List (Option MatrixId)} {count : Nat} (hts : AllOn count p ts g) :
    Keeps (ts.mapM (orZero p)) g fun ds h =>
      ds.length = count ∧ ∀ d ∈ ds, h.pattern? d = some p := by
  refine (Keeps.mapM (S := fun (_ : Option MatrixId) => On p)
    (fun _ _ _ _ hgh hd => On.grow hd hgh) fun t ht h hgh => ?_).imp fun ds h _ hds => ?_
  · exact keeps_orZero fun d hd => hgh.pattern? (hts.2 t ht d hd)
  · exact ⟨hds.length_eq.symm.trans hts.1, forall_of_forall₂ hds⟩

theorem keeps_groupSeeds (p : Pattern) (groups : List (List Nat)) :
    Keeps (groups.mapM (groupSeed p)) g fun seeds _ => seeds.length = groups.length :=
  (Keeps.mapM (S := fun _ => Something) (fun _ _ _ _ _ _ => trivial)
    fun _ _ _ _ => (keeps_constant _).something).imp fun _ _ _ hseeds => hseeds.length_eq.symm

/-- The pattern that the derivatives of a plan are on. -/
def planPattern (f : MatrixFunction) (plan : JacobianPlan) (i o : Nat) : Pattern :=
  match plan.direction with
  | .forward => f.outPattern o
  | .reverse => f.inPattern i

theorem keeps_sweepResults (hf : f.Ready g) (hi : i < f.inCount) (ho : o < f.outCount)
    (plan : JacobianPlan) :
    Keeps (f.sweepResults plan i o) g fun ds h =>
      ds.length = plan.sweeps.length ∧
        ∀ d ∈ ds, h.pattern? d = some (f.planPattern plan i o) := by
  obtain ⟨direction, sweeps, lookup⟩ := plan
  cases direction with
  | forward =>
    refine (keeps_groupSeeds _ sweeps).bind fun seeds h hgh hseeds => ?_
    refine (keeps_forwardColumns (hf.grow hgh) ho i seeds).bind fun columns k _ hcolumns => ?_
    exact hseeds ▸ keeps_orZeros hcolumns
  | reverse =>
    refine (keeps_groupSeeds _ sweeps).bind fun seeds h hgh hseeds => ?_
    refine (keeps_reverseRows (hf.grow hgh) hi o seeds).bind fun rows k _ hrows => ?_
    exact hseeds ▸ keeps_orZeros hrows

/-- What a plan looks up is there, whatever the values are. -/
theorem lookup_make (p : Pattern) (options : FunctionOptions) (symmetric : Bool) :
    (JacobianPlan.make p options symmetric).lookup.length = p.nnz ∧
      ∀ place ∈ (JacobianPlan.make p options symmetric).lookup,
        place.1 < (JacobianPlan.make p options symmetric).sweeps.length ∧
          place.2 < (JacobianPlan.make p options symmetric).components p := by
  have hshows := @JacobianPlan.shows_make Nat _ p (fun _ _ => 0) options symmetric
    (fun _ _ _ => rfl) fun _ _ _ _ => rfl
  exact ⟨hshows.length_eq.symm, forall_of_forall₂ (hshows.imp fun _ _ h => ⟨h.1, h.2.1⟩)⟩

theorem request_eq_ok (h : f.request g i o = .ok ()) :
    i < f.inCount ∧ o < f.outCount ∧ f.livesIn g = true := by
  rw [request, checkInput, checkOutput, checkGraph] at h
  split at h
  · rename_i hi
    split at h
    · rename_i ho
      refine ⟨hi, ho, ?_⟩
      by_contra hlives
      simp [hlives, bind, Except.bind] at h
    · contradiction
  · contradiction

/-- What a plan looks up can be gathered: there is an entry for each nonzero of the Jacobian, and it
is of a derivative that is there. -/
theorem reaches_lookup (hrows : p.nrows = (f.outPattern o).nnz)
    (hcols : p.ncols = (f.inPattern i).nnz) {symmetric : Bool} {derivatives : List MatrixId}
    (hcount : derivatives.length = (JacobianPlan.make p f.options symmetric).sweeps.length)
    (hon : ∀ d ∈ derivatives,
      g.pattern? d = some (f.planPattern (JacobianPlan.make p f.options symmetric) i o))
    (compact : Bool) :
    ((JacobianPlan.make p f.options symmetric).lookup.map some).length
        = (p.assembled (f.outPattern o) (f.inPattern i) compact).nnz ∧
      g.Reaches derivatives ((JacobianPlan.make p f.options symmetric).lookup.map some) := by
  obtain ⟨hlength, hplaces⟩ := lookup_make p f.options symmetric
  generalize JacobianPlan.make p f.options symmetric = plan at *
  refine ⟨by rw [List.length_map, Pattern.nnz_assembled hrows hcols, hlength], fun s k hsk => ?_⟩
  obtain ⟨place, hplace, heq⟩ := List.mem_map.mp hsk
  obtain rfl := Option.some.inj heq
  obtain ⟨hs, hk⟩ := hplaces _ hplace
  have hs : s < derivatives.length := hcount ▸ hs
  refine ⟨derivatives[s], _, List.getElem?_eq_getElem hs, hon _ (List.getElem_mem hs), ?_⟩
  rw [JacobianPlan.components] at hk
  rw [planPattern]
  split
  · rename_i hdirection
    rwa [hdirection, hrows] at hk
  · rename_i hdirection
    rwa [hdirection, hcols] at hk

theorem keeps_assemble (hrows : p.nrows = (f.outPattern o).nnz)
    (hcols : p.ncols = (f.inPattern i).nnz) {symmetric : Bool} {derivatives : List MatrixId}
    (hcount : derivatives.length = (JacobianPlan.make p f.options symmetric).sweeps.length)
    (hon : ∀ d ∈ derivatives,
      g.pattern? d = some (f.planPattern (JacobianPlan.make p f.options symmetric) i o))
    (compact : Bool) :
    Keeps (gather derivatives ((JacobianPlan.make p f.options symmetric).lookup.map some)
      (p.assembled (f.outPattern o) (f.inPattern i) compact)) g
      (On (p.assembled (f.outPattern o) (f.inPattern i) compact)) :=
  have hreach := reaches_lookup hrows hcols hcount hon compact
  keeps_gather hreach.1 hreach.2

/-- **Jacobians.** -/
theorem keeps_jac (hf : f.livesIn g = true → f.Ready g) (i o : Nat) (compact symmetric : Bool) :
    Keeps (f.jac i o compact symmetric) g Something := by
  refine keeps_of_wellTyped fun hg => keeps_get_bind (keeps_ofExcept_bind fun _ hrequest => ?_)
  have hf := hf (request_eq_ok hrequest).2.2
  refine keeps_ofExcept_bind fun p hp => ?_
  obtain ⟨hi, ho, hrows, hcols⟩ := shape_dependencyPattern hf hg hp
  refine (keeps_sweepResults hf hi ho _).bind fun derivatives h _ hderivatives => ?_
  refine keeps_ofExcept_bind fun assembled hassembled => ?_
  obtain rfl := Pattern.eq_assembled hassembled
  exact (keeps_assemble hrows hcols hderivatives.1 hderivatives.2 compact).something

theorem on_headD {ts : List (Option MatrixId)} {count : Nat} (hts : AllOn count p ts g) :
    ∀ d, ts.headD none = some d → g.pattern? d = some p := by
  intro d hd
  cases ts with
  | nil => contradiction
  | cons t rest => exact hts.2 t (by simp) d hd

/-- **Gradients**, on the pattern of the input. -/
theorem keeps_grad (hf : f.livesIn g = true → f.Ready g) (i o : Nat) :
    Keeps (f.grad i o) g (On (f.inPattern i)) := by
  refine keeps_get_bind (keeps_ofExcept_bind fun _ hrequest => ?_)
  obtain ⟨hi, ho, hlives⟩ := request_eq_ok hrequest
  dsimp only
  split
  · exact Keeps.bind (Q := fun _ _ => False) (keeps_throw _) fun _ _ _ h => h.elim
  · refine (keeps_fill _ 1.0).bind fun seed h hgh _ => ?_
    refine (keeps_reverseRows ((hf hlives).grow hgh) hi o [seed]).bind fun rows k _ hrows => ?_
    exact keeps_orZero (on_headD hrows)

/-- **Tangents**, on the pattern of the output. -/
theorem keeps_tang (hf : f.livesIn g = true → f.Ready g) (i o : Nat) :
    Keeps (f.tang i o) g (On (f.outPattern o)) := by
  refine keeps_get_bind (keeps_ofExcept_bind fun _ hrequest => ?_)
  obtain ⟨hi, ho, hlives⟩ := request_eq_ok hrequest
  dsimp only
  split
  · exact Keeps.bind (Q := fun _ _ => False) (keeps_throw _) fun _ _ _ h => h.elim
  · refine (keeps_fill _ 1.0).bind fun seed h hgh _ => ?_
    refine (keeps_forwardColumns ((hf hlives).grow hgh) ho i [seed]).bind fun columns k _ hcolumns => ?_
    exact keeps_orZero (on_headD hcolumns)

theorem keeps_withOutput (f : MatrixFunction) (e : MatrixId) (front : String) :
    Keeps (f.withOutput e front) g fun f' h => f'.Made h f.inputs [e] :=
  keeps_get_bind (keeps_ofExcept fun _ hmake => made_of_make hmake)

/-- **Hessians.** -/
theorem keeps_hess (hf : f.livesIn g = true → f.Ready g) (i o : Nat) :
    Keeps (f.hess i o) g Something := by
  refine (keeps_grad hf i o).bind fun e h _ _ => ?_
  refine (keeps_withOutput f e "grad_").bind fun gradient k _ hmade => ?_
  exact keeps_jac (fun _ => hmade.ready) i 0 false true

/-- **Jacobian functions**, which are made in the graph that is left. -/
theorem keeps_jacobian (hf : f.livesIn g = true → f.Ready g) (i o : Nat)
    (compact symmetric : Bool) :
    Keeps (f.jacobian i o compact symmetric) g fun f' h => ∃ e, f'.Made h f.inputs [e] :=
  (keeps_jac hf i o compact symmetric).bind fun e _ _ _ =>
    (keeps_withOutput f e "jac_").imp fun _ _ _ hmade => ⟨e, hmade⟩

end MatrixFunction

end Fluxion
