import Fluxion.Proofs.History.Matrix
import Fluxion.Proofs.History.Scalar
import Fluxion.Proofs.Schedule.Locality

/-!
# Compilation in graphs that agree

Two graphs may agree in their first nodes, in what the nodes are and in the names of the symbols among
them, and differ in all that comes later. A function whose expressions are among the nodes that the
graphs agree in compiles to the same tape in both: the same instructions and work slots, and the same
free symbols under the same names. If it does not compile, both give the same reason.

Names are kept apart from nodes, in the order of the symbols. That a symbol that is there keeps its name
when the graph grows is so since every symbol has one.

## Main definitions

* `ScalarGraph.namedArena`, `MatrixGraph.namedArena` — graphs by their nodes and names

## Main results

* `ScalarTape.compile_congr`, `MatrixTape.compile_congr` — **tapes depend on the nodes that the
  expressions are built from, and on their names**
-/

namespace Fluxion

/-! ### Scalar graphs -/

namespace ScalarGraph

variable {g h : ScalarGraph} {e : ScalarId} {bound : Nat}

/-- Scalar graphs by their nodes and the names of symbols. -/
def namedArena : Arena ScalarGraph (Option ScalarNode × Option String) :=
  ⟨(·.lineage), (·.size), fun g i => (g.node? ⟨i⟩, g.name? ⟨i⟩)⟩

/-- Every symbol has a name. -/
def Named (g : ScalarGraph) : Prop :=
  ∀ e serial, g.node? e = some (.symbol serial) → ∃ name, g.names[serial]? = some name

theorem Named.name?_eq (hg : g.Named) (hgrow : g.Grows h) (he : g.Has e) :
    g.name? e = h.name? e := by
  obtain ⟨n, hn⟩ := he
  rw [name?, name?, hn, hgrow.node? hn]
  cases n with
  | symbol serial =>
    obtain ⟨name, hname⟩ := hg e serial hn
    exact hname.trans (hgrow.names hname).symm
  | literal | unary | binary => rfl

/-- Graphs grow with their names, if every symbol has one. -/
theorem Named.grows (hg : g.Named) (hgrow : g.Grows h) : namedArena.Grows g h :=
  ⟨hgrow.lineage, hgrow.size_le, fun i hi =>
    Prod.ext (hgrow.agreeBelow ⟨i⟩ hi) (hg.name?_eq hgrow (has_of_index_lt (e := ⟨i⟩) hi))⟩

section

variable (hagree : namedArena.AgreeBelow g h bound)

include hagree

theorem node?_congr (he : e.index < bound) : g.node? e = h.node? e :=
  congrArg Prod.fst (hagree e.index he)

theorem name?_congr (he : e.index < bound) : g.name? e = h.name? e :=
  congrArg Prod.snd (hagree e.index he)

theorem isSymbol_congr (he : e.index < bound) : g.isSymbol e = h.isSymbol e := by
  rw [isSymbol, isSymbol, node?_congr hagree he]

theorem operandNumbers_congr {n : Nat} (hn : n < bound) : g.operandNumbers n = h.operandNumbers n := by
  rw [operandNumbers, operandNumbers, operands, operands, node?_congr hagree hn]

theorem unknown?_congr {es : List ScalarId} (hes : ∀ e ∈ es, e.index < bound) :
    g.unknown? es = h.unknown? es :=
  List.find?_congr fun e he => by rw [node?_congr hagree (hes e he)]

end

end ScalarGraph

namespace Schedule

/-- The slotted steps of a program are about nodes below any bound that the roots stay below. -/
theorem node_lt_of_mem_steps {operands : Nat → List Nat} {bound size : Nat} {roots : List Nat}
    (hless : ∀ n, ∀ a ∈ operands n, a < n) (hsize : bound ≤ size) (hroots : ∀ r ∈ roots, r < bound) :
    ∀ s ∈ (make operands size roots).steps, s.step.node < bound := by
  intro s hs
  have hordered := ordered_stepsFor hless fun r hr => Nat.lt_of_lt_of_le (hroots r hr) hsize
  refine (ordered_stepsFor_of_le hless hsize hroots).node_lt (by simp) s.step ?_
  rw [← steps_make hordered]
  exact List.mem_map_of_mem hs

end Schedule

namespace ScalarTape

variable {g h : ScalarGraph} {bound : Nat} {inputs outputs : List (SparseMatrix ScalarId)}

theorem inputPlace?_congr {ps : List Place} {e : ScalarId} (hg : e.index < g.size)
    (hh : e.index < h.size) :
    inputPlace? (inputPlaces g ps) e = inputPlace? (inputPlaces h ps) e := by
  rw [inputPlace?, inputPlace?, inputPlaces, inputPlaces, Array.getD_eq_getD_getElem?,
    Array.getD_eq_getD_getElem?, getElem?_buckets, getElem?_buckets, if_pos hg, if_pos hh]

section

variable (hagree : ScalarGraph.namedArena.AgreeBelow g h bound) (hg : bound ≤ g.size)
  (hh : bound ≤ h.size)

include hagree

theorem checkInputs_congr {ps : List Place} (hps : ∀ p ∈ ps, p.e.index < bound) (seen : NumberSet) :
    checkInputs g seen ps = checkInputs h seen ps := by
  induction ps generalizing seen with
  | nil => rfl
  | cons p rest ih =>
    obtain ⟨hp, hrest⟩ := List.forall_mem_cons.mp hps
    simp only [checkInputs, ScalarGraph.node?_congr hagree hp, ih hrest]

include hg hh

theorem instr_congr {ps : List Place} {outs : Array Place} {free : List ScalarId} {s : SlottedStep}
    (hs : s.step.node < bound) :
    instr g (inputPlaces g ps) outs free s = instr h (inputPlaces h ps) outs free s := by
  rw [instr, instr]
  cases hstep : s.step with
  | store root n => rfl
  | compute n =>
    have hn : n < bound := by simpa [hstep, Step.node] using hs
    dsimp only
    rw [ScalarGraph.node?_congr hagree (e := ⟨n⟩) hn, inputPlace?_congr (g := g) (h := h) (e := ⟨n⟩)
      (Nat.lt_of_lt_of_le hn hg) (Nat.lt_of_lt_of_le hn hh)]

/-- **Tapes depend on the nodes that the expressions are built from, and on their names.** -/
theorem compile_congr (hin : ∀ p ∈ places inputs, p.e.index < bound)
    (hout : ∀ p ∈ places outputs, p.e.index < bound) :
    compile g inputs outputs = compile h inputs outputs := by
  have hroots : ∀ r ∈ (places outputs).map (·.e.index), r < bound := List.forall_mem_map.mpr hout
  have hschedule := Schedule.make_congr (operandNumbers_lt g)
    (fun n hn => ScalarGraph.operandNumbers_congr hagree hn) hg hh hroots
  have hcomputed : ∀ e ∈ (Schedule.make g.operandNumbers g.size
      ((places outputs).map (·.e.index))).computed.map ScalarId.mk, e.index < bound :=
    List.forall_mem_map.mpr fun n hn =>
      Schedule.lt_of_mem_computed (operandNumbers_lt g) hg hroots hn
  have hfree := List.filter_congr (p := fun e => g.isSymbol e &&
      (inputPlace? (inputPlaces g (places inputs)) e).isNone)
    (q := fun e => h.isSymbol e && (inputPlace? (inputPlaces h (places inputs)) e).isNone)
    fun e he => by
      have hlt := hcomputed e he
      rw [ScalarGraph.isSymbol_congr hagree hlt, inputPlace?_congr (g := g) (h := h)
        (Nat.lt_of_lt_of_le hlt hg) (Nat.lt_of_lt_of_le hlt hh)]
  have hunknown : g.unknown? ((places outputs).map Place.e)
      = h.unknown? ((places outputs).map Place.e) :=
    ScalarGraph.unknown?_congr hagree (List.forall_mem_map.mpr hout)
  have hinstrs : ∀ free, (Schedule.make g.operandNumbers g.size
      ((places outputs).map (·.e.index))).steps.map
        (instr g (inputPlaces g (places inputs)) (places outputs).toArray free)
      = (Schedule.make g.operandNumbers g.size ((places outputs).map (·.e.index))).steps.map
        (instr h (inputPlaces h (places inputs)) (places outputs).toArray free) := fun free =>
    List.map_congr_left fun s hs => instr_congr hagree hg hh
      (Schedule.node_lt_of_mem_steps (operandNumbers_lt g) hg hroots s hs)
  have hnames : ∀ P : ScalarId → Bool, ((Schedule.make g.operandNumbers g.size
      ((places outputs).map (·.e.index))).computed.map ScalarId.mk |>.filter P).map
        (fun e => (g.name? e).getD "?")
      = ((Schedule.make g.operandNumbers g.size
      ((places outputs).map (·.e.index))).computed.map ScalarId.mk |>.filter P).map
        (fun e => (h.name? e).getD "?") := fun P =>
    List.map_congr_left fun e he => by
      rw [ScalarGraph.name?_congr hagree (hcomputed e (List.mem_of_mem_filter he))]
  rw [compile, compile, checkInputs_congr hagree hin, hunknown]
  dsimp only
  rw [← hschedule, ← hfree, hinstrs, hnames]

end

end ScalarTape

/-! ### Matrix graphs -/

namespace MatrixGraph

variable {g h : MatrixGraph} {e : MatrixId} {bound : Nat}

/-- Matrix graphs by their nodes, with the patterns of nodes and the names of symbols. -/
def namedArena : Arena MatrixGraph (Option MatrixNode × Option Pattern × Option String) :=
  ⟨(·.lineage), (·.size), fun g i => (g.node? ⟨i⟩, g.pattern? ⟨i⟩, g.name? ⟨i⟩)⟩

theorem WellTyped.name?_eq (hg : g.WellTyped) (hgrow : g.Grows h) {n : MatrixNode}
    (hn : g.node? e = some n) : g.name? e = h.name? e := by
  rw [name?, name?, hn, hgrow.node? hn]
  cases n with
  | symbol serial p =>
    obtain ⟨q, -, htyped⟩ := hg.exists_typed hn
    cases htyped with
    | symbol hserial =>
      have hname := Array.getElem?_eq_getElem hserial
      exact hname.trans (hgrow.names hname).symm
  | constant | unary | binary | product | gather | scatter | call | lift => rfl

/-- Well-typed graphs grow with their names. -/
theorem WellTyped.grows (hg : g.WellTyped) (hgrow : g.Grows h) : namedArena.Grows g h := by
  refine ⟨hgrow.lineage, hgrow.size_le, fun i hi => ?_⟩
  have hentry : g.entries.items[i]? = h.entries.items[i]? := hgrow.arena.agreeBelow i hi
  have hnode : g.node? ⟨i⟩ = h.node? ⟨i⟩ := congrArg (Option.map MatrixEntry.node) hentry
  have hpattern : g.pattern? ⟨i⟩ = h.pattern? ⟨i⟩ := congrArg (Option.map MatrixEntry.pattern) hentry
  have hname : g.name? ⟨i⟩ = h.name? ⟨i⟩ := by
    have hlt : i < g.entries.items.size := hi
    exact hg.name?_eq hgrow (by rw [node?, Array.getElem?_eq_getElem hlt]; rfl)
  exact Prod.ext hnode (Prod.ext hpattern hname)

section

variable (hagree : namedArena.AgreeBelow g h bound)

include hagree

theorem node?_congr (he : e.index < bound) : g.node? e = h.node? e :=
  congrArg Prod.fst (hagree e.index he)

theorem pattern?_congr (he : e.index < bound) : g.pattern? e = h.pattern? e :=
  congrArg (·.2.1) (hagree e.index he)

theorem name?_congr (he : e.index < bound) : g.name? e = h.name? e :=
  congrArg (·.2.2) (hagree e.index he)

theorem isSymbol_congr (he : e.index < bound) : g.isSymbol e = h.isSymbol e := by
  rw [isSymbol, isSymbol, node?_congr hagree he]

theorem valueOperandNumbers_congr {n : Nat} (hn : n < bound) :
    g.valueOperandNumbers n = h.valueOperandNumbers n := by
  rw [valueOperandNumbers, valueOperandNumbers, valueOperands, valueOperands, node?_congr hagree hn]

theorem unknown?_congr {es : List MatrixId} (hes : ∀ e ∈ es, e.index < bound) :
    g.unknown? es = h.unknown? es :=
  List.find?_congr fun e he => by rw [node?_congr hagree (hes e he)]

end

end MatrixGraph

namespace MatrixTape

variable {g h : MatrixGraph} {bound : Nat} {inputs outputs : List MatrixId}
  (hagree : MatrixGraph.namedArena.AgreeBelow g h bound) (hg : bound ≤ g.size) (hh : bound ≤ h.size)

include hagree

theorem checkInputs_congr (hin : ∀ e ∈ inputs, e.index < bound) (seen : List MatrixId) (i : Nat) :
    checkInputs g seen i inputs = checkInputs h seen i inputs := by
  induction inputs generalizing seen i with
  | nil => rfl
  | cons e rest ih =>
    obtain ⟨he, hrest⟩ := List.forall_mem_cons.mp hin
    simp only [checkInputs, MatrixGraph.node?_congr hagree he, ih hrest]

theorem patternIn_congr {e : MatrixId} (he : e.index < bound) : patternIn g e = patternIn h e := by
  rw [patternIn, patternIn, MatrixGraph.pattern?_congr hagree he]

theorem opOf_congr {free : List MatrixId} {e : MatrixId} (he : e.index < bound) :
    opOf g inputs free e = opOf h inputs free e := by
  rw [opOf, opOf, ← MatrixGraph.node?_congr hagree he]
  cases hn : g.node? e with
  | none => rfl
  | some n =>
    cases n with
    | product a b =>
      have hbefore := g.operands_before hn
      have ha := patternIn_congr hagree (Nat.lt_trans (hbefore a (by simp [MatrixNode.operands])) he)
      have hb := patternIn_congr hagree (Nat.lt_trans (hbefore b (by simp [MatrixNode.operands])) he)
      simp only [ha, hb]
    | symbol | constant | unary | binary | gather | scatter | call | lift => rfl

theorem instr_congr {free : List MatrixId} {s : SlottedStep} (hs : s.step.node < bound) :
    instr g inputs free s = instr h inputs free s := by
  rw [instr, instr]
  cases hstep : s.step with
  | store root n =>
    have hn : n < bound := by simpa [hstep, Step.node] using hs
    simp only [patternIn_congr hagree (e := ⟨n⟩) hn]
  | compute n =>
    have hn : n < bound := by simpa [hstep, Step.node] using hs
    simp only [opOf_congr hagree (e := ⟨n⟩) hn, patternIn_congr hagree (e := ⟨n⟩) hn]

include hg hh

/-- **Tapes depend on the nodes that the expressions are built from, and on their names.** -/
theorem compile_congr (hin : ∀ e ∈ inputs, e.index < bound) (hout : ∀ e ∈ outputs, e.index < bound) :
    compile g inputs outputs = compile h inputs outputs := by
  have hroots : ∀ r ∈ outputs.map MatrixId.index, r < bound := List.forall_mem_map.mpr hout
  have hschedule := Schedule.make_congr (valueOperandNumbers_lt g)
    (fun n hn => MatrixGraph.valueOperandNumbers_congr hagree hn) hg hh hroots
  have hcomputed : ∀ e ∈ (Schedule.make g.valueOperandNumbers g.size
      (outputs.map MatrixId.index)).computed.map MatrixId.mk, e.index < bound :=
    List.forall_mem_map.mpr fun n hn =>
      Schedule.lt_of_mem_computed (valueOperandNumbers_lt g) hg hroots hn
  have hfree := List.filter_congr (p := fun e => g.isSymbol e && !inputs.contains e)
    (q := fun e => h.isSymbol e && !inputs.contains e) fun e he => by
      rw [MatrixGraph.isSymbol_congr hagree (hcomputed e he)]
  have hinstrs : ∀ free, (Schedule.make g.valueOperandNumbers g.size
      (outputs.map MatrixId.index)).steps.map (instr g inputs free)
      = (Schedule.make g.valueOperandNumbers g.size (outputs.map MatrixId.index)).steps.map
        (instr h inputs free) := fun free =>
    List.map_congr_left fun s hs => instr_congr hagree
      (Schedule.node_lt_of_mem_steps (valueOperandNumbers_lt g) hg hroots s hs)
  have hnames : ∀ P : MatrixId → Bool, ((Schedule.make g.valueOperandNumbers g.size
      (outputs.map MatrixId.index)).computed.map MatrixId.mk |>.filter P).map
        (fun e => (g.name? e).getD "?")
      = ((Schedule.make g.valueOperandNumbers g.size
      (outputs.map MatrixId.index)).computed.map MatrixId.mk |>.filter P).map
        (fun e => (h.name? e).getD "?") := fun P =>
    List.map_congr_left fun e he => by
      rw [MatrixGraph.name?_congr hagree (hcomputed e (List.mem_of_mem_filter he))]
  rw [compile, compile, checkInputs_congr hagree hin, MatrixGraph.unknown?_congr hagree hout]
  dsimp only
  rw [← hschedule, ← hfree, hinstrs, hnames]

end MatrixTape

end Fluxion
