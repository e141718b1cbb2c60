import Fluxion.Proofs.Jacobian.Seeds

/-!
# Jacobians of scalar functions

The Jacobian that a scalar function returns has, in each place, an expression of the formal partial
derivative that belongs there. What the plan was does not matter: by columns or by rows, with groups
or without, and with symmetry if the partial derivatives are symmetric.

## Main definitions

* `Pattern.place` — where a nonzero stands among the rows or columns of a Jacobian
* `ScalarFunction.HoldsPartials` — a matrix holds the partial derivatives, in every exact reading

## Main results

* `ScalarFunction.dependencyPattern_eq` — derivatives outside the pattern are zero
* `ScalarFunction.yields_jac` — the entries of a Jacobian, as they are stored
* `ScalarHistory.holdsPartials_jac` — **Jacobians hold the formal partial derivatives**
-/

namespace Fluxion

open ScalarBuilder ScalarTape

/-! ### Places in a Jacobian -/

namespace Pattern

/-- The row or column of a Jacobian that belongs to nonzero `k` of an output or input. -/
def place (m : Pattern) (compact : Bool) (k : Nat) : Nat :=
  if compact then k else m.linearIndices.getD k 0

variable {p output input : Pattern} {compact : Bool}

theorem place_inj {m : Pattern} {k l : Nat} (hk : k < m.nnz) (hl : l < m.nnz)
    (h : m.place compact k = m.place compact l) : k = l := by
  cases compact with
  | true => exact h
  | false =>
    have hkl : m.linearIndices.getD k 0 = m.linearIndices.getD l 0 := h
    rcases Nat.lt_trichotomy k l with hlt | rfl | hlt
    · have := getD_linearIndices_lt_getD hlt hl
      omega
    · rfl
    · have := getD_linearIndices_lt_getD hlt hk
      omega

theorem positions_assembled_place (hrows : p.nrows = output.nnz) (hcols : p.ncols = input.nnz) :
    (p.assembled output input compact).positions
      = p.positions.map fun (k, j) => (output.place compact k, input.place compact j) := by
  cases compact with
  | true => exact (List.map_id _).symm
  | false => exact positions_assembled hrows.le hcols.le

/-- An entry of a Jacobian has the same number in both patterns. -/
theorem find?_assembled (hrows : p.nrows = output.nnz) (hcols : p.ncols = input.nnz) {k j : Nat}
    (hk : k < output.nnz) (hj : j < input.nnz) :
    (p.assembled output input compact).find? (output.place compact k) (input.place compact j)
      = p.find? k j := by
  have hpositions := @positions_assembled_place p output input compact hrows hcols
  rcases hn : p.find? k j with _ | n
  · rw [find?_eq_none_iff] at hn ⊢
    intro hmem
    rw [hpositions] at hmem
    obtain ⟨⟨k', j'⟩, hmem', heq⟩ := List.mem_map.mp hmem
    have hk' : k' < output.nnz := hrows ▸ row_lt_of_mem_positions hmem'
    have hj' : j' < input.nnz := hcols ▸ column_lt_of_mem_positions hmem'
    obtain rfl := place_inj hk' hk (congrArg Prod.fst heq)
    obtain rfl := place_inj hj' hj (congrArg Prod.snd heq)
    exact hn hmem'
  · rw [find?_eq_some_iff] at hn ⊢
    rw [hpositions, List.getElem?_map, hn]
    rfl

/-- Nothing is assembled in a row or column that belongs to no nonzero. -/
theorem find?_assembled_eq_none (hrows : p.nrows = output.nnz) (hcols : p.ncols = input.nnz)
    {r c : Nat} (hrc : (¬∃ k < output.nnz, output.place compact k = r) ∨
      (¬∃ j < input.nnz, input.place compact j = c)) :
    (p.assembled output input compact).find? r c = none := by
  rw [find?_eq_none_iff, positions_assembled_place hrows hcols]
  intro hmem
  obtain ⟨⟨k, j⟩, hkj, heq⟩ := List.mem_map.mp hmem
  obtain ⟨rfl, rfl⟩ := Prod.mk.injEq .. ▸ heq
  rcases hrc with hr | hc
  · exact hr ⟨k, hrows ▸ row_lt_of_mem_positions hkj, rfl⟩
  · exact hc ⟨j, hcols ▸ column_lt_of_mem_positions hkj, rfl⟩

theorem nnz_assembled (hrows : p.nrows = output.nnz) (hcols : p.ncols = input.nnz) :
    (p.assembled output input compact).nnz = p.nnz := by
  rw [nnz, positions_assembled_place hrows hcols, List.length_map, nnz]

theorem eq_assembled {q : Pattern} (h : p.assembledOf output input compact = .ok q) :
    q = p.assembled output input compact := by
  rw [assembledOf] at h
  split at h
  · exact (Except.ok.inj h).symm
  · contradiction

end Pattern

namespace ScalarFunction

variable {f : ScalarFunction} {g : ScalarGraph} {e : Expressions} {tape : ScalarTape} {i o : Nat}

theorem Ready.tape_eq (hr : f.Ready g e tape) : f.tape = .ok tape := by
  rw [ScalarFunction.tape, hr.stage]
  rfl

theorem Ready.request_eq (hr : f.Ready g e tape) (hi : i < f.inCount) (ho : o < f.outCount) :
    f.request g i o = .ok e := by
  rw [request, checkInput, if_pos hi, checkOutput, if_pos ho, checkGraph, if_pos hr.lives,
    expressions, hr.stage]
  rfl

/-! ### The pattern -/

/-- The dependency pattern is tabulated from the dependencies that the tape finds. -/
theorem dependencyPattern_eq_ok (hr : f.Ready g e tape) (hi : i < f.inCount) (ho : o < f.outCount) :
    f.dependencyPattern i o = .ok (ScalarTape.dependencyPattern
      (tape.dependencies (countsOf e.inputs) (countsOf e.outputs) i o) (f.inPattern i).nnz) := by
  rw [dependencyPattern, checkInput, if_pos hi, checkOutput, if_pos ho, hr.tape_eq,
    hr.holds.inSizes, hr.holds.outSizes]
  rfl

/-- **Derivatives outside the dependency pattern are zero.** It has a row for each value of the
output and a column for each value of the input. -/
theorem dependencyPattern_eq (hr : f.Ready g e tape) (hi : i < f.inCount) (ho : o < f.outCount) :
    ∃ p, f.dependencyPattern i o = .ok p ∧ p.nrows = (f.outPattern o).nnz ∧
      p.ncols = (f.inPattern i).nnz ∧
      ∀ {V : Type} [CommRing V] (I : Interpretation V) (ρ : ScalarId → V) (k j : Nat),
        (k, j) ∉ p.positions → e.partials g I ρ i o k j = 0 := by
  refine ⟨_, dependencyPattern_eq_ok hr hi ho, ?_, ?_, ?_⟩
  · rw [hr.holds.nnz_outPattern, ← hr.resides.length_dependencies i o]
    rfl
  · rw [ScalarTape.dependencyPattern, Pattern.ncols, Pattern.tabulate, List.length_map,
      List.length_range]
  · intro V _ I ρ k j hmem
    rw [Expressions.partials]
    split
    · rename_i hkj
      refine hr.resides.partialIn_eq_zero (valueAt_mem_places hkj.2) (valueAt_mem_places hkj.1) ?_
      rw [mem_positions_dependencyPattern, hr.resides.length_dependencies,
        hr.holds.nnz_inPattern] at hmem
      rw [← Bool.not_eq_true]
      exact fun hbit => hmem ⟨hkj.1, hkj.2, hbit⟩
    · rfl

/-! ### The entries -/

section Entries

variable {V : Type} [CommRing V] {I : Interpretation V} {ρ : ScalarId → V} {p : Pattern}

/-- The sweeps that a plan asks for. -/
def sweepsFor (f : ScalarFunction) (e : Expressions) (tape : ScalarTape) (i o : Nat)
    (plan : JacobianPlan) : ScalarBuilder (List (List ScalarId)) :=
  match plan.direction with
  | .forward => f.forwardColumns e tape i o plan.sweeps
  | .reverse => f.reverseRows e tape i o plan.sweeps

variable (I ρ) in
/-- What the sweeps of a plan show is read in their results. -/
theorem yields_sweepsFor (hr : f.Ready g e tape) (hrows : p.nrows = (f.outPattern o).nnz)
    (hcols : p.ncols = (f.inPattern i).nnz) (plan : JacobianPlan) :
    Yields (f.sweepsFor e tape i o plan) g fun derivatives h =>
      ∀ s < plan.sweeps.length, ∀ k < plan.components p,
        h.Reads I ρ ((derivatives.getD s []).getD k .zero)
          (plan.shown p (e.partials g I ρ i o) s k) := by
  have hget : ∀ {R : List ScalarId → List Nat → Prop} {xs : List (List ScalarId)}
      {ys : List (List Nat)}, List.Forall₂ R xs ys → ∀ s < ys.length,
      R (xs.getD s []) (ys.getD s []) := by
    intro R xs ys hxs s hs
    have hs' : s < xs.length := hxs.length_eq ▸ hs
    rw [List.getD_eq_getElem _ _ hs', List.getD_eq_getElem _ _ hs]
    exact hxs.get hs' hs
  rw [hr.holds.nnz_outPattern] at hrows
  rw [hr.holds.nnz_inPattern] at hcols
  obtain ⟨direction, sweeps, lookup⟩ := plan
  cases direction with
  | forward =>
    refine (yields_forwardColumns I ρ hr i o sweeps).imp fun columns h _ _ hcolumns s hs k hk => ?_
    refine (hget hcolumns s hs k (hrows ▸ hk)).congr fun _ => ?_
    rw [← hcols]
    rfl
  | reverse =>
    refine (yields_reverseRows I ρ hr i o sweeps).imp fun rows h _ _ hrowsRead s hs j hj => ?_
    refine (hget hrowsRead s hs j (hcols ▸ hj)).congr fun _ => ?_
    rw [← hrows]
    rfl

/-- What a plan looks up in the results of sweeps. -/
def lookUp (plan : JacobianPlan) (derivatives : List (List ScalarId)) : List ScalarId :=
  plan.lookup.map fun (sweep, k) => (Grid.ofBundle derivatives).read .zero sweep k

/-- A Jacobian of a function that is ready: sweeps, and what the plan looks up in them. -/
theorem Ready.jac_eq (hr : f.Ready g e tape) (hi : i < f.inCount) (ho : o < f.outCount)
    {p : Pattern} (hp : f.dependencyPattern i o = .ok p) (compact symmetric : Bool) :
    f.jac i o compact symmetric g
      = (f.sweepsFor e tape i o (.make p f.options symmetric) >>= fun derivatives => do
          let assembled ← .ofExcept (p.assembledOf (f.outPattern o) (f.inPattern i) compact)
          return .fitted assembled (lookUp (.make p f.options symmetric) derivatives) .zero) g := by
  rw [jac]
  refine (bind_of_ok (show (get : ScalarBuilder ScalarGraph) g = .ok g g from rfl)).trans ?_
  rw [hr.request_eq hi ho]
  refine (bind_of_ok (a := e) (h := g) rfl).trans ?_
  rw [hr.tape_eq]
  refine (bind_of_ok (a := tape) (h := g) rfl).trans ?_
  rw [hp]
  refine (bind_of_ok (a := p) (h := g) rfl).trans ?_
  generalize JacobianPlan.make p f.options symmetric = plan
  obtain ⟨direction, sweeps, lookup⟩ := plan
  cases direction <;> rfl

/-- The values of a matrix that hold the entries of `J` in the places of `p`. -/
def HoldsEntries (h : ScalarGraph) (I : Interpretation V) (ρ : ScalarId → V) (p : Pattern)
    (J : Nat → Nat → V) (values : List ScalarId) : Prop :=
  List.Forall₂ (fun position d => h.Reads I ρ d (J position.1 position.2)) p.positions values

/-- What is looked up holds the entries. -/
theorem holdsEntries_lookUp {plan : JacobianPlan} {J : Nat → Nat → V}
    {derivatives : List (List ScalarId)} {h : ScalarGraph}
    (hshows : List.Forall₂ (plan.Shows p J) p.positions plan.lookup)
    (hderivatives : ∀ s < plan.sweeps.length, ∀ k < plan.components p,
      h.Reads I ρ ((derivatives.getD s []).getD k .zero) (plan.shown p J s k)) :
    HoldsEntries h I ρ p J (lookUp plan derivatives) := by
  rw [HoldsEntries, lookUp, List.forall₂_map_right_iff]
  refine hshows.imp ?_
  rintro position ⟨s, k⟩ ⟨hs, hk, hshown⟩
  show h.Reads I ρ ((Grid.ofBundle derivatives).read .zero s k) _
  rw [Grid.read_ofBundle, ← hshown]
  exact hderivatives s hs k hk

/-- The entries of a Jacobian, as they are stored. -/
theorem yields_jac (hr : f.Ready g e tape) (hi : i < f.inCount) (ho : o < f.outCount)
    {compact symmetric : Bool} {q : Pattern} (hp : f.dependencyPattern i o = .ok p)
    (hrows : p.nrows = (f.outPattern o).nnz) (hcols : p.ncols = (f.inPattern i).nnz)
    (hq : p.assembledOf (f.outPattern o) (f.inPattern i) compact = .ok q)
    (hsupport : ∀ k j, (k, j) ∉ p.positions → e.partials g I ρ i o k j = 0)
    (hsymmetric : symmetric = true → p.nrows = p.ncols →
      ∀ k j, e.partials g I ρ i o k j = e.partials g I ρ i o j k) :
    Yields (f.jac i o compact symmetric) g fun m h => m.pattern = q ∧
      HoldsEntries h I ρ p (e.partials g I ρ i o) m.values := by
  have hshows := JacobianPlan.shows_make f.options hsupport hsymmetric
  have hsweeps := yields_sweepsFor I ρ hr hrows hcols (.make p f.options symmetric)
  rw [Yields, hr.jac_eq hi ho hp]
  generalize JacobianPlan.make p f.options symmetric = plan at hshows hsweeps ⊢
  refine hsweeps.bind fun derivatives h _ hderivatives =>
    yields_ofExcept_bind hq (yields_pure ⟨rfl, ?_⟩)
  have hlength : (lookUp plan derivatives).length = q.nnz := by
    rw [lookUp, List.length_map, ← hshows.length_eq, Pattern.eq_assembled hq,
      Pattern.nnz_assembled hrows hcols]
    rfl
  rw [SparseMatrix.values_fitted hlength]
  exact holdsEntries_lookUp hshows hderivatives

/-- The entries of a Jacobian by position: what is stored is read as the partial derivative, and
where nothing is stored it is zero. -/
theorem elim_get?_of_holdsEntries {h : ScalarGraph} {J : Nat → Nat → V} {output input : Pattern}
    {compact : Bool} {m : SparseMatrix ScalarId} (hrows : p.nrows = output.nnz)
    (hcols : p.ncols = input.nnz) (hm : m.pattern = p.assembled output input compact)
    (hentries : HoldsEntries h I ρ p J m.values) (hexact : I.Exact h)
    (hsupport : ∀ k j, (k, j) ∉ p.positions → J k j = 0) {k j : Nat} (hk : k < output.nnz)
    (hj : j < input.nnz) :
    (m.get? (output.place compact k) (input.place compact j)).elim 0 (h.value I ρ) = J k j := by
  rw [SparseMatrix.get?, hm, Pattern.find?_assembled hrows hcols hk hj]
  rcases hn : p.find? k j with _ | n
  · exact (hsupport k j (Pattern.find?_eq_none_iff.mp hn)).symm
  · rw [Pattern.find?_eq_some_iff] at hn
    obtain ⟨hlt, hposition⟩ := List.getElem?_eq_some_iff.mp hn
    have hlt' : n < m.values.length := hentries.length_eq ▸ hlt
    have hread := hentries.get hlt hlt'
    rw [show p.positions.get ⟨n, hlt⟩ = (k, j) from hposition] at hread
    rw [Option.bind_some, List.getElem?_eq_getElem hlt']
    exact hread.2 hexact

end Entries

/-- What is stored in a matrix for a value of the output and a value of the input is their partial
derivative, and the partial derivative is zero where nothing is stored: in every interpretation in
which the constants that were folded are exact and, if `symmetric` was promised, the partial
derivatives are symmetric. -/
def HoldsPartials (f : ScalarFunction) (e : Expressions) (g : ScalarGraph) (i o : Nat)
    (compact symmetric : Bool) (m : SparseMatrix ScalarId) (h : ScalarGraph) : Prop :=
  ∀ {V : Type} [CommRing V] (I : Interpretation V) (ρ : ScalarId → V), I.Exact h →
    (symmetric = true → (f.outPattern o).nnz = (f.inPattern i).nnz →
      ∀ k j, e.partials g I ρ i o k j = e.partials g I ρ i o j k) →
    ∀ k < (f.outPattern o).nnz, ∀ j < (f.inPattern i).nnz,
      (m.get? ((f.outPattern o).place compact k) ((f.inPattern i).place compact j)).elim 0
        (h.value I ρ) = e.partials g I ρ i o k j

end ScalarFunction

/-! ### Jacobians of functions in histories -/

/-- The interpretation in the ring with one element. -/
def Interpretation.trivial : Interpretation PUnit where
  literal := fun _ => 0
  function := fun _ _ => 0
  quotient := fun _ _ => 0
  power := fun _ _ => 0
  literal_zero := rfl
  literal_one := rfl
  literal_negOne := rfl
  zero_quotient := fun _ => rfl
  quotient_one := fun _ => rfl
  power_zero := fun _ => rfl
  power_one := fun _ => rfl

namespace ScalarHistory

variable {gs : GraphId → Option ScalarGraph} {fs : List ScalarFunction}

theorem ready (hist : ScalarHistory gs fs) {f : ScalarFunction} (hf : f ∈ fs)
    {e : ScalarFunction.Expressions} {tape : ScalarTape} (hstage : f.stage = .initialized e tape)
    {id : GraphId} {g : ScalarGraph} (hg : gs id = some g) (hlives : f.livesIn g = true) :
    f.Ready g e tape :=
  ⟨hstage, hlives, (hist.resides hf hstage hg hlives).1, (hist.resides hf hstage hg hlives).2⟩

/-- **Jacobians hold the formal partial derivatives.** Whatever the options and the flags are, a
Jacobian is made on the assembled dependency pattern, if that has a size that can be counted. -/
theorem holdsPartials_jac (hist : ScalarHistory gs fs) {f : ScalarFunction} (hf : f ∈ fs)
    {e : ScalarFunction.Expressions} {tape : ScalarTape} (hstage : f.stage = .initialized e tape)
    {id : GraphId} {g : ScalarGraph} (hg : gs id = some g) (hlives : f.livesIn g = true) {i o : Nat}
    (hi : i < f.inCount) (ho : o < f.outCount) (compact symmetric : Bool)
    (hsize : compact = true ∨
      (f.outPattern o).numel < countLimit ∧ (f.inPattern i).numel + 1 < tableLimit) :
    ∃ p m h, f.dependencyPattern i o = .ok p ∧ f.jac i o compact symmetric g = .ok m h ∧
      g.Grows h ∧ m.pattern = p.assembled (f.outPattern o) (f.inPattern i) compact ∧
      f.HoldsPartials e g i o compact symmetric m h := by
  have hr := hist.ready hf hstage hg hlives
  obtain ⟨p, hp, hrows, hcols, hsupport⟩ := ScalarFunction.dependencyPattern_eq hr hi ho
  have hq : p.assembledOf (f.outPattern o) (f.inPattern i) compact
      = .ok (p.assembled (f.outPattern o) (f.inPattern i) compact) := if_pos hsize
  -- that there is a Jacobian does not depend on the interpretation
  obtain ⟨m, h, hrun, hgrow, hm, -⟩ := ScalarFunction.yields_jac hr hi ho hp hrows hcols hq
    (hsupport Interpretation.trivial 0) (fun _ _ _ _ => rfl) (hist.founded hg)
  refine ⟨p, m, h, hp, hrun, hgrow, hm, ?_⟩
  intro V _ I ρ hexact hsymmetric k hk j hj
  obtain ⟨m', h', hrun', -, -, hentries⟩ := ScalarFunction.yields_jac hr hi ho hp hrows hcols hq
    (hsupport I ρ) (fun htold hsquare => hsymmetric htold (hrows ▸ hcols ▸ hsquare))
    (hist.founded hg)
  rw [hrun] at hrun'
  cases hrun'
  exact ScalarFunction.elim_get?_of_holdsEntries hrows hcols hm hentries hexact (hsupport I ρ) hk hj

end ScalarHistory

/-! ### The Jacobian of a product -/

namespace Product

/-- Two symbols and their product. -/
def graph : ScalarGraph :=
  (ScalarBuilder.binary .mul ⟨3⟩ ⟨4⟩).after
    ((((ScalarGraph.new (.numbered 0)).symbol "x").2).symbol "y").2

/-- The product as a function of a column of two. -/
def expressions : ScalarFunction.Expressions := ⟨[.column [⟨3⟩, ⟨4⟩]], [.scalar ⟨5⟩], none⟩

def tape : ScalarTape where
  instrs := [.input 0 0 0, .input 0 1 1, .binary .mul 0 1 1, .output 0 0 1]
  freeSymbols := []
  freeNames := []
  workSize := 2

def functionAt (stage : ScalarFunction.Stage) : ScalarFunction where
  options := {}
  owner := ⟨.numbered 0, 5⟩
  inPatterns := [.denseColumn 2]
  outPatterns := [.scalar]
  stage := stage

def graphs : GraphId → Option ScalarGraph :=
  Function.update (Function.update (fun _ => none) (.numbered 0) (some (.new (.numbered 0))))
    (.numbered 0) (some graph)

theorem grows_graph : (ScalarGraph.new (.numbered 0)).Grows graph :=
  ((ScalarGraph.grows_symbol _ "x").trans (ScalarGraph.grows_symbol _ "y")).trans
    (growing_binary .mul ⟨3⟩ ⟨4⟩ _)

theorem history : ScalarHistory graphs
    [functionAt (.initialized expressions tape), functionAt (.declared expressions)] := by
  have hgraphs : ScalarHistory graphs [] :=
    .grow (.new _ .start rfl) (Function.update_self ..) grows_graph
  have hdeclared : ScalarHistory graphs [functionAt (.declared expressions)] :=
    .declare hgraphs (i := .numbered 0) (Function.update_self ..)
      (show ScalarFunction.declare graph expressions.inputs expressions.outputs {} = _ from rfl)
  exact .init hdeclared (i := .numbered 0) (Function.update_self ..) (List.mem_singleton_self _)
    (show (functionAt (.declared expressions)).init graph = _ from rfl)

/-- The product has its partial derivatives in its Jacobian, on the dense pattern. -/
theorem holdsPartials_jac_product :
    ∃ p m h, (functionAt (.initialized expressions tape)).dependencyPattern 0 0 = .ok p ∧
      (functionAt (.initialized expressions tape)).jac 0 0 false false graph = .ok m h ∧
      graph.Grows h ∧ m.pattern = p.assembled .scalar (.denseColumn 2) false ∧
      (functionAt (.initialized expressions tape)).HoldsPartials expressions graph 0 0 false false
        m h :=
  history.holdsPartials_jac (List.mem_cons_self ..) rfl
    (show graphs (.numbered 0) = some graph from Function.update_self ..) (by rfl) (by decide)
    (by decide) false false (.inr (by decide))

end Product

end Fluxion
