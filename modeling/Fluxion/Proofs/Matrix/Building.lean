import Fluxion.Proofs.Matrix.Keeping
import Fluxion.Proofs.Pattern.Maps
import Fluxion.Proofs.Schedule.Liveness

/-!
# What matrix builders return

Every builder that is open to all brings its operands to patterns that fit before it makes a node. So
it keeps graphs well typed whatever it is asked for: unknown handles, shapes that do not fit, maps
that are empty. The builders underneath, `MatrixBuilder.gather` and `MatrixBuilder.scatter`, trust
their caller, who has to know that the maps are in range.

## Main results

* `MatrixBuilder.gather_cases` — what comes out of a gather
* `MatrixBuilder.keeps_gather`, `MatrixBuilder.keeps_scatter` — with maps in range
* `MatrixBuilder.keeps_project`, `MatrixBuilder.keeps_densify`, `MatrixBuilder.keeps_broadcast`,
  `MatrixBuilder.keeps_transpose` — the pattern is the one that was asked for
* `MatrixBuilder.keeps_unary`, `MatrixBuilder.keeps_binary`, `MatrixBuilder.keeps_product`,
  `MatrixBuilder.keeps_lift`, `MatrixBuilder.keeps_call` — operations and embedded routines
-/

namespace Fluxion

/-! ### Gather maps -/

namespace GatherMap

variable {g : MatrixGraph} {map : GatherMap} {arguments : List MatrixId} {a : MatrixId}
  {p : Pattern}

/-- The arguments that are kept are those that some entry reads. -/
theorem mem_usedArguments :
    a ∈ map.usedArguments arguments ↔ ∃ i k, arguments[i]? = some a ∧ some (i, k) ∈ map := by
  simp only [usedArguments, List.mem_filter, List.mem_eraseDups, List.contains_iff_mem,
    List.mem_filterMap, Prod.exists, Option.ite_none_right_eq_some, Option.some.injEq]
  constructor
  · rintro ⟨-, b, isRead, hzip, hread, rfl⟩
    obtain ⟨i, hi⟩ := List.mem_iff_getElem?.mp hzip
    obtain ⟨hb, hmark⟩ := List.getElem?_zip_eq_some.mp hi
    rw [Array.getElem?_toList, getElem?_marks, hread, Option.ite_none_right_eq_some,
      Option.some.injEq, decide_eq_true_eq, List.mem_filterMap] at hmark
    obtain ⟨-, entry, hentry, hfst⟩ := hmark
    obtain ⟨⟨_, k⟩, rfl, rfl⟩ := Option.map_eq_some_iff.mp hfst
    exact ⟨_, k, hb, hentry⟩
  · rintro ⟨i, k, hi, hk⟩
    have hlt : i < arguments.length := (List.getElem?_eq_some_iff.mp hi).1
    refine ⟨List.mem_of_getElem? hi, a, true, List.mem_iff_getElem?.mpr ⟨i, ?_⟩, rfl, rfl⟩
    refine List.getElem?_zip_eq_some.mpr ⟨hi, ?_⟩
    rw [Array.getElem?_toList, getElem?_marks, if_pos hlt, Option.some.injEq, decide_eq_true_eq,
      List.mem_filterMap]
    exact ⟨_, hk, rfl⟩

theorem nodup_usedArguments (map : GatherMap) (arguments : List MatrixId) :
    (map.usedArguments arguments).Nodup :=
  (Slots.nodup_eraseDups arguments).filter _

theorem getD_numbers {used : List MatrixId} {i : Nat} (ha : arguments[i]? = some a) :
    (arguments.map used.idxOf).toArray.getD i 0 = used.idxOf a := by
  rw [Pattern.getD_toArray, List.getD_eq_getElem?_getD, List.getElem?_map, ha]
  rfl

/-- An entry names the same argument after renumbering. -/
theorem mem_renumber {used : List MatrixId} {j k : Nat}
    (h : some (j, k) ∈ map.renumber arguments used) (hmap : g.Reaches arguments map) :
    ∃ i a, arguments[i]? = some a ∧ some (i, k) ∈ map ∧ j = used.idxOf a := by
  obtain ⟨entry, hentry, hmapped⟩ := List.mem_map.mp h
  obtain ⟨⟨i, l⟩, rfl, heq⟩ := Option.map_eq_some_iff.mp hmapped
  obtain ⟨hj, rfl⟩ := Prod.mk.inj heq
  obtain ⟨a, p, ha, -, -⟩ := hmap i l hentry
  exact ⟨i, a, ha, hentry, hj.symm.trans (getD_numbers ha)⟩

theorem mem_renumber_of_mem {used : List MatrixId} {i k : Nat} (ha : arguments[i]? = some a)
    (hk : some (i, k) ∈ map) : some (used.idxOf a, k) ∈ map.renumber arguments used :=
  List.mem_map.mpr ⟨_, hk, congrArg (fun j => some (j, k)) (getD_numbers ha)⟩

/-- Every argument that is kept is read. -/
theorem exists_mem_renumber (map : GatherMap) (arguments : List MatrixId) :
    ∀ j < (map.usedArguments arguments).length,
      ∃ k, some (j, k) ∈ map.renumber arguments (map.usedArguments arguments) := by
  intro j hj
  obtain ⟨i, k, ha, hk⟩ := mem_usedArguments.mp (List.getElem_mem hj)
  refine ⟨k, ?_⟩
  have hidx := (nodup_usedArguments map arguments).idxOf_getElem j hj
  rw [← hidx]
  exact mem_renumber_of_mem ha hk

/-- Merging equal arguments and dropping unused ones makes a map that a gather may have. -/
theorem gathers_renumber (hlength : map.length = p.nnz) (hmap : g.Reaches arguments map) :
    g.Gathers (map.usedArguments arguments)
      (map.renumber arguments (map.usedArguments arguments)) p := by
  refine ⟨(List.length_map _).trans hlength, fun j k hjk => ?_, nodup_usedArguments map arguments,
    exists_mem_renumber map arguments⟩
  obtain ⟨i, a, ha, hik, rfl⟩ := mem_renumber hjk hmap
  obtain ⟨b, q, hb, hq, hk⟩ := hmap i k hik
  obtain rfl := Option.some.inj (ha.symm.trans hb)
  exact ⟨a, q, List.getElem?_idxOf (mem_usedArguments.mpr ⟨i, k, ha, hik⟩), hq, hk⟩

theorem entry_of_isIdentity {k : Nat} {entry : Option (Nat × Nat)} (hmap : map.isIdentity = true)
    (hk : map[k]? = some entry) : entry = some (0, k) := by
  simpa using List.all_eq_true.mp hmap (entry, k) (List.mk_mem_zipIdx_iff_getElem?.mpr hk)

theorem eq_none_of_holes (hnone : map.all Option.isNone = true) : ∀ entry ∈ map, entry = none :=
  fun entry hentry => by simpa using List.all_eq_true.mp hnone entry hentry

theorem reaches_ofSources {sources : List (Option Nat)} {q : Pattern} (ha : g.pattern? a = some q)
    (hsources : ∀ k, some k ∈ sources → k < q.nnz) : g.Reaches [a] (ofSources sources) := by
  intro i k hik
  obtain ⟨entry, hentry, hmapped⟩ := List.mem_map.mp hik
  obtain ⟨l, rfl, heq⟩ := Option.map_eq_some_iff.mp hmapped
  obtain ⟨rfl, rfl⟩ := Prod.mk.inj heq
  exact ⟨a, q, rfl, ha, hsources l hentry⟩

end GatherMap

namespace MatrixBuilder

variable {g : MatrixGraph} {a b e : MatrixId} {p q : Pattern}

/-! ### Constants and rearrangements -/

theorem keeps_constant (m : SparseMatrix Binary64) : Keeps (constant m) g (On m.pattern) :=
  keeps_intern (.constant m)

theorem keeps_fill (p : Pattern) (v : Binary64) : Keeps (fill p v) g (On p) :=
  keeps_constant _

/-- A gather is zero if its map reads nothing, one of the arguments if it takes all nonzeros of that
one in their order, and a node otherwise. -/
theorem gather_cases {arguments : List MatrixId} {map : GatherMap} (hmap : g.Reaches arguments map)
    (p : Pattern) :
    (map.all Option.isNone = true ∧ gather arguments map p g = fill p 0.0 g) ∨
      (∃ a, map.usedArguments arguments = [a] ∧ On p a g ∧
        (map.renumber arguments [a]).isIdentity = true ∧ gather arguments map p g = .ok a g) ∨
      gather arguments map p g = intern (.gather (map.usedArguments arguments)
        (map.renumber arguments (map.usedArguments arguments)) p) p g := by
  by_cases hnone : map.all Option.isNone = true
  · exact .inl ⟨hnone, by rw [gather, if_pos hnone]⟩
  · refine .inr ?_
    rw [gather, if_neg hnone]
    rcases hused : map.usedArguments arguments with _ | ⟨a, _ | ⟨b, rest⟩⟩
    · exact .inr rfl
    · obtain ⟨i, k, hi, hik⟩ := GatherMap.mem_usedArguments.mp (hused ▸ List.mem_singleton_self a)
      obtain ⟨a', q, ha', hq, -⟩ := hmap i k hik
      obtain rfl := Option.some.inj (hi.symm.trans ha')
      simp only [Bind.bind, EStateM.bind, patternOf_of_some hq]
      by_cases hsame : q = p ∧ (map.renumber arguments [a]).isIdentity
      · exact .inl ⟨a, rfl, hsame.1 ▸ hq, hsame.2, by rw [if_pos hsame]; rfl⟩
      · exact .inr (by rw [if_neg hsame])
    · exact .inr rfl

theorem keeps_gather {arguments : List MatrixId} {map : GatherMap} (hlength : map.length = p.nnz)
    (hmap : g.Reaches arguments map) : Keeps (gather arguments map p) g (On p) := by
  rw [Keeps]
  rcases gather_cases hmap p with ⟨-, hrun⟩ | ⟨a, -, ha, -, hrun⟩ | hrun <;> rw [hrun]
  · exact keeps_fill p 0.0
  · exact keeps_pure ha
  · exact keeps_intern (.gather (GatherMap.gathers_renumber hlength hmap))

theorem keeps_scatter {map : ScatterMap} (ha : g.pattern? a = some q)
    (hlength : map.length = q.nnz) (htargets : ∀ k, some k ∈ map → k < p.nnz) :
    Keeps (scatter a map p) g (On p) := by
  rw [scatter]
  split
  · exact keeps_fill p 0.0
  · exact keeps_intern (.scatter ha hlength htargets)

/-- Taking the nonzeros of one expression from where they are in its pattern. -/
theorem keeps_gather_locate (ha : g.pattern? a = some q) (p : Pattern) :
    Keeps (gather [a] (.ofSources (q.locate p)) p) g (On p) :=
  keeps_gather (by simp [GatherMap.ofSources]) (GatherMap.reaches_ofSources ha fun _ hk =>
    Pattern.lt_nnz_of_mem_locate hk)

theorem keeps_project (a : MatrixId) (p : Pattern) : Keeps (project a p) g (On p) := by
  refine keeps_patternOf_bind fun q hq => ?_
  split
  · exact keeps_throw _
  · split
    · rename_i hsame
      exact keeps_pure (hsame ▸ hq)
    · exact keeps_gather_locate hq p

theorem keeps_densify (a : MatrixId) : Keeps (densify a) g fun e h =>
    ∃ q, g.pattern? a = some q ∧ On (.dense q.nrows q.ncols) e h := by
  refine keeps_patternOf_bind fun q hq => ?_
  refine keeps_ofExcept_bind fun p hp => ?_
  rw [Pattern.denseOf] at hp
  split at hp
  · obtain rfl := Except.ok.inj hp
    exact (keeps_gather_locate hq _).imp fun e h _ he => ⟨q, hq, he⟩
  · contradiction

/-- A 1x1 expression has one stored element after that. -/
theorem keeps_densify_scalar (ha : g.pattern? a = some q) (hscalar : q.isScalar = true) :
    Keeps (densify a) g (On .scalar) := by
  refine (keeps_densify a).imp fun e h _ he => ?_
  obtain ⟨p, hp, he⟩ := he
  obtain rfl := Option.some.inj (ha.symm.trans hp)
  have hshape : q.shape = (1, 1) := by simpa [Pattern.isScalar] using hscalar
  obtain ⟨hrows, hcols⟩ := Prod.mk.injEq .. ▸ hshape
  rwa [hrows, hcols] at he

theorem keeps_broadcast (a : MatrixId) (p : Pattern) : Keeps (broadcast a p) g (On p) := by
  refine keeps_patternOf_bind fun q hq => ?_
  split
  · exact keeps_project a p
  · split
    · rename_i hscalar
      refine (keeps_densify_scalar hq hscalar).bind fun e h _ he => ?_
      refine keeps_gather (List.length_replicate ..) fun i k hik => ?_
      obtain ⟨rfl, rfl⟩ := Prod.mk.inj (Option.some.inj (List.eq_of_mem_replicate hik))
      exact ⟨e, .scalar, rfl, he, by decide⟩
    · exact keeps_throw _

theorem keeps_transpose (a : MatrixId) : Keeps (transpose a) g fun e h =>
    ∃ q, g.pattern? a = some q ∧ On q.transpose e h := by
  refine keeps_patternOf_bind fun q hq => ?_
  refine keeps_ofExcept_bind fun p hp => ?_
  rw [Pattern.transposeOf] at hp
  split at hp
  · obtain rfl := Except.ok.inj hp
    have hlength : (GatherMap.ofSources (q.transposeMap.map some)).length = q.transpose.nnz := by
      simp [GatherMap.ofSources, Pattern.length_transposeMap]
    refine (keeps_gather hlength (GatherMap.reaches_ofSources hq fun k hk => ?_)).imp
      fun e h _ he => ⟨q, hq, he⟩
    obtain ⟨l, hl, heq⟩ := List.mem_map.mp hk
    obtain rfl := Option.some.inj heq
    exact Pattern.lt_nnz_of_mem_transposeMap hl
  · contradiction

/-- The patterns of several expressions, one for each. -/
theorem keeps_patternsOf (es : List MatrixId) : Keeps (patternsOf es) g fun ps _ =>
    es.map g.pattern? = ps.map some := by
  induction es with
  | nil => exact keeps_pure rfl
  | cons e rest ih =>
    rw [patternsOf, List.mapM_cons]
    refine keeps_patternOf_bind fun p hp => ?_
    exact Keeps.bind ih fun ps h _ hps => keeps_pure (by simp [hp, hps])

/-- Numbers of arguments and of their nonzeros, read off the patterns, are in range. -/
theorem reaches_of_patterns {arguments : List MatrixId} {patterns : List Pattern} {map : GatherMap}
    (hpatterns : arguments.map g.pattern? = patterns.map some)
    (hmap : ∀ i k, some (i, k) ∈ map → ∃ p, patterns[i]? = some p ∧ k < p.nnz) :
    g.Reaches arguments map := by
  intro i k hik
  obtain ⟨p, hp, hk⟩ := hmap i k hik
  have hget : (arguments[i]?).map g.pattern? = some (some p) := by
    rw [← List.getElem?_map, hpatterns, List.getElem?_map, hp]
    rfl
  obtain ⟨a, ha, hpa⟩ := Option.map_eq_some_iff.mp hget
  exact ⟨a, p, ha, hpa, hk⟩

theorem keeps_vertcat (parts : List MatrixId) : Keeps (vertcat parts) g Something := by
  refine (keeps_patternsOf parts).bind fun patterns h hgh hpatterns => ?_
  have hpatterns := MatrixNode.map_pattern?_grow hgh.pattern? hpatterns
  split
  · exact (keeps_fill _ _).something
  · rename_i first rest
    split
    · exact keeps_throw _
    · refine keeps_ofExcept_bind fun p hp => ?_
      exact (keeps_gather (nnz_of_vertcat hp) (reaches_of_patterns hpatterns fun i k hik =>
        exists_of_mem_stackMap hik)).something

theorem keeps_horzcat (parts : List MatrixId) : Keeps (horzcat parts) g Something := by
  refine (keeps_patternsOf parts).bind fun patterns h hgh hpatterns => ?_
  have hpatterns := MatrixNode.map_pattern?_grow hgh.pattern? hpatterns
  split
  · exact (keeps_fill _ _).something
  · split
    · exact keeps_throw _
    · refine keeps_ofExcept_bind fun p hp => ?_
      exact (keeps_gather (nnz_of_horzcat hp) (reaches_of_patterns hpatterns fun i k hik =>
        exists_of_mem_besideMap hik)).something

theorem keeps_element (a : MatrixId) (r c : Nat) : Keeps (element a r c) g Something := by
  refine keeps_patternOf_bind fun q hq => ?_
  split
  · exact keeps_throw _
  · have hlength : (GatherMap.ofSources [q.find? r c]).length = Pattern.scalar.nnz := rfl
    refine (keeps_gather hlength (GatherMap.reaches_ofSources hq fun k hk => ?_)).something
    exact Pattern.lt_nnz_of_find? (List.mem_singleton.mp hk).symm

theorem keeps_nonzeros (a : MatrixId) (numbers : List Nat) :
    Keeps (nonzeros a numbers) g Something := by
  refine keeps_patternOf_bind fun q hq => ?_
  dsimp only
  split
  · exact keeps_throw _
  · rename_i hnone
    have hlength : (GatherMap.ofSources (numbers.map some)).length
        = (Pattern.denseColumn numbers.length).nnz := by
      simp [GatherMap.ofSources, Pattern.denseColumn, Pattern.nnz_dense]
    refine (keeps_gather hlength (GatherMap.reaches_ofSources hq fun k hk => ?_)).something
    obtain ⟨l, hl, heq⟩ := List.mem_map.mp hk
    obtain rfl := Option.some.inj heq
    simpa using List.find?_eq_none.mp hnone l hl

theorem keeps_sum (a : MatrixId) : Keeps (sum a) g (On .scalar) := by
  refine keeps_patternOf_bind fun q hq => ?_
  refine keeps_scatter hq (List.length_replicate ..) fun k hk => ?_
  obtain rfl := Option.some.inj (List.eq_of_mem_replicate hk)
  decide

/-! ### Operations -/

/-- A unary operation on an operand that has all the elements it needs. -/
def unaryStored (op : UnaryOp) (a : MatrixId) : MatrixBuilder MatrixId := do
  let p ← patternOf a
  match (← get).constant? a with
  | some m =>
    rememberFolds (m.values.map (.unary op))
    constant (m.map op.apply)
  | none => intern (.unary op a) p

theorem unary_eq (op : UnaryOp) (a : MatrixId) :
    unary op a = (if op.keepsZero then pure a else densify a) >>= unaryStored op := by
  rw [unary]
  split <;> rfl

theorem pattern_of_constant? {m : SparseMatrix Binary64} (hg : g.WellTyped)
    (hm : g.constant? a = some m) (ha : On p a g) : m.pattern = p := by
  obtain ⟨n, hn, hconstant⟩ := Option.bind_eq_some_iff.mp hm
  obtain rfl : n = .constant m := by
    cases n <;> simp_all [MatrixNode.constant?]
  cases hg.typed a _ p hn ha
  rfl

theorem keeps_unaryStored {op : UnaryOp}
    (hdense : op.keepsZero = false → ∃ p, On p a g ∧ p.isDense = true) :
    Keeps (unaryStored op a) g fun e h => ∃ p, On p a g ∧ On p e h := by
  refine keeps_patternOf_bind fun p hp => keeps_get_bind ?_
  refine Keeps.imp (Q := On p) ?_ fun e h _ he => ⟨p, hp, he⟩
  split
  · rename_i m hm
    intro hg
    obtain rfl := pattern_of_constant? hg hm hp
    exact ((keeps_rememberFolds _).bind fun _ k _ _ => keeps_constant (m.map op.apply)) hg
  · refine keeps_intern (.unary hp fun hkeeps => ?_)
    obtain ⟨q, hq, hfull⟩ := hdense hkeeps
    obtain rfl := Option.some.inj (hp.symm.trans hq)
    exact hfull

theorem keeps_unary (op : UnaryOp) (a : MatrixId) : Keeps (unary op a) g fun e h =>
    ∃ q, g.pattern? a = some q ∧
      On (if op.keepsZero then q else .dense q.nrows q.ncols) e h := by
  rw [unary_eq]
  split
  · rename_i hkeeps
    rw [pure_bind]
    exact keeps_unaryStored fun h => absurd hkeeps (by simp [h])
  · refine (keeps_densify a).bind fun b h _ hb => ?_
    obtain ⟨q, hq, hb⟩ := hb
    refine (keeps_unaryStored fun _ => ⟨_, hb, Pattern.isDense_dense _ _⟩).imp fun e k _ he => ?_
    obtain ⟨p, hp, he⟩ := he
    obtain rfl := Option.some.inj (hb.symm.trans hp)
    exact ⟨q, hq, he⟩

/-- An operand that was prepared for a result: it is on the pattern of the result, or it is a 1x1 one
that is repeated since the other operand has another shape. -/
def Prepared (own other p : Pattern) (d : MatrixId) (g : MatrixGraph) : Prop :=
  (own.shape = other.shape ∨ own.isScalar = false) ∧ On p d g ∨
    own.shape ≠ other.shape ∧ own.isScalar = true ∧ On .scalar d g

theorem Prepared.grow {own other : Pattern} {d : MatrixId} {h : MatrixGraph}
    (hd : Prepared own other p d g) (hgrow : g.Grows h) : Prepared own other p d h := by
  rcases hd with ⟨hproject, hd⟩ | ⟨hshape, hscalar, hd⟩
  · exact .inl ⟨hproject, hd.grow hgrow⟩
  · exact .inr ⟨hshape, hscalar, hd.grow hgrow⟩

theorem Prepared.fits {own other : Pattern} {d : MatrixId} (hd : Prepared own other p d g) :
    g.Fits p d :=
  hd.imp (fun h => h.2) fun h => h.2.2

/-- Two 1x1 operands have one shape, so at least one operand is not repeated. -/
theorem Prepared.on {pa pb : Pattern} (ha : Prepared pa pb p a g) (hb : Prepared pb pa p b g) :
    On p a g ∨ On p b g := by
  rcases ha with ⟨-, ha⟩ | ⟨hne, hpa, -⟩
  · exact .inl ha
  · rcases hb with ⟨-, hb⟩ | ⟨-, hpb, -⟩
    · exact .inr hb
    · rw [Pattern.isScalar, beq_iff_eq] at hpa hpb
      exact absurd (hpa.trans hpb.symm) hne

theorem keeps_operandFor {own other : Pattern} (he : g.pattern? e = some own) :
    Keeps (operandFor e own other p) g (Prepared own other p) := by
  rw [operandFor]
  split
  · rename_i hproject
    have hproject : own.shape = other.shape ∨ own.isScalar = false := by simpa using hproject
    exact (keeps_project e p).imp fun d h _ hd => .inl ⟨hproject, hd⟩
  · rename_i hrepeat
    obtain ⟨hshape, hscalar⟩ := not_or.mp hrepeat
    have hscalar : own.isScalar = true := by simpa using hscalar
    exact (keeps_densify_scalar he hscalar).imp fun d h _ hd => .inr ⟨hshape, hscalar, hd⟩

theorem keeps_binary (op : BinaryOp) (a b : MatrixId) : Keeps (binary op a b) g fun e h =>
    ∃ pa pb p, g.pattern? a = some pa ∧ g.pattern? b = some pb ∧
      elementwisePattern op pa pb = .ok p ∧ On p e h := by
  refine keeps_patternOf_bind fun pa hpa => ?_
  refine keeps_patternOf_bind fun pb hpb => ?_
  refine keeps_ofExcept_bind fun p hp => ?_
  refine Keeps.imp (Q := On p) ?_ fun e h _ he => ⟨pa, pb, p, hpa, hpb, hp, he⟩
  refine (keeps_operandFor hpa).bind fun a' h hgh ha' => ?_
  refine (keeps_operandFor (hgh.pattern? hpb)).bind fun b' k hhk hb' => ?_
  refine keeps_get_bind (keeps_get_bind ?_)
  have ha' := ha'.grow hhk
  split
  · exact (keeps_rememberFolds _).bind fun _ l _ _ => keeps_constant _
  · exact keeps_intern (.binary ha'.fits hb'.fits (ha'.on hb'))

theorem product_of_productOf {r : Pattern} (h : p.productOf q = .ok r) : r = p.product q := by
  rw [Pattern.productOf] at h
  split at h
  · contradiction
  · split at h
    · contradiction
    · exact (Except.ok.inj h).symm

theorem keeps_product (a b : MatrixId) : Keeps (product a b) g fun e h =>
    ∃ pa pb, g.pattern? a = some pa ∧ g.pattern? b = some pb ∧ On (pa.product pb) e h := by
  refine keeps_patternOf_bind fun pa hpa => ?_
  refine keeps_patternOf_bind fun pb hpb => ?_
  split
  · exact keeps_throw _
  · rename_i hinner
    refine keeps_ofExcept_bind fun p hp => ?_
    obtain rfl := product_of_productOf hp
    refine (keeps_intern (.product hpa hpb (not_not.mp hinner))).imp fun e h _ he => ?_
    exact ⟨pa, pb, hpa, hpb, he⟩

theorem keeps_lift (value guess : MatrixId) : Keeps (lift value guess) g Something := by
  refine keeps_patternOf_bind fun p hp => ?_
  refine keeps_patternOf_bind fun q hq => ?_
  split
  · exact keeps_throw _
  · refine (keeps_project guess p).bind fun e h hgh he => ?_
    exact (keeps_intern (.lift (hgh.pattern? hp) he)).something

/-! ### Embedded routines -/

theorem keeps_callOutput {r : Routine} {arguments : List MatrixId} {o : Nat}
    (harguments : arguments.map g.pattern? = r.inPatterns.map some)
    (ho : o < r.outPatterns.length) :
    Keeps (callOutput r arguments o) g (On (r.outPattern o)) := by
  refine keeps_intern (.call harguments ?_)
  rw [Routine.outPattern, List.getD_eq_getElem _ _ ho, List.getElem?_eq_getElem ho]

theorem map_pattern?_of_forall₂ {arguments results : List MatrixId} {patterns : List Pattern}
    (hlength : arguments.length = patterns.length)
    (h : List.Forall₂ (fun entry e => On entry.2 e g) (arguments.zip patterns) results) :
    results.map g.pattern? = patterns.map some := by
  induction arguments generalizing patterns results with
  | nil =>
    cases patterns with
    | nil => cases h; rfl
    | cons => contradiction
  | cons a rest ih =>
    cases patterns with
    | nil => contradiction
    | cons p ps =>
      cases h with
      | cons he hrest =>
        rw [List.map_cons, List.map_cons, ih (Nat.succ.inj hlength) hrest]
        exact congrArg (· :: _) he

/-- Arguments are moved onto the patterns of the inputs. -/
theorem keeps_callArguments {arguments : List MatrixId} {patterns : List Pattern}
    (hlength : arguments.length = patterns.length) :
    Keeps ((arguments.zip patterns).mapM fun (a, p) => callArgument a p) g fun results h =>
      results.map h.pattern? = patterns.map some := by
  refine (Keeps.mapM (S := fun entry => On entry.2) (fun _ _ _ _ hgh he => On.grow he hgh) ?_).imp
    fun results h _ hresults => map_pattern?_of_forall₂ hlength hresults
  rintro ⟨a, p⟩ - h -
  refine keeps_patternOf_bind fun q hq => ?_
  split
  · exact keeps_throw _
  · exact keeps_project _ _

theorem keeps_callRoutine (r : Routine) (arguments : List MatrixId) :
    Keeps (callRoutine r arguments) g Something := by
  rw [callRoutine]
  dsimp only
  split
  · exact Keeps.bind (Q := fun _ _ => False) (keeps_throw _) fun _ _ _ h => h.elim
  · rename_i hlength
    refine (keeps_callArguments (not_not.mp hlength)).bind fun results h _ hpatterns => ?_
    refine (Keeps.mapM (S := fun _ => Something) (fun _ _ _ _ _ _ => trivial)
      fun o ho k hhk => ?_).something
    refine (keeps_callOutput ?_ (List.mem_range.mp ho)).something
    exact MatrixNode.map_pattern?_grow hhk.pattern? hpatterns

theorem keeps_call (f : FunctionObject) (arguments : List MatrixId) :
    Keeps (call f arguments) g Something :=
  keeps_ofExcept_bind fun r _ => keeps_callRoutine r arguments

end MatrixBuilder

end Fluxion
