import Mathlib.Data.List.TakeWhile
import Mathlib.Tactic.Common

/-!
# Names of bindings in texts

A name is `@` and the number of the binding. In a text, a name ends where its digits end, and it is
replaced as any other piece of text is: from left to right, whatever comes after it. So `@1` must not
be replaced where `@10` is still there, but `@10` may be where `@1` is.

What is said here of a text that is put together from two is said for texts with a character in
between that no name contains. Such characters stand on both sides of every operand, so names neither
arise nor get lost where an operand is put in.

## Main definitions

* `reference` — the name of a binding
* `references` — the numbers of the names in a text
* `replaceAll` — a text with each occurrence of another one replaced
* `expand` — a text with all names replaced
* `Separates` — characters that no name contains

## Main results

* `references_append`, `replaceFrom_append` — texts on both sides of such a character
* `replaceFrom_reference` — a smaller name is not replaced
-/

namespace Fluxion

/-- The name of the binding of number `k`. -/
def reference (k : Nat) : String := "@" ++ toString k

/-- The numbers of the names in a text, each with all the digits that follow. -/
def references : List Char → List Nat
  | [] => []
  | c :: rest =>
    if c = '@' then Nat.ofDigitChars 10 (rest.takeWhile Char.isDigit) 0 :: references rest
    else references rest

/-- Replace each occurrence of `old`, from left to right. The first `skip` characters are left out:
they belong to an occurrence that has been replaced. -/
def replaceFrom (old new : List Char) : Nat → List Char → List Char
  | _, [] => []
  | skip + 1, _ :: rest => replaceFrom old new skip rest
  | 0, c :: rest =>
    if old.isPrefixOf (c :: rest) then new ++ replaceFrom old new (old.length - 1) rest
    else c :: replaceFrom old new 0 rest

/-- Replace each occurrence of `old`, from left to right. -/
def replaceAll (old new text : String) : String :=
  .ofList (replaceFrom old.toList new.toList 0 text.toList)

/-- A text with the names of bindings replaced by what they stand for, the last name first. -/
def expand (bindings : List String) (text : String) : String :=
  bindings.zipIdx.foldr (fun (s, k) text => replaceAll (reference (k + 1)) s text) text

/-- No name contains the character. -/
def Separates (c : Char) : Prop := c ≠ '@' ∧ c.isDigit = false

instance (c : Char) : Decidable (Separates c) := inferInstanceAs (Decidable (_ ∧ _))

theorem toList_reference (k : Nat) : (reference k).toList = '@' :: Nat.toDigits 10 k := by
  rw [reference, Nat.toString_eq_ofList_toDigits]
  simp

theorem isDigit_of_mem_toDigits {k : Nat} {c : Char} (hc : c ∈ Nat.toDigits 10 k) :
    c.isDigit = true :=
  Nat.isDigit_of_mem_toDigits (show 0 < 10 by decide) (show 10 ≤ 10 by decide) hc

theorem notMem_toDigits {c : Char} (hc : c.isDigit = false) (k : Nat) : c ∉ Nat.toDigits 10 k := by
  intro hmem
  rw [isDigit_of_mem_toDigits hmem] at hc
  contradiction

theorem Separates.notMem_reference {c : Char} (hc : Separates c) (k : Nat) :
    c ∉ (reference k).toList := by
  rw [toList_reference, List.mem_cons, not_or]
  exact ⟨hc.1, notMem_toDigits hc.2 k⟩

/-! ### Names in a text -/

theorem references_of_notMem {text : List Char} (h : '@' ∉ text) : references text = [] := by
  induction text with
  | nil => rfl
  | cons c rest ih =>
    obtain ⟨hc, hrest⟩ := not_or.mp (mt List.mem_cons.mpr h)
    rw [references, if_neg (Ne.symm hc), ih hrest]

theorem takeWhile_append_cons {p : Char → Bool} {c : Char} (hc : p c = false) (a b : List Char) :
    (a ++ c :: b).takeWhile p = a.takeWhile p := by
  induction a with
  | nil => simp [hc]
  | cons d rest ih => simp only [List.cons_append, List.takeWhile_cons, ih]

theorem references_append {c : Char} (hc : Separates c) (a b : List Char) :
    references (a ++ c :: b) = references a ++ references b := by
  induction a with
  | nil => exact if_neg hc.1
  | cons d rest ih =>
    rw [List.cons_append, references, references, ih, takeWhile_append_cons hc.2]
    split <;> rfl

theorem references_reference (k : Nat) : references (reference k).toList = [k] := by
  rw [toList_reference, references, if_pos rfl,
    List.takeWhile_eq_self_iff.mpr fun _ => isDigit_of_mem_toDigits,
    Nat.ofDigitChars_ten_toDigits, references_of_notMem (notMem_toDigits (by decide) k)]

/-! ### Replacing -/

theorem toList_replaceAll (old new text : String) :
    (replaceAll old new text).toList = replaceFrom old.toList new.toList 0 text.toList :=
  String.toList_ofList

theorem expand_concat (bindings : List String) (s text : String) :
    expand (bindings ++ [s]) text
      = expand bindings (replaceAll (reference (bindings.length + 1)) s text) := by
  rw [expand, expand, List.zipIdx_append, List.foldr_append]
  simp

variable {old new : List Char}

theorem not_prefix_of_notMem {c : Char} {text : List Char} (h : c ∉ text) {rest : List Char} :
    ¬ c :: rest <+: text := fun hbegins => h (hbegins.subset (List.mem_cons_self ..))

/-- Without the first character of `old` there is nothing to replace. -/
theorem replaceFrom_of_notMem {c : Char} {rest text : List Char} (h : c ∉ text) :
    replaceFrom (c :: rest) new 0 text = text := by
  induction text with
  | nil => rfl
  | cons d others ih =>
    rw [replaceFrom, if_neg (by rw [List.isPrefixOf_iff_prefix]; exact not_prefix_of_notMem h),
      ih (mt (List.mem_cons_of_mem _) h)]

/-- An occurrence does not go beyond a character that it does not contain. -/
theorem prefix_append_cons_iff {c : Char} (hc : c ∉ old) (a b : List Char) :
    old <+: a ++ c :: b ↔ old <+: a := by
  refine ⟨fun h => ?_, fun h => h.trans (List.prefix_append a _)⟩
  rcases Nat.lt_or_ge a.length old.length with hlength | hlength
  · have hmore : a ++ [c] <+: old :=
      List.prefix_of_prefix_length_le (List.prefix_append_right_inj a |>.mpr (by simp)) h
        (by rw [List.length_append]; exact hlength)
    exact absurd (hmore.subset (by simp)) hc
  · exact List.prefix_of_prefix_length_le h (List.prefix_append a _) hlength

theorem replaceFrom_append {c : Char} (hc : c ∉ old) (hold : old ≠ []) {a : List Char} {skip : Nat}
    (hskip : skip ≤ a.length) (b : List Char) :
    replaceFrom old new skip (a ++ c :: b)
      = replaceFrom old new skip a ++ c :: replaceFrom old new 0 b := by
  induction a generalizing skip with
  | nil =>
    obtain rfl : skip = 0 := Nat.le_zero.mp hskip
    have hno : ¬ old <+: c :: b := by
      rw [← List.nil_append (c :: b), prefix_append_cons_iff hc, List.prefix_nil]
      exact hold
    exact if_neg (by rwa [List.isPrefixOf_iff_prefix])
  | cons d rest ih =>
    cases skip with
    | succ skip => exact ih (Nat.le_of_succ_le_succ hskip)
    | zero =>
      have hiff : old.isPrefixOf (d :: (rest ++ c :: b)) = old.isPrefixOf (d :: rest) := by
        rw [Bool.eq_iff_iff, List.isPrefixOf_iff_prefix, List.isPrefixOf_iff_prefix,
          ← List.cons_append, prefix_append_cons_iff hc]
      rw [List.cons_append, replaceFrom, replaceFrom, hiff]
      split
      · rename_i hbegins
        have hlength := (List.isPrefixOf_iff_prefix.mp hbegins).length_le
        rw [ih (by rw [List.length_cons] at hlength; omega), List.append_assoc]
      · rw [ih (Nat.zero_le _), List.cons_append]

theorem replaceFrom_of_length_le {skip : Nat} {text : List Char} (h : text.length ≤ skip) :
    replaceFrom old new skip text = [] := by
  induction text generalizing skip with
  | nil => rw [replaceFrom]
  | cons c rest ih =>
    obtain ⟨skip, rfl⟩ := Nat.exists_eq_add_one_of_ne_zero (Nat.ne_of_gt (Nat.lt_of_lt_of_le
      (Nat.succ_pos _) h))
    exact ih (Nat.le_of_succ_le_succ h)

theorem replaceFrom_self (hold : old ≠ []) : replaceFrom old new 0 old = new := by
  obtain ⟨c, rest, rfl⟩ := List.exists_cons_of_ne_nil hold
  rw [replaceFrom, if_pos (List.isPrefixOf_iff_prefix.mpr List.prefix_rfl),
    replaceFrom_of_length_le (by simp), List.append_nil]

theorem le_ofDigitChars (digits : List Char) (k : Nat) : k ≤ Nat.ofDigitChars 10 digits k := by
  induction digits generalizing k with
  | nil => exact Nat.le_refl k
  | cons c rest ih =>
    calc k ≤ 10 * k + (c.toNat - '0'.toNat) := by omega
      _ ≤ Nat.ofDigitChars 10 (c :: rest) k := ih _

/-- A name that another name begins with is no larger. -/
theorem le_of_prefix_reference {j k : Nat} (h : (reference k).toList <+: (reference j).toList) :
    k ≤ j := by
  rw [toList_reference, toList_reference, List.cons_prefix_cons] at h
  obtain ⟨back, hback⟩ := h.2
  have hj : Nat.ofDigitChars 10 (Nat.toDigits 10 j) 0 = j := Nat.ofDigitChars_ten_toDigits
  rw [← hback, Nat.ofDigitChars_append, Nat.ofDigitChars_ten_toDigits] at hj
  exact hj ▸ le_ofDigitChars back k

/-- A smaller name stays as it is. -/
theorem replaceFrom_reference {j k : Nat} (h : j < k) (new : List Char) :
    replaceFrom (reference k).toList new 0 (reference j).toList = (reference j).toList := by
  have hno : ¬ (reference k).toList <+: (reference j).toList := fun hbegins =>
    Nat.not_le.mpr h (le_of_prefix_reference hbegins)
  have hrest : '@' ∉ Nat.toDigits 10 j := notMem_toDigits (by decide) j
  rw [toList_reference j] at hno ⊢
  rw [replaceFrom, if_neg (by rwa [List.isPrefixOf_iff_prefix]), toList_reference,
    replaceFrom_of_notMem hrest]

end Fluxion
