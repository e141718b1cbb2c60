import Fluxion.Table

/-!
# Pools

A pool keeps items in the order in which they came, and an item is known by its number. To tell
whether an item like a given one is there already, the pool keeps a shelf for each key, with the
numbers of the items that have this key; only one shelf is searched.

That no item is missing from its shelf is part of the type. So the shelves decide nothing: a search
finds an item if and only if there is one.

## Main definitions

* `Pool`: the type; `Pool.empty`, `Pool.push`.
* `Pool.search?`: the number of an item with a given key that passes a test.

## Main statements

* `Pool.exists_of_search?_eq_some`: what is found is there and passes the test.
* `Pool.eq_false_of_search?_eq_none`: if nothing is found, no item with the key passes the test.
-/

namespace Fluxion

/-- Items in the order in which they came, with shelves by key. -/
structure Pool (α : Type) (key : α → Nat) where
  items : Array α
  /-- The numbers of the items with each key, the last first. -/
  shelves : Array (List Nat)
  /-- Every item is on its shelf. -/
  shelved : ∀ (i : Nat) (a : α), items[i]? = some a → i ∈ shelves.getD (key a) []

namespace Pool

variable {α : Type} {key : α → Nat}

/-- No items. -/
def empty : Pool α key where
  items := #[]
  shelves := #[]
  shelved := by simp

/-- The number of items. -/
def size (p : Pool α key) : Nat := p.items.size

/-- Put a number on a shelf. -/
def shelve (shelves : Array (List Nat)) (k i : Nat) : Array (List Nat) :=
  alter [] shelves k (i :: ·)

theorem getD_shelve (shelves : Array (List Nat)) (k i j : Nat) :
    (shelve shelves k i).getD j []
      = if j = k then i :: shelves.getD j [] else shelves.getD j [] :=
  getD_alter [] shelves k (i :: ·) j

/-- Add an item, which gets the next number. -/
def push (p : Pool α key) (a : α) : Pool α key :=
  let shelves := shelve p.shelves (key a) p.items.size
  { items := p.items.push a
    shelves
    shelved := by
      intro i b hb
      rw [Array.getElem?_push] at hb
      rw [getD_shelve]
      split at hb
      · rename_i hi
        cases hb
        simp [hi]
      · have := p.shelved i b hb
        split
        · exact List.mem_cons_of_mem _ this
        · exact this }

/-- The number of an item with key `k` that passes a test. -/
def search? (p : Pool α key) (k : Nat) (test : α → Bool) : Option Nat :=
  (p.shelves.getD k []).find? fun i => p.items[i]?.any test

theorem exists_of_search?_eq_some {p : Pool α key} {k i : Nat} {test : α → Bool}
    (h : p.search? k test = some i) : ∃ a, p.items[i]? = some a ∧ test a = true := by
  have hi := List.find?_some h
  cases ha : p.items[i]? with
  | none => simp [ha] at hi
  | some a => exact ⟨a, rfl, by simpa [ha] using hi⟩

theorem eq_false_of_search?_eq_none {p : Pool α key} {k i : Nat} {test : α → Bool} {a : α}
    (h : p.search? k test = none) (ha : p.items[i]? = some a) (hk : key a = k) :
    test a = false := by
  have hshelf := p.shelved i a ha
  rw [hk] at hshelf
  simpa [ha] using List.find?_eq_none.mp h i hshelf

end Pool

end Fluxion
