import Fluxion.Table

/-!
# Work slots

The instructions of a straight-line program keep their results in numbered slots. A slot becomes
free after the last instruction that reads it, and the slot that became free last is taken first.
An instruction gives its operands' slots back before it takes one for its result, so it may write
where it reads.

Slots are natural numbers. Where they are words of 32 bits, a program has to make do with fewer than
`2 ^ 32` of them.

## Main definitions

* `Demand`: what an instruction reads, and whether it has a result.
* `Slots`: the slots of results and operands, and the number of slots.
* `assignSlots`: the assignment.
-/

namespace Fluxion

/-- An instruction as the assignment sees it: the numbers of the earlier instructions whose results
it reads, and whether it has a result of its own. -/
structure Demand where
  reads : List Nat
  defines : Bool
deriving DecidableEq, Repr

/-- An assignment of slots to instructions. -/
structure Slots where
  /-- The slot of each result, if there is a result. -/
  results : List (Option Nat)
  /-- The slots that each instruction reads. -/
  arguments : List (List (Option Nat))
  /-- The number of slots in use. -/
  workSize : Nat
deriving DecidableEq, Repr

namespace Slots

/-- For each instruction the last one that reads its result, if one does. -/
def lastReaders (demands : List Demand) : Array (Option Nat) :=
  let readers := buckets demands.length <|
    demands.zipIdx.flatMap fun (d, reader) => d.reads.map (·, reader)
  (readers.toList.map List.getLast?).toArray

/-- An assignment for the instructions so far, and the free slots, the next to be taken first. -/
structure Progress where
  results : Array (Option Nat) := #[]
  arguments : Array (List (Option Nat)) := #[]
  free : List Nat := []
  workSize : Nat := 0

/-- Some instruction after number `now` reads the result of instruction `i`. -/
def isRead (last : Array (Option Nat)) (now i : Nat) : Bool := (last.getD i none).any (now < ·)

/-- Give back the slots that no instruction after number `now` reads, those of the operands in
order. -/
def release (last : Array (Option Nat)) (results : Array (Option Nat)) (now : Nat)
    (reads free : List Nat) : List Nat :=
  reads.eraseDups.foldl (fun free i =>
    if isRead last now i then free
    else match results.getD i none with
      | none => free
      | some slot => slot :: free) free

/-- Assign slots to the next instruction. -/
def step (last : Array (Option Nat)) : Progress → Demand → Progress
  | ⟨results, arguments, free, workSize⟩, d =>
    let now := results.size
    let arguments := arguments.push (d.reads.map (results.getD · none))
    let free := release last results now d.reads free
    if d.defines then
      let (slot, free, workSize) := match free with
        | [] => (workSize, [], workSize + 1)
        | slot :: rest => (slot, rest, workSize)
      let free := if isRead last now now then free else slot :: free
      ⟨results.push (some slot), arguments, free, workSize⟩
    else ⟨results.push none, arguments, free, workSize⟩

end Slots

/-- Slots for a list of instructions. -/
def assignSlots (demands : List Demand) : Slots :=
  let done := demands.foldl (Slots.step (Slots.lastReaders demands)) {}
  ⟨done.results.toList, done.arguments.toList, done.workSize⟩

end Fluxion
