import Fleet.Process.Basic
import Fleet.Listing.Order

/-!
# Ordinals

The live processes of a kind are numbered from one. A process takes the least number that no other
one holds. Two that look at the same time may take the same number; then it belongs to the one that
claimed it first, and the others take another one.
-/

set_option autoImplicit false

namespace Fleet.Ordinal

/-- The greatest ordinal. -/
def greatest : Nat := 2 ^ 32 - 1

/-- The least ordinal that is not used, if there is one left. Among one more numbers than are used,
one is free. -/
def leastFree? (used : List UInt32) : Option UInt32 :=
  let taken := used.map UInt32.toNat
  match (List.range' 1 (taken.length + 1)).find? fun n => !taken.contains n with
  | some n => if n ≤ greatest then some (UInt32.ofNat n) else none
  | none => none

/-- The least ordinal that no peer holds, one of them left aside. -/
def free? (peers : List Process) (aside : Option String) : Option UInt32 :=
  leastFree? ((peers.filter fun p => some p.id != aside).map (·.runningOrdinal))

/-- The order of claims; ids decide between equal ones. -/
def orderByClaim (a b : Process) : Ordering :=
  (compare a.ordinalClaim b.ordinalClaim).then (compare a.id b.id)

/-- The peer that holds an ordinal by the earliest claim. -/
def owner? (peers : List Process) (ordinal : UInt32) : Option Process :=
  least? orderByClaim (peers.filter (·.runningOrdinal == ordinal))

/-- A process may keep its ordinal among live peers of its kind. -/
def isOwner (peers : List Process) (p : Process) : Bool :=
  ((owner? peers p.runningOrdinal).map (·.id)) == some p.id

end Fleet.Ordinal
