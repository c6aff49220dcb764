import LuaMachine.Failure
import LuaMachine.Table.HashPart

/-!
# Tables

A table has an array part, the values of the keys `1, 2, …` without a gap, a hash part for all other
keys, and possibly a metatable.  The parts exchange entries: a value stored just past the end of the
array part joins it and draws the keys that follow out of the hash part; clearing a key inside the
array part moves the values behind it to the front of the hash part.

* `Table.rawGet`, `Table.rawSet`   access by any value, after normalising it to a key;
* `Table.getInt`, `Table.setInt`   access by integer;
* `Table.length`                   the border, the size of the array part.
-/

namespace LuaMachine

structure Table where
  array : Array Value
  hash : HashPart
  metatable : Option TableId
deriving Inhabited

namespace Table

/-- An empty table with room for `capacity` entries in its hash part. -/
def empty (capacity : Nat) : Table := ⟨#[], HashPart.empty capacity, none⟩

/-! ## reading -/

/-- The position in the array part that an integer key has. -/
def slot? (t : Table) (key : Int64) : Option Nat :=
  if 1 ≤ key.toInt ∧ key.toInt ≤ t.array.size then some (key.toInt.toNat - 1) else none

def getInt (t : Table) (key : Int64) : Value :=
  match t.slot? key with
  | some i => t.array.getD i .nil
  | none => (t.hash.get? (.integer key)).getD .nil

def getKey (t : Table) : Value → Value
  | .integer n => t.getInt n
  | key => (t.hash.get? key).getD .nil

/-- The value stored under any value; nil and NaN are never present. -/
def rawGet (t : Table) (key : Value) : Value :=
  match key.key? with
  | some k => t.getKey k
  | none => .nil

def contains (t : Table) (key : Value) : Bool := !(t.rawGet key).isNil

def length (t : Table) : Nat := t.array.size

def hashLength (t : Table) : Nat := t.hash.live

def isEmpty (t : Table) : Bool := t.array.isEmpty && t.hash.live == 0

/-! ## writing -/

/-- The largest integer, which no key of an array part exceeds. -/
def lastKey : Nat := pow2 63 - 1

/-- Draw the keys that follow the array part out of the hash part, at most `fuel` of them.  The
search stops at the first key without a live entry, whose dead node, if any, is erased, and where
the integers end. -/
def absorbRun : Nat → Array Value → HashPart → Array Value × HashPart
  | 0, array, hash => (array, hash)
  | fuel + 1, array, hash =>
    if array.size < lastKey then
      let (value, hash) := hash.take (Value.count (array.size + 1))
      if value.isNil then (array, hash) else absorbRun fuel (array.push value) hash
    else (array, hash)

/-- After the array part has grown by one: erase the node that its last key may still have, then
draw in the keys that follow.  A node is drawn in at most once. -/
def absorb : Table → Table
  | ⟨array, hash, metatable⟩ =>
    if hash.nodes.isEmpty then ⟨array, hash, metatable⟩
    else
      let (_, hash) := hash.take (Value.count array.size)
      let (array, hash) := absorbRun (hash.nodes.size + 1) array hash
      ⟨array, hash, metatable⟩

/-- Clear the key at a position inside the array part.  The values behind it get nodes in front of
all others: a traversal that is already among the nodes has seen them. -/
def split (t : Table) (i : Nat) : Table :=
  { t with
    array := t.array.extract 0 i
    hash := t.hash.prependRun (i + 2) (t.array.toList.drop (i + 1)) }

/-- Store a value under an integer key, or clear it with nil. -/
def setInt (t : Table) (key : Int64) (value : Value) : Table :=
  match t.slot? key with
  | some i =>
    if !value.isNil then { t with array := t.array.setIfInBounds i value }
    else if i + 1 == t.array.size then { t with array := t.array.pop }
    else t.split i
  | none =>
    if key.toInt = t.array.size + 1 ∧ !value.isNil then
      { t with array := t.array.push value }.absorb
    else { t with hash := t.hash.set (.integer key) value }

def setKey (t : Table) (key value : Value) : Table :=
  match key with
  | .integer n => t.setInt n value
  | key => { t with hash := t.hash.set key value }

/-- Store a value under any value but nil and NaN. -/
def rawSet (t : Table) (key value : Value) : Except BadKey Table :=
  match key.key? with
  | some k => .ok (t.setKey k value)
  | none => .error (if key.isNil then .nil else .nan)

end Table

end LuaMachine
