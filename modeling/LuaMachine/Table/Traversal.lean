import LuaMachine.Table

/-!
# Traversing a table

`Table.next` gives the entry after a key: first the array part in order, then the live nodes of the
hash part in theirs.  It also goes on from a key whose entry was cleared during the traversal: from
a dead node to the live node after it, and from a positive integer that has no node to the start of
the hash part, for such a key was in the array part.

`Table.entries` is the whole traversal.
-/

namespace LuaMachine.Table

/-- The first entry of the hash part at a node position from `i` on. -/
def nodeFrom (t : Table) (i : Nat) : Option (Value × Value) :=
  (t.hash.firstFrom i).map fun n => (n.key, n.value)

/-- The first entry at array position `i` or later, then in the hash part. -/
def entryFrom (t : Table) (i : Nat) : Option (Value × Value) :=
  match t.array[i]? with
  | some v => some (Value.count (i + 1), v)
  | none => t.nodeFrom 0

/-- Whether a key may have been in the array part. -/
def wasSlot : Value → Bool
  | .integer n => 1 ≤ n.toInt
  | _ => false

/-- The array position just after a key that is in the array part. -/
def afterSlot? (t : Table) : Value → Option Nat
  | .integer n => (t.slot? n).map (· + 1)
  | _ => none

/-- The entry after a normalised key. -/
def nextKey (t : Table) (key : Value) : Except Complaint (Option (Value × Value)) :=
  match t.afterSlot? key with
  | some i => .ok (t.entryFrom i)
  | none =>
    match t.hash.position? key with
    | some i => .ok (t.nodeFrom (i + 1))
    | none => if wasSlot key then .ok (t.nodeFrom 0) else .error .nextKey

/-- The entry after a key, the first entry after nil, and nothing after the last one. -/
def next (t : Table) (key : Value) : Except Complaint (Option (Value × Value)) :=
  match key with
  | .nil => .ok (t.entryFrom 0)
  | _ =>
    match key.key? with
    | some k => t.nextKey k
    | none => .error .nextKey

/-- The entries that a traversal from a key meets, at most `fuel` of them; a failure ends it. -/
def entriesAfter (t : Table) : Nat → Value → List (Value × Value)
  | 0, _ => []
  | fuel + 1, key =>
    match t.next key with
    | .ok (some (k, v)) => (k, v) :: t.entriesAfter fuel k
    | _ => []

/-- All entries in traversal order.  There are as many as array slots and live nodes. -/
def entries (t : Table) : List (Value × Value) :=
  t.entriesAfter (t.array.size + t.hash.nodes.size) .nil

end LuaMachine.Table
