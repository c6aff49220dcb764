import LuaMachine.Table

/-!
# Tables as sequences

* `Table.ofList`     the values of a list at `1, 2, …`, nils left out;
* `Table.push`       store a value at the border;
* `Table.insertAt`   open a gap at a position, shifting what follows up by one;
* `Table.removeAt`   close the gap at a position, shifting what follows down by one.
-/

namespace LuaMachine.Table

/-- The values of a list at `1, 2, …`; a nil leaves its key absent. -/
def ofList (vs : List Value) : Table :=
  (vs.zipIdx 1).foldl
    (fun t (v, i) => if v.isNil then t else t.setInt (Int64.ofNat i) v) (empty 0)

def push (t : Table) (v : Value) : Table := t.setInt (Int64.ofNat (t.length + 1)) v

/-- Move the values at `position, …, position + count - 1` up by one, the last one first. -/
def shiftUp (t : Table) (position : Nat) : Nat → Table
  | 0 => t
  | count + 1 =>
    let i := position + count
    (t.setInt (Int64.ofNat (i + 1)) (t.getInt (Int64.ofNat i))).shiftUp position count

/-- Whether a position is one to insert at: from `1` to one past the border, which has to be an
integer itself. -/
def hasRoomAt (t : Table) (position : Int64) : Bool :=
  1 ≤ position && position ≤ Int64.ofNat t.length + 1

/-- Put a value at a position from `1` to one past the border, and shift what follows up.  Nil
opens a gap. -/
def insertAt (t : Table) (position : Int64) (v : Value) : Table :=
  let p := position.toInt.toNat
  if v.isNil then (t.shiftUp p (t.length + 1 - p)).setInt position .nil
  else { t with array := t.array.insertIdxIfInBounds (p - 1) v }.absorb

/-- Close the gap that the value at a position up to the border leaves. -/
def removeAt (t : Table) (position : Int64) : Table :=
  match t.slot? position with
  | some i => { t with array := t.array.eraseIdxIfInBounds i }
  | none => t

end LuaMachine.Table
