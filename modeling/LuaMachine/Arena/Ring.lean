import LuaMachine.Arena

/-!
# Rings of metatables

Following metatables from a table either ends or runs into a ring.  An arena has finitely many
tables, so a walk that has not ended after that many links has met all it ever will.

* `Arena.reaches`       whether a table lies on the walk from another one;
* `Arena.closesRing`    whether a new metatable would close a ring;
* `Arena.ring?`         the members of the ring that a table lies on.
-/

namespace LuaMachine.Arena

/-- Whether the walk from a table meets `goal` within `fuel` tables. -/
def reachesWithin (a : Arena) (goal : TableId) : Nat → TableId → Bool
  | 0, _ => false
  | fuel + 1, t =>
    t == goal || match a.metatable? t with
      | some next => a.reachesWithin goal fuel next
      | none => false

/-- Whether `goal` lies on the walk from a table, the table itself included. -/
def reaches (a : Arena) (t goal : TableId) : Bool := a.reachesWithin goal (a.tables.length + 1) t

/-- Whether giving `owner` a metatable closes a ring: `owner` is reached from it. -/
def closesRing (a : Arena) (owner mt : TableId) : Bool := a.reaches mt owner

/-- The tables from `t` up to the one whose metatable is `root`, within `fuel` tables. -/
def membersUpTo (a : Arena) (root : TableId) : Nat → TableId → Option (List TableId)
  | 0, _ => none
  | fuel + 1, t =>
    match a.metatable? t with
    | none => none
    | some next =>
      if next == root then some [t] else (a.membersUpTo root fuel next).map (t :: ·)

/-- The members of the ring that a table lies on, in link order, starting with it. -/
def ring? (a : Arena) (root : TableId) : Option (List TableId) :=
  a.membersUpTo root (a.tables.length + 1) root

end LuaMachine.Arena
