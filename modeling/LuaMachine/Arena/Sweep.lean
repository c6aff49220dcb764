import LuaMachine.Arena.Ring

/-!
# Sweeping rings of metatables

Tables on a ring of metatables keep each other alive.  When a metatable closes a ring, a member is
registered.  A sweep looks at each registered ring and releases those to which nothing outside the
ring holds a handle: their members are emptied.  What they held stays alive until the sweep is over,
so a ring that only a released one refers to is released by a later sweep.

* `Arena.isHeld`         whether a ring is referred to from outside it;
* `Arena.collect`        a sweep, and how many tables it released;
* `Arena.setMetatable`   set a metatable, register the ring it closes, and sweep when it is time.
-/

namespace LuaMachine.Arena

/-- The handles that the given tables hold. -/
def inside (a : Arena) (members : List TableId) : List TableId :=
  members.flatMap fun m => (a.table m).references

/-- Whether some member of a ring has a handle that is not stored in a member. -/
def isHeld (a : Arena) (members : List TableId) : Bool :=
  let inner := a.inside members
  let all := a.handles
  members.any fun m => inner.count m < all.count m

/-- Empty tables.  The handles they held are held outside for the time being. -/
def drain (a : Arena) (members : List TableId) : Arena :=
  let held := members.flatMap fun m => (a.table m).contents
  let a := members.foldl (fun a m => a.setTable m (Table.empty 0)) a
  { a with outside := held ++ a.outside }

structure Sweeping where
  arena : Arena
  /-- The handles taken out of released tables. -/
  garbage : List TableId
  /-- The roots kept, one for each ring. -/
  kept : List TableId
  released : Nat

/-- Look at the ring of one root.  A root that is gone, or no longer on a ring, is forgotten. -/
def sweepRoot (s : Sweeping) (root : TableId) : Sweeping :=
  if !s.arena.isAlive root then s
  else
    match s.arena.ring? root with
    | none => s
    | some members =>
      if s.arena.isHeld members then
        if s.kept.any members.contains then s else { s with kept := s.kept ++ [root] }
      else
        { s with
          arena := s.arena.drain members
          garbage := s.garbage ++ members.flatMap fun m => (s.arena.table m).contents
          released := s.released + members.length }

/-- Sweep the registered rings, and give the number of tables released. -/
def collect (a : Arena) : Arena × Nat :=
  let s := a.roots.foldl sweepRoot ⟨a, [], [], 0⟩
  let a := { s.arena with roots := s.kept, sweepAt := max (s.kept.length * 2) sweepThreshold }
  (s.garbage.foldl drop a, s.released)

/-- Register a member of a ring, and sweep if enough have come together. -/
def register (a : Arena) (t : TableId) : Arena :=
  let a := { a with roots := a.roots ++ [t] }
  if a.sweepAt ≤ a.roots.length then a.collect.1 else a

/-- Set or clear a metatable, and register the ring that this closes. -/
def setMetatable (a : Arena) (t : TableId) (mt : Option TableId) : Arena :=
  let closes := mt.any (a.closesRing t)
  let a := a.link t mt
  if closes then a.register t else a

end LuaMachine.Arena
