import LuaMachine.Session

/-!
# Transcripts

A transcript shows values so that they can be compared between runs.  A reference is shown by a
number: `1, 2, …` in the order in which references are first shown.  A table is shown by its number
alone, or in depth: its array part, its other entries in traversal order, and its metatable; in one
list of results each table is shown in depth once.

* `Shown`              what is shown of a value;
* `Numbering`          the references shown so far;
* `Transcript.brief`   show a value by number, `Transcript.showDeep` in depth.
-/

namespace LuaMachine

inductive Shown where
  /-- A value that is no reference. -/
  | plain (v : Value)
  | table (number : Nat)
  | deep (number : Nat) (array : List Shown) (entries : List (Shown × Shown))
      (metatable : Option Shown)
  | function (number : Nat) (name : String)
  | thread (number : Nat) (status : Status)

abbrev Numbering := List Value

namespace Transcript

/-- Showing values while references are given numbers. -/
abbrev Showing := StateM Numbering

/-- The number of a reference, a new one if it has none. -/
def number (v : Value) : Showing Nat := do
  let seen ← get
  match seen.idxOf? v with
  | some i => return i + 1
  | none =>
    set (seen ++ [v])
    return seen.length + 1

/-- Show a value by number, a thread with a given status. -/
def showWith (h : Heap) (v : Value) (status : Status) : Showing Shown := do
  match v with
  | .table _ => return .table (← number v)
  | .function f => return .function (← number v) (h.function f).name
  | .thread _ => return .thread (← number v) status
  | _ => return .plain v

def brief (h : Heap) (r : Roster) (v : Value) : Showing Shown :=
  showWith h v (match v with
    | .thread c => r.status c
    | _ => .dead)

def showSighting (h : Heap) (s : Sighting) : Showing Shown :=
  showWith h s.value (s.status.getD .dead)

/-- Show a value in depth, given the tables that were shown so before.  Each level below shows
another table, so there are at most as many levels as tables. -/
def showDeepWithin (h : Heap) (r : Roster) : Nat → Value → StateT (List TableId) Showing Shown
  | 0, v => brief h r v
  | fuel + 1, v => do
    match v with
    | .table t =>
      let n ← number v
      if t ∈ (← get) then return .table n
      modify (t :: ·)
      let table := h.table t
      let array ← table.array.toList.mapM (showDeepWithin h r fuel)
      let entries ← (table.entries.drop table.array.size).mapM fun (k, v) => do
        let k ← showDeepWithin h r fuel k
        let v ← showDeepWithin h r fuel v
        return (k, v)
      let metatable ← table.metatable.mapM fun m => showDeepWithin h r fuel (.table m)
      return .deep n array entries metatable
    | _ => brief h r v

def showDeep (h : Heap) (r : Roster) (vs : List Value) : Showing (List Shown) := do
  return (← (vs.mapM (showDeepWithin h r (h.tables.size + 1))).run []).1

def showAll (h : Heap) (r : Roster) (vs : List Value) : Showing (List Shown) := vs.mapM (brief h r)

end Transcript

end LuaMachine
