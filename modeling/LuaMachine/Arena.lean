import LuaMachine.Table

/-!
# Tables with counted handles

An arena holds tables by counted handles: handles held outside all tables, and handles stored in
tables, as array values, keys, values or metatable.  A table with no handle is reclaimed: it goes,
and the handles it held go with it, which may reclaim further tables.  Tables that hold each other
are never reclaimed this way; `LuaMachine.Arena.Sweep` is for those that do so through their
metatables.

* `Table.references`    the handles that a table holds;
* `Arena.handles`       all handles there are;
* `Arena.drop`          release a handle held outside;
* `Arena.put`           store a handle in a table;
* `Arena.link`          set a metatable.
-/

namespace LuaMachine

/-- The table that a value refers to. -/
def Value.reference? : Value → Option TableId
  | .table t => some t
  | _ => none

namespace HashPart

def nodeReferences (h : HashPart) : List TableId :=
  h.nodes.toList.flatMap fun n => n.key.reference?.toList ++ n.value.reference?.toList

/-- The handles in the keys of dead nodes, which go when these nodes are dropped. -/
def deadReferences (h : HashPart) : List TableId :=
  h.nodes.toList.filterMap fun n => if n.live then none else n.key.reference?

/-- The handles that the index holds beside those in the nodes. -/
def indexReferences (h : HashPart) : List TableId :=
  match h.index with
  | some ix => ix.keys.filterMap Value.reference?
  | none => []

end HashPart

namespace Table

/-- The handles that emptying a table hands over: metatable, array values, and nodes. -/
def contents (t : Table) : List TableId :=
  t.metatable.toList ++ (t.array.toList.filterMap Value.reference? ++ t.hash.nodeReferences)

def references (t : Table) : List TableId := t.contents ++ t.hash.indexReferences

end Table

structure Arena where
  /-- The tables that are not reclaimed, the newest first. -/
  tables : List (TableId × Table)
  /-- How many tables were ever made. -/
  made : Nat
  /-- The handles held outside all tables. -/
  outside : List TableId
  /-- Tables registered as members of a ring of metatables, held weakly. -/
  roots : List TableId
  /-- The number of roots at which the rings are swept. -/
  sweepAt : Nat

namespace Arena

/-- The least number of roots at which the rings are swept. -/
def sweepThreshold : Nat := 64

def empty : Arena := ⟨[], 0, [], [], sweepThreshold⟩

/-- A table; a reclaimed one is empty. -/
def table (a : Arena) (t : TableId) : Table := (a.tables.lookup t).getD (Table.empty 0)

def setTable (a : Arena) (t : TableId) (v : Table) : Arena :=
  { a with tables := a.tables.map fun (u, old) => (u, if u = t then v else old) }

def discard (a : Arena) (t : TableId) : Arena :=
  { a with tables := a.tables.filter (·.1 != t) }

def stored (a : Arena) : List TableId := a.tables.flatMap (·.2.references)

/-- All handles, outside and in tables. -/
def handles (a : Arena) : List TableId := a.outside ++ a.stored

/-- Whether a table has a handle. -/
def isAlive (a : Arena) (t : TableId) : Bool :=
  a.outside.contains t || a.tables.any (·.2.references.contains t)

/-! ## handles outside -/

/-- A new table with one handle. -/
def create (a : Arena) : Arena × TableId :=
  let t : TableId := ⟨a.made⟩
  ({ a with
      tables := (t, Table.empty 0) :: a.tables
      made := a.made + 1
      outside := t :: a.outside }, t)

def hold (a : Arena) (t : TableId) : Arena := { a with outside := t :: a.outside }

/-- Reclaim those of the given tables that have no handle, and go on with what they held.  Each
table is reclaimed at most once, so there are no more tables to look at than handles. -/
def reclaim : Nat → List TableId → Arena → Arena
  | 0, _, a => a
  | _, [], a => a
  | fuel + 1, t :: ts, a =>
    if a.isAlive t then reclaim fuel ts a
    else reclaim fuel ((a.table t).references ++ ts) (a.discard t)

/-- Reclaim what has lost its last handle, starting from given tables. -/
def settle (a : Arena) (ts : List TableId) : Arena :=
  if ts.all a.isAlive then a else reclaim (ts.length + a.stored.length) ts a

def drop (a : Arena) (t : TableId) : Arena :=
  { a with outside := a.outside.erase t }.settle [t]

/-! ## handles in tables -/

/-- Store a handle, or nil, under a key.  The handle that it displaces is released, and so are those
in the keys of the dead nodes that a new key drops. -/
def put (a : Arena) (t : TableId) (key value : Value) : Arena :=
  let old := (a.table t).rawGet key
  let dead := (a.table t).hash.deadReferences
  match (a.table t).rawSet key value with
  | .ok table => (a.setTable t table).settle (old.reference?.toList ++ dead)
  | .error _ => a

def metatable? (a : Arena) (t : TableId) : Option TableId := (a.table t).metatable

/-- Set a metatable.  The handle to the old one is released. -/
def link (a : Arena) (t : TableId) (mt : Option TableId) : Arena :=
  let old := a.metatable? t
  (a.setTable t { a.table t with metatable := mt }).settle old.toList

end Arena

end LuaMachine
