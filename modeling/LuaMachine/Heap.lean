import LuaMachine.Failure
import LuaMachine.Function
import LuaMachine.Table.Sequence
import LuaMachine.Table.Traversal

/-!
# The heap

Everything that a running program can change apart from the control of its coroutines: tables,
functions, variables of scripts, and the log.  References are positions; nothing is ever removed.

* `Heap.table`, `Heap.setTable`, `Heap.addTable`   tables by reference;
* `Heap.metatable?`, `Heap.metamethod?`            what a value's metatable says;
* `Heap.lookup`, `Heap.place`                      the walk along `__index` and `__newindex`.
-/

namespace LuaMachine

abbrev Variables := List (String × Value)

/-- The value of a variable, nil if it was never set. -/
def Variables.get (vs : Variables) (name : String) : Value := (vs.lookup name).getD .nil

def Variables.set (vs : Variables) (name : String) (v : Value) : Variables :=
  (name, v) :: vs.filter (·.1 != name)

/-- A value as it was when it was recorded: for a thread, its status at that moment. -/
structure Sighting where
  value : Value
  status : Option Status
deriving DecidableEq, Repr

structure Heap where
  tables : Array Table
  functions : Array Function
  shared : Variables
  /-- The local variables of each function invocation. -/
  locals : Array Variables
  /-- What scripts recorded, the latest first. -/
  log : List (List Sighting)

namespace Heap

def nextFunction : FunctionId := ⟨0⟩

def ipairsFunction : FunctionId := ⟨1⟩

def globals : TableId := ⟨0⟩

/-- Room for the globals that a loaded machine has. -/
def globalsCapacity : Nat := 64

/-- A heap whose only table is the table of globals, which holds itself as `_G`. -/
def initial : Heap :=
  { tables := #[(Table.empty globalsCapacity).setKey (.text "_G") (.table globals)]
    functions := #[.builtin .next, .builtin .ipairsStep]
    shared := []
    locals := #[]
    log := [] }

/-! ## tables and functions -/

def table (h : Heap) (t : TableId) : Table := h.tables.getD t.index default

def setTable (h : Heap) (t : TableId) (v : Table) : Heap :=
  { h with tables := h.tables.setIfInBounds t.index v }

def modifyTable (h : Heap) (t : TableId) (f : Table → Table) : Heap :=
  { h with tables := h.tables.modify t.index f }

def nextTable (h : Heap) : TableId := ⟨h.tables.size⟩

def addTable (h : Heap) (t : Table) : Heap := { h with tables := h.tables.push t }

def function (h : Heap) (f : FunctionId) : Function := h.functions.getD f.index default

def setFunction (h : Heap) (f : FunctionId) (v : Function) : Heap :=
  { h with functions := h.functions.setIfInBounds f.index v }

def nextFunctionId (h : Heap) : FunctionId := ⟨h.functions.size⟩

def addFunction (h : Heap) (f : Function) : Heap := { h with functions := h.functions.push f }

/-! ## metatables -/

def metatable? (h : Heap) : Value → Option TableId
  | .table t => (h.table t).metatable
  | _ => none

/-- The metamethod of a value, if its metatable has one that is not nil. -/
def metamethod? (h : Heap) (v : Value) (m : Metamethod) : Option Value := do
  let mt ← h.metatable? v
  let handler := (h.table mt).rawGet m.key
  if handler.isNil then none else some handler

/-! ## walking along handlers -/

/-- How many tables a walk visits before it counts as endless. -/
def chainLimit : Nat := 100

/-- Where a walk for a key ends. -/
inductive Found where
  /-- With a value, nil if the key is nowhere. -/
  | value (v : Value)
  /-- With a function to be called on the table it was met at. -/
  | handler (f : FunctionId) (owner : Value)
  | failure (f : Failure)
deriving DecidableEq, Repr

/-- Look a key up in a value and along its `__index` handlers, visiting at most `fuel` tables. -/
def lookupWithin (h : Heap) (key : Value) : Nat → Value → Found
  | 0, _ => .failure .indexChain
  | fuel + 1, current =>
    match current with
    | .table t =>
      let v := (h.table t).rawGet key
      if !v.isNil then .value v
      else
        match h.metamethod? current .index with
        | none => .value .nil
        | some (.function f) => .handler f current
        | some other => h.lookupWithin key fuel other
    | other => .failure (.operand .index other.ty)

def lookup (h : Heap) (v key : Value) : Found := h.lookupWithin key chainLimit v

/-- Where a walk to store a key ends. -/
inductive Target where
  /-- At a table that takes the entry itself. -/
  | table (t : TableId)
  /-- With a function to be called on the table it was met at. -/
  | handler (f : FunctionId) (owner : Value)
  | failure (f : Failure)
deriving DecidableEq, Repr

/-- The table that takes an entry for a key, along `__newindex` handlers, visiting at most `fuel`
tables.  A table that has the key takes it, and so does one without a handler. -/
def placeWithin (h : Heap) (key : Value) : Nat → Value → Target
  | 0, _ => .failure .newIndexChain
  | fuel + 1, current =>
    match current with
    | .table t =>
      if (h.table t).contains key then .table t
      else
        match h.metamethod? current .newIndex with
        | none => .table t
        | some (.function f) => .handler f current
        | some other => h.placeWithin key fuel other
    | other => .failure (.operand .index other.ty)

def place (h : Heap) (v key : Value) : Target := h.placeWithin key chainLimit v

/-! ## variables -/

def nextFrame (h : Heap) : Nat := h.locals.size

def addFrame (h : Heap) : Heap := { h with locals := h.locals.push [] }

def getLocal (h : Heap) (frame : Nat) (name : String) : Value :=
  Variables.get (h.locals.getD frame []) name

def setLocal (h : Heap) (frame : Nat) (name : String) (v : Value) : Heap :=
  { h with locals := h.locals.modify frame (Variables.set · name v) }

end Heap

end LuaMachine
