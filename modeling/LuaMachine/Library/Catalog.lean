import LuaMachine.Heap

/-!
# The catalogue of libraries

Each library is a name and a list of entries, in the order in which they are stored.  The entries of
the base library become globals; every other library becomes a table among the globals.

* `Catalog.all`   the standard libraries;
* `Heap.load`     a heap with the entries of a library.
-/

namespace LuaMachine

inductive Entry where
  /-- A plain function. -/
  | function (b : Builtin)
  /-- A function that is made when the library is loaded. -/
  | made (b : Builtin)
  /-- A function that exists before any library is loaded. -/
  | shared (f : FunctionId)
  | constant (v : Value)
deriving DecidableEq, Repr

/-- Whether an entry is registered as a function, not as a value. -/
def Entry.isFunction : Entry → Bool
  | .function _ => true
  | _ => false

structure Library where
  name : String
  entries : List (String × Entry)

namespace Catalog

def functions (bs : List Builtin) : List (String × Entry) := bs.map fun b => (b.name, .function b)

def base : Library :=
  { name := "_G"
    entries :=
      functions [.type, .tostring, .tonumber, .pairs, .ipairs, .rawget, .rawset, .rawequal, .rawlen,
        .setmetatable, .getmetatable, .select, .error, .pcall, .assert, .collectgarbage]
      ++ [("next", .shared Heap.nextFunction), ("_VERSION", .constant (.text "Lua 5.4"))] }

def string : Library :=
  { name := "string"
    entries := functions [.byte, .char, .len, .lower, .upper, .rep, .reverse, .sub, .find, .match,
      .gsub, .gmatch] }

def table : Library :=
  { name := "table"
    entries := functions [.concat, .insert, .remove, .pack, .unpack, .sort] }

def coroutine : Library :=
  { name := "coroutine"
    entries := functions [.resume, .yield, .status, .running, .isyieldable]
      ++ [("create", .made .create), ("wrap", .made .wrap)] }

/-- The standard libraries in the order in which they are registered. -/
def all : List Library := [base, string, table, coroutine]

def named? (name : String) : Option Library := all.find? (·.name == name)

end Catalog

namespace Heap

/-- A heap with the value of an entry, and that value. -/
def makeEntry (h : Heap) : Entry → Heap × Value
  | .function b => (h.addFunction (.builtin b), .function h.nextFunctionId)
  | .made b => (h.addFunction (.builtin b), .function h.nextFunctionId)
  | .shared f => (h, .function f)
  | .constant v => (h, v)

def setField (h : Heap) (t : TableId) (name : String) (v : Value) : Heap :=
  h.modifyTable t (·.setKey (.text name) v)

def storeEntries (h : Heap) (t : TableId) (entries : List (String × Entry)) : Heap :=
  entries.foldl (fun h (name, e) => let (h, v) := h.makeEntry e; h.setField t name v) h

/-- Load a library: into the globals themselves, or into a new table among them. -/
def load (h : Heap) (l : Library) : Heap :=
  if l.name == Catalog.base.name then h.storeEntries globals l.entries
  else
    let t := h.nextTable
    ((h.addTable (Table.empty l.entries.length)).storeEntries t l.entries).setField globals l.name
      (.table t)

end Heap

end LuaMachine
