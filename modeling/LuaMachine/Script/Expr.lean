import LuaMachine.Metamethod

/-!
# Scripts

A script is host code for the machine: expressions that make values, call functions and apply the
operations of the machine directly.  An expression gives a list of values.  Where one value is
needed the first one is taken; in an argument list every expression but the last gives one value and
the last one gives all of its own.

* `TableMethod`, `Operation`   what can be applied to evaluated operands;
* `Expr`                       expressions.
-/

namespace LuaMachine

/-- Raw operations on a table, without metamethods. -/
inductive TableMethod where
  | get | getInt | getName | set | setInt | setName
  | contains | length | isEmpty | hashLength | next
  | push | insert | remove | values | keys | entries
  | getMetatable | hasMetatable | setMetatable
deriving DecidableEq, Repr

/-- Operations on evaluated operands. -/
inductive Operation where
  /-- A new table with room for entries. -/
  | newTable
  /-- The value at a path of names from the globals. -/
  | lookup (path : List String)
  | getGlobal (name : String)
  | setGlobal (name : String)
  /-- Call the value at a path of names from the globals. -/
  | callGlobal (path : List String)
  | call
  /-- Call a function without looking for a metamethod. -/
  | callFunction
  /-- Call, and keep the first result. -/
  | callFirst
  | index
  | indexName (name : String)
  | newIndex
  | length
  | rawLength
  | equal
  | less
  | lessEqual
  | rawEqual
  | concat
  | concatAll
  | tostring
  | pairs
  | ipairs
  | metamethod (m : Metamethod)
  | metatable
  | table (m : TableMethod)
  | createThread
  | wrapThread
  | resumeThread
  | threadStatus
  | yieldThread
  | runningThread
  | yieldable
  | add
  | sub
  | mul
  | negate
  /-- Give back the operands. -/
  | values
  /-- Record the operands in the log. -/
  | out
  /-- Leave the current function with the operands. -/
  | leave
  | raise
  /-- Abort the current coroutine; no protected call catches it. -/
  | crash (text : Bytes)
deriving DecidableEq, Repr

inductive Expr where
  | literal (v : Value)
  /-- Variables shared by the whole program. -/
  | getShared (name : String)
  | setShared (name : String) (e : Expr)
  /-- Variables of the current function invocation. -/
  | getLocal (name : String)
  | setLocal (name : String) (e : Expr)
  /-- All arguments of the current function. -/
  | arguments
  /-- One argument of the current function, counted from one. -/
  | argument (i : Nat)
  /-- A new table: a list of values, then entries stored in order. -/
  | table (items keys values : List Expr)
  /-- A new function. -/
  | function (body : List Expr)
  /-- Apply an operation.  The first operands give one value each, the rest is an argument list. -/
  | apply (op : Operation) (single rest : List Expr)
  /-- Run an iterator triple and call a function on each round, until it gives false. -/
  | each (triple function : Expr)
  | and (a b : Expr)
  | or (a b : Expr)
  /-- Evaluate in order; the values of the last. -/
  | sequence (es : List Expr)
  | branch (condition yes no : Expr)
  | whileLoop (condition : Expr) (body : List Expr)
  /-- Count a local variable from one integer to another. -/
  | forLoop (name : String) (start stop : Expr) (body : List Expr)
deriving Inhabited

def Expr.nothing : Expr := .sequence []

end LuaMachine
