import LuaMachine.Value

/-!
# Metamethods

The fields of a metatable that operations of the machine consult.
-/

namespace LuaMachine

inductive Metamethod where
  | index | newIndex | length | equal | less | lessEqual | concat | call | pairs | ipairs
  | tostring | name | metatable
deriving DecidableEq, Repr

namespace Metamethod

def fieldName : Metamethod → String
  | .index => "__index"
  | .newIndex => "__newindex"
  | .length => "__len"
  | .equal => "__eq"
  | .less => "__lt"
  | .lessEqual => "__le"
  | .concat => "__concat"
  | .call => "__call"
  | .pairs => "__pairs"
  | .ipairs => "__ipairs"
  | .tostring => "__tostring"
  | .name => "__name"
  | .metatable => "__metatable"

def key (m : Metamethod) : Value := .text m.fieldName

def all : List Metamethod :=
  [.index, .newIndex, .length, .equal, .less, .lessEqual, .concat, .call, .pairs, .ipairs,
    .tostring, .name, .metatable]

def named? (s : String) : Option Metamethod := all.find? (·.fieldName == s)

end Metamethod

end LuaMachine
