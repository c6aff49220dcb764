import LuaMachine.Operation.Call

/-!
# Concatenation and text

Strings and numbers are joined by their texts, everything else by `__concat`.  The text of a table
is what `__tostring` says, or its label from `__name`.
-/

namespace LuaMachine.Action

def concat (a b : Value) : Action Value := do
  match a.text?, b.text? with
  | some s, some t => return .string (s ++ t)
  | _, _ =>
    let h ← heap
    match (h.metamethod? a .concat).or (h.metamethod? b .concat) with
    | some handler => callFirst handler [a, b]
    | none => fail (.operands .concatenate a.ty b.ty)

/-- Concatenate a list of values from the left. -/
def concatAll : List Value → Action Value
  | [] => return .text ""
  | v :: vs => vs.foldlM concat v

def tostring (v : Value) : Action Value := do
  match ← metamethod? v .tostring with
  | some handler =>
    match ← callFirst handler [v] with
    | .string s => return .string s
    | .integer n => return .string (Value.integer n).display
    | .float x => return .string (Value.float x).display
    | _ => complain .textNotString
  | none =>
    match v, ← metamethod? v .name with
    | .string s, _ => return .string s
    | .table _, some (.string label) => return .string (Value.referenceText (Utf8.lossy label))
    | _, _ => return .string v.display

end LuaMachine.Action
