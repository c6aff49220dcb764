import LuaMachine.Action

/-!
# Calling values

A value that is no function is called through its `__call` handler, which gets the value in front of
the arguments.  The handler may itself need a handler.
-/

namespace LuaMachine

/-- What calling a value comes to: a function with its full arguments. -/
inductive Callee where
  | function (f : FunctionId) (arguments : List Value)
  | failure (f : Failure)
deriving DecidableEq, Repr

/-- Find the function behind a value along `__call` handlers, at most `fuel` of them. -/
def Heap.calleeWithin (h : Heap) : Nat → Value → List Value → Callee
  | 0, _, _ => .failure (.complaint .callChain)
  | fuel + 1, v, vs =>
    match h.metamethod? v .call with
    | none => .failure (.operand .call v.ty)
    | some (.function f) => .function f (v :: vs)
    | some handler => h.calleeWithin fuel handler (v :: vs)

/-- Find the function that a call of a value runs. -/
def Heap.callee (h : Heap) (v : Value) (vs : List Value) : Callee :=
  match v with
  | .function f => .function f vs
  | _ => h.calleeWithin Heap.chainLimit v vs

namespace Action

def call (v : Value) (vs : List Value) : Action (List Value) := do
  match (← heap).callee v vs with
  | .function f vs => callFunction f vs
  | .failure f => fail f

/-- Call a value and keep the first result. -/
def callFirst (v : Value) (vs : List Value) : Action Value := return Value.first (← call v vs)

end Action

end LuaMachine
