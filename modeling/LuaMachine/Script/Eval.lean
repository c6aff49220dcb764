import LuaMachine.Script.Operation

/-!
# Evaluating scripts

`Expr.eval` gives the action of an expression in a scope, `Expr.evalEach` those of a list.  Operands
are evaluated from left to right.

Loops that need not end are jobs of the machine: `Expr.whileRound` is one round of a loop.
-/

namespace LuaMachine

namespace Action

/-- The first value of an action. -/
def one (a : Action (List Value)) : Action Value := return Value.first (← a)

/-- Run actions in order, and keep the values of the last. -/
def sequence : List (Action (List Value)) → Action (List Value)
  | [] => return []
  | [a] => a
  | a :: as => do
    let _ ← a
    sequence as

/-- The values of an argument list: one from each action but the last, all from the last. -/
def argumentList : List (Action (List Value)) → Action (List Value)
  | [] => return []
  | [a] => a
  | a :: as => do
    let v ← one a
    return v :: (← argumentList as)

/-- One value from each action. -/
def oneOfEach (as : List (Action (List Value))) : Action (List Value) := as.mapM one

/-- Store entries in a table: key, value, and then the entry, for one pair after the other. -/
def storeEach (t : TableId) : List (Action (List Value) × Action (List Value)) → Action Unit
  | [] => return ()
  | (k, v) :: rest => do
    let k ← one k
    let v ← one v
    rawSet t k v
    storeEach t rest

/-- Run a body `n` times with a local variable counting up from `i`. -/
def countUp (frame : Nat) (name : String) (body : Action (List Value)) (i : Int) :
    Nat → Action (List Value)
  | 0 => return []
  | n + 1 => do
    update (·.setLocal frame name (.integer (Int64.ofInt i)))
    let _ ← body
    countUp frame name body (i + 1) n

end Action

namespace Expr

mutual

def eval (s : Scope) : Expr → Action (List Value)
  | .literal v => return [v]
  | .getShared name => .read fun h => .done [h.shared.get name]
  | .setShared name e => do
    let v ← (eval s e).one
    Action.update fun h => { h with shared := h.shared.set name v }
    return []
  | .getLocal name => .read fun h => .done [h.getLocal s.frame name]
  | .setLocal name e => do
    let v ← (eval s e).one
    Action.update (·.setLocal s.frame name v)
    return []
  | .arguments => return s.arguments
  | .argument i => return [Value.nth s.arguments (i - 1)]
  | .table items keys values => do
    let vs ← Action.argumentList (evalEach s items)
    let h ← Action.heap
    let v ← Action.newTable (Table.ofList vs)
    Action.storeEach h.nextTable ((evalEach s keys).zip (evalEach s values))
    return [v]
  | .function body => return [← Action.newFunction (.script body)]
  | .apply op single rest => do
    let xs ← Action.oneOfEach (evalEach s single)
    let ys ← Action.argumentList (evalEach s rest)
    op.run (xs ++ ys)
  | .each e f => do
    let t := Triple.ofList (← eval s e)
    let f ← (eval s f).one
    Action.perform (.each t.iterator t.state t.control f)
  | .and a b => do
    let v ← (eval s a).one
    if v.truthy then return [← (eval s b).one] else return [v]
  | .or a b => do
    let v ← (eval s a).one
    if v.truthy then return [v] else return [← (eval s b).one]
  | .sequence es => Action.sequence (evalEach s es)
  | .branch condition yes no => do
    let v ← (eval s condition).one
    if v.truthy then eval s yes else eval s no
  | .whileLoop condition body => Action.perform (.whileLoop condition body s)
  | .forLoop name start stop body => do
    let i := (← (eval s start).one).integerD.toInt
    let j := (← (eval s stop).one).integerD.toInt
    Action.countUp s.frame name (Action.sequence (evalEach s body)) i (j - i + 1).toNat

def evalEach (s : Scope) : List Expr → List (Action (List Value))
  | [] => []
  | e :: es => eval s e :: evalEach s es

end

def evalAll (s : Scope) (es : List Expr) : Action (List Value) := Action.sequence (evalEach s es)

/-- Run a body with new local variables. -/
def invoke (body : List Expr) (arguments : List Value) : Action (List Value) :=
  .read fun h => .write (·.addFrame) (evalAll ⟨h.nextFrame, arguments⟩ body)

def whileRound (condition : Expr) (body : List Expr) (s : Scope) : Action Turn := do
  let v ← (eval s condition).one
  if v.truthy then
    let _ ← evalAll s body
    return .again (.whileLoop condition body s)
  else return .finish []

end Expr

end LuaMachine
