import LuaMachine.Operation.Call

/-!
# Comparing values

Numbers and strings compare by themselves, everything else through metamethods.  Two integers are
compared exactly, other pairs of numbers as floats.
-/

namespace LuaMachine

/-- How two values of types with an order of their own compare; incomparable ones, as with NaN,
have no order. -/
inductive PrimitiveOrder where
  | ordered (o : Ordering)
  | unordered
deriving DecidableEq, Repr

def PrimitiveOrder.isLess : PrimitiveOrder → Bool
  | .ordered .lt => true
  | _ => false

def PrimitiveOrder.isLessEqual : PrimitiveOrder → Bool
  | .ordered .lt | .ordered .eq => true
  | _ => false

def Double.order (x y : Double) : PrimitiveOrder :=
  if x.lt y then .ordered .lt
  else if y.lt x then .ordered .gt
  else if x.eq y then .ordered .eq
  else .unordered

/-- The order of two values without metamethods, if their types have one. -/
def Value.order? : Value → Value → Option PrimitiveOrder
  | .integer a, .integer b => some (.ordered (compare a.toInt b.toInt))
  | .string a, .string b => some (.ordered (Bytes.compare a b))
  | a, b =>
    match a.double?, b.double? with
    | some x, some y => some (x.order y)
    | _, _ => none

namespace Action

/-- Ask a comparison metamethod of either operand, the first one first. -/
def compareBy (m : Metamethod) (a b : Value) : Action (Option Bool) := do
  let h ← heap
  match (h.metamethod? a m).or (h.metamethod? b m) with
  | some handler => return some (← callFirst handler [a, b]).truthy
  | none => return none

/-- Equality.  Only two different tables are asked for a metamethod. -/
def equal (a b : Value) : Action Bool := do
  if a.rawEq b then return true
  match a, b with
  | .table _, .table _ => return (← compareBy .equal a b).getD false
  | _, _ => return false

def less (a b : Value) : Action Bool := do
  match a.order? b with
  | some o => return o.isLess
  | none =>
    match ← compareBy .less a b with
    | some r => return r
    | none => fail (.operands .compare a.ty b.ty)

/-- At most.  Without a metamethod of its own it is the converse of less, negated. -/
def lessEqual (a b : Value) : Action Bool := do
  match a.order? b with
  | some o => return o.isLessEqual
  | none =>
    match ← compareBy .lessEqual a b with
    | some r => return r
    | none =>
      match ← compareBy .less b a with
      | some r => return !r
      | none => fail (.operands .compare a.ty b.ty)

end Action

end LuaMachine
