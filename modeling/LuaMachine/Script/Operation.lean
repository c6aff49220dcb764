import LuaMachine.Library.Coroutines
import LuaMachine.Operation.Compare
import LuaMachine.Operation.Iterate
import LuaMachine.Operation.Text

/-!
# What the operations of a script do

`Operation.run` applies an operation to its evaluated operands; an operand that was not given counts
as nil.
-/

namespace LuaMachine

/-! ## tables -/

def Action.setMetatable (t : TableId) (mt : Value) : Action Unit :=
  Action.modifyTable t fun table =>
    { table with metatable := match mt with
      | .table m => some m
      | _ => none }

/-- The integer of an operand, zero if it is none. -/
def Value.integerD (v : Value) : Int64 := v.integer?.getD 0

def TableMethod.run (m : TableMethod) (t : TableId) (vs : List Value) : Action (List Value) := do
  let table ← Action.table t
  let a := Value.nth vs 0
  let b := Value.nth vs 1
  match m with
  | .get => return [table.rawGet a]
  | .getInt => return [table.getInt a.integerD]
  | .getName => return [table.getKey a]
  | .set => do Action.rawSet t a b; return []
  | .setInt => do Action.modifyTable t (·.setInt a.integerD b); return []
  | .setName => do Action.modifyTable t (·.setKey a b); return []
  | .contains => return [.boolean (table.contains a)]
  | .length => return [Value.count table.length]
  | .isEmpty => return [.boolean table.isEmpty]
  | .hashLength => return [Value.count table.hashLength]
  | .next =>
    match table.next a with
    | .ok (some (k, v)) => return [k, v]
    | .ok none => return []
    | .error c => Action.complain c
  | .push => do Action.modifyTable t (·.push a); return []
  | .insert => do Action.insertAt t a.integerD b; return []
  | .remove => return [← Action.removeAt t a.integerD]
  | .values => return table.array.toList
  | .keys => return table.entries.map (·.1)
  | .entries => return table.entries.flatMap fun (k, v) => [k, v]
  | .getMetatable => return [(table.metatable.map Value.table).getD .nil]
  | .hasMetatable => return [.boolean table.metatable.isSome]
  | .setMetatable => do Action.setMetatable t a; return []

/-! ## operations -/

/-- The value at a path of names, starting from the globals. -/
def Action.lookupPath (path : List String) : Action Value :=
  path.foldlM Action.indexName (.table Heap.globals)

/-- Call the value at a path of names; an absent one is named in the failure. -/
def Action.callPath (path : List String) (vs : List Value) : Action (List Value) := do
  let f ← Action.lookupPath path
  if f.isNil then Action.complain (.nilGlobal (Bytes.ofString (".".intercalate path)))
  Action.call f vs

/-- Record values in the log, a thread with its status of the moment. -/
def Action.record (vs : List Value) : Action Unit := do
  let r ← Action.roster
  let sighting (v : Value) : Sighting :=
    match v with
    | .thread c => ⟨v, some (r.status c)⟩
    | _ => ⟨v, none⟩
  Action.update fun h => { h with log := vs.map sighting :: h.log }

/-- Apply an integer operation that wraps around. -/
def integers (f : Int64 → Int64 → Int64) (a b : Value) : List Value :=
  [.integer (f a.integerD b.integerD)]

def Operation.run (op : Operation) (vs : List Value) : Action (List Value) := do
  let a := Value.nth vs 0
  let b := Value.nth vs 1
  match op with
  | .newTable => return [← Action.newTable (Table.empty b.integerD.toInt.toNat)]
  | .lookup path => return [← Action.lookupPath path]
  | .getGlobal name => return [(← Action.table Heap.globals).getKey (.text name)]
  | .setGlobal name => do Action.modifyTable Heap.globals (·.setKey (.text name) a); return []
  | .callGlobal path => Action.callPath path vs
  | .call => Action.call a (vs.drop 1)
  | .callFunction =>
    match a with
    | .function f => Action.callFunction f (vs.drop 1)
    | _ => Action.fail (.operand .call a.ty)
  | .callFirst => return [← Action.callFirst a (vs.drop 1)]
  | .index => return [← Action.index a b]
  | .indexName name => return [← Action.indexName a name]
  | .newIndex => do Action.newIndex a b (Value.nth vs 2); return []
  | .length => return [← Action.length a]
  | .rawLength => return [(((← Action.heap).rawLength? a).map Value.count).getD .nil]
  | .equal => return [.boolean (← Action.equal a b)]
  | .less => return [.boolean (← Action.less a b)]
  | .lessEqual => return [.boolean (← Action.lessEqual a b)]
  | .rawEqual => return [.boolean (a.rawEq b)]
  | .concat => return [← Action.concat a b]
  | .concatAll => return [← Action.concatAll vs]
  | .tostring => return [← Action.tostring a]
  | .pairs => return (← Action.pairs a).toList
  | .ipairs => return (← Action.ipairs a).toList
  | .metamethod m => return [(← Action.metamethod? a m).getD .nil]
  | .metatable => return [(((← Action.heap).metatable? a).map Value.table).getD .nil]
  | .table m =>
    match a with
    | .table t => m.run t (vs.drop 1)
    | _ => Action.fail (.operand .index a.ty)
  | .createThread =>
    match a with
    | .function f => return [.thread (← Action.create f)]
    | _ => Action.fail (.operand .call a.ty)
  | .wrapThread =>
    match a with
    | .function f => return [← Library.Coroutines.wrapped f]
    | _ => Action.fail (.operand .call a.ty)
  | .resumeThread =>
    match a with
    | .thread c => Action.resumeThread c (vs.drop 1)
    | _ => Action.fail (.operand .call a.ty)
  | .threadStatus =>
    match a with
    | .thread c => return [.text ((← Action.roster).status c).name]
    | _ => Action.fail (.operand .call a.ty)
  | .yieldThread => Action.yieldValues vs
  | .runningThread => return [((← Action.roster).current.map Value.thread).getD .nil]
  | .yieldable => return [.boolean (← Action.roster).current.isSome]
  | .add => return integers (· + ·) a b
  | .sub => return integers (· - ·) a b
  | .mul => return integers (· * ·) a b
  | .negate => return [.boolean !a.truthy]
  | .values => return vs
  | .out => do Action.record vs; return []
  | .leave => Action.exit (.left vs)
  | .raise => Action.fail (.raised a)
  | .crash text => Action.exit (.crashed text)

end LuaMachine
