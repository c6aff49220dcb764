import LuaMachine.Library.Arguments
import LuaMachine.Operation.Access
import LuaMachine.Operation.Compare

/-!
# The table library

Tables as sequences: joining, inserting, removing, packing, unpacking and sorting.

* `fieldsThrough`                       the fields of a table at an inclusive range of keys;
* `mergeAt`, `mergePass`, `sortWidths`   a stable merge sort whose comparison may do anything;
* `concat`, `insert`, `remove`, `pack`, `unpack`, `sort`   the functions of the library.
-/

namespace LuaMachine.Library.Sequence

open Arguments

def lengthOf (t : TableId) (f : String) : Action Int64 := do
  match (← Action.length (.table t)).integer? with
  | some n => return n
  | none => Action.complain (.lengthNotInteger f)

def integerOrLength (vs : List Value) (i : Nat) (t : TableId) (f : String) : Action Int64 := do
  if isOmitted vs i then lengthOf t f else integer vs i f

/-- How many integers there are from `i` to `j`. -/
def rangeSize (i j : Int64) : Nat := (j.toInt - i.toInt + 1).toNat

/-- The difference of two integers, or the bound of their range that it passes. -/
def saturatingSub (a b : Int64) : Int64 :=
  let d := a.toInt - b.toInt
  if d < Int64.minValue.toInt then Int64.minValue
  else if Int64.maxValue.toInt < d then Int64.maxValue
  else a - b

/-- The fields of a table from key `k` to the key `last`, after those already read, which come in
reverse.  The key behind `last` is never made. -/
def fieldsThrough (t : Value) (last k : Int64) (before : List Value) : Action (List Value) :=
  if k < last then do
    let v ← Action.index t (.integer k)
    fieldsThrough t last (k + 1) (v :: before)
  else if k = last then do
    let v ← Action.index t (.integer k)
    return (v :: before).reverse
  else return before.reverse
termination_by (last.toInt - k.toInt).toNat
decreasing_by
  have hlt := Int64.lt_iff_toInt_lt.mp ‹k < last›
  have hlast := last.toInt_lt
  have hk := k.le_toInt
  rw [Int64.toInt_add, show (1 : Int64).toInt = 1 from rfl,
    Int.bmod_eq_of_le (by omega) (by omega)]
  omega

/-- The texts of the `n` fields of a table from `i` on, joined to what is already written.  The
first field that is neither a string nor a number is named by its index. -/
def joinFrom (t : Value) (sep : Bytes) (i : Int) (written : Bytes) : Nat → Action Bytes
  | 0 => return written
  | n + 1 => do
    let v ← Action.index t (.integer (Int64.ofInt i))
    match v.text? with
    | none => Action.complain (.concatValue (Int64.ofInt i))
    | some s =>
      let written := written ++ s
      joinFrom t sep (i + 1) (if n == 0 then written else written ++ sep) n

def concat (vs : List Value) : Action (List Value) := do
  let t ← table vs 1 "concat"
  let sep ← bytesOrEmpty vs 2 "concat"
  let i ← integerOr vs 3 "concat" 1
  let j ← integerOrLength vs 4 t "concat"
  return [.string (← joinFrom (.table t) sep i.toInt #[] (rangeSize i j))]

-- A position below one becomes a large unsigned number, so that one comparison tests both ends.
def insert (vs : List Value) : Action (List Value) := do
  let t ← table vs 1 "insert"
  let n := Int64.ofNat (← Action.table t).length
  match vs with
  | [_, v] => Action.modifyTable t (·.push v)
  | [_, _, v] =>
    let position ← integer vs 2 "insert"
    if n.toUInt64 + 1 ≤ position.toUInt64 - 1 then
      Action.fail (.argument 2 "insert" .positionRange)
    Action.insertAt t position v
  | _ => Action.complain .insertArity
  return []

def remove (vs : List Value) : Action (List Value) := do
  let t ← table vs 1 "remove"
  let table ← Action.table t
  let n := Int64.ofNat table.length
  let position ← integerOr vs 2 "remove" n
  if position ≠ n ∧ n.toUInt64 < position.toUInt64 - 1 then
    Action.fail (.argument 2 "remove" .positionRange)
  if position < 1 ∨ n < position then
    Action.modifyTable t (·.setInt position .nil)
    return [table.getInt position]
  return [← Action.removeAt t position]

def pack (vs : List Value) : Action (List Value) := do
  let table := (Table.ofList vs).setKey (.text "n") (Value.count vs.length)
  return [← Action.newTable table]

def maxUnpacked : Int64 := 0x100000

def unpack (vs : List Value) : Action (List Value) := do
  let t ← table vs 1 "unpack"
  let i ← integerOr vs 2 "unpack" 1
  let j ← integerOrLength vs 3 t "unpack"
  if j < i then return []
  if maxUnpacked ≤ saturatingSub j i then Action.complain .tooManyResults
  fieldsThrough (.table t) j i []

/-! ## sorting -/

section
variable {α : Type} {m : Type → Type} [Monad m]

/-- Merge the values from `l` to `mid` and those from `r` to `stop`, after what is already merged.  A
value on the right goes first only if it is less. -/
def mergeAt (less : α → α → m Bool) (vs : Array α) {mid stop : Nat} (hmid : mid ≤ vs.size)
    (hstop : stop ≤ vs.size) (l r : Nat) (merged : Array α) : m (Array α) :=
  if h : l < mid ∧ r < stop then do
    if ← less vs[r] vs[l] then mergeAt less vs hmid hstop l (r + 1) (merged.push vs[r])
    else mergeAt less vs hmid hstop (l + 1) r (merged.push vs[l])
  else return merged ++ vs.extract l mid ++ vs.extract r stop
termination_by (mid - l) + (stop - r)

/-- Merge each run of `width` values with its neighbour, from `start` on; the last runs may be
shorter. -/
def mergePass (less : α → α → m Bool) (vs : Array α) {width : Nat} (hw : 0 < width) (start : Nat)
    (merged : Array α) : m (Array α) :=
  if start < vs.size then do
    let mid := min (start + width) vs.size
    let stop := min (start + 2 * width) vs.size
    let merged ← mergeAt less vs (Nat.min_le_right (start + width) _)
      (Nat.min_le_right (start + 2 * width) _) start mid merged
    mergePass less vs hw stop merged
  else return merged
termination_by vs.size - start

/-- Merge neighbours until one run is as wide as all `len` values. -/
def sortWidths (less : α → α → m Bool) (len : Nat) {width : Nat} (hw : 0 < width) (vs : Array α) :
    m (Array α) :=
  if width < len then do
    let vs ← mergePass less vs hw 0 #[]
    sortWidths less len (Nat.mul_pos Nat.two_pos hw) vs
  else return vs
termination_by len - width

/-- Sort values, starting from runs of one. -/
def sorted (less : α → α → m Bool) (xs : List α) : m (List α) :=
  return (← sortWidths less xs.length Nat.one_pos xs.toArray).toList

end

/-- Store values at `1, 2, …`. -/
def storeAll (t : Table) (vs : List Value) : Table :=
  (vs.zipIdx 1).foldl (fun t (v, i) => t.setInt (Int64.ofNat i) v) t

/-- The comparison to sort by: a function's, or less. -/
def comparison (by' : Option FunctionId) (a b : Value) : Action Bool :=
  match by' with
  | some f => return (Value.first (← Action.callFunction f [a, b])).truthy
  | none => Action.less a b

/-- Sort the array part of a table.  Nothing is stored before all comparisons are done. -/
def sort (vs : List Value) : Action (List Value) := do
  let t ← table vs 1 "sort"
  let by' ← if isOmitted vs 2 then pure none else some <$> (function vs 2 "sort" : Except _ _)
  let values := (← Action.table t).array.toList
  if values.length ≤ 1 then return []
  let result ← sorted (comparison by') values
  Action.modifyTable t (storeAll · result)
  return []

end LuaMachine.Library.Sequence
