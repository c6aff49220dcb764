import LuaMachine.Library.Arguments
import LuaMachine.Operation.Access
import LuaMachine.Pattern.Template

/-!
# The string library

Positions in a string count from one; a negative one counts from the end.  `startPlace` and
`endPlace` bring them into range.  The pattern functions are built on `LuaMachine.Pattern.Search`.
-/

namespace LuaMachine.Library.Text

open Arguments

/-! ## positions -/

/-- The first position of a range, at least one. -/
def startPlace (i : Int64) (length : Nat) : Nat :=
  if 0 < i.toInt then i.toInt.toNat
  else if i = 0 ∨ i.toInt < -(length : Int) then 1
  else (length + i.toInt + 1).toNat

/-- The last position of a range, at most the length. -/
def endPlace (j : Int64) (length : Nat) : Nat :=
  if (length : Int) < j.toInt then length
  else if 0 ≤ j.toInt then j.toInt.toNat
  else if j.toInt < -(length : Int) then 0
  else (length + j.toInt + 1).toNat

def substring (s : Bytes) (i j : Int64) : Bytes :=
  let first := startPlace i s.size
  let last := endPlace j s.size
  if last < first then #[] else s.slice (first - 1) last

/-! ## characters -/

def len (vs : List Value) : Except Failure (List Value) := do
  return [Value.count (← bytes vs 1 "len").size]

def sub (vs : List Value) : Except Failure (List Value) := do
  let s ← bytes vs 1 "sub"
  let i ← integerOr vs 2 "sub" 1
  let j ← integerOr vs 3 "sub" (-1)
  return [.string (substring s i j)]

def byte (vs : List Value) : Except Failure (List Value) := do
  let s ← bytes vs 1 "byte"
  let i ← integerOr vs 2 "byte" 1
  let j ← integerOr vs 3 "byte" i
  return (substring s i j).toList.map fun b => Value.count b.toNat

/-- The byte that the argument at a position gives. -/
def charOf (v : Value) (i : Nat) : Except Failure UInt8 := do
  let n ← integerOf (some v) i "char"
  if n < 0 || 255 < n then throw (.argument i "char" .valueRange)
  return n.toInt.toNat.toUInt8

def char (vs : List Value) : Except Failure (List Value) := do
  let bs ← (vs.zipIdx 1).mapM fun (v, i) => charOf v i
  return [.string bs.toArray]

def lower (vs : List Value) : Except Failure (List Value) := do
  return [.string (← bytes vs 1 "lower").lower]

def upper (vs : List Value) : Except Failure (List Value) := do
  return [.string (← bytes vs 1 "upper").upper]

def reverse (vs : List Value) : Except Failure (List Value) := do
  return [.string (← bytes vs 1 "reverse").reverse]

def maxSize : Nat := 2147483647

/-- A string with `n` copies of another one after it. -/
def followedBy (piece : Bytes) (s : Bytes) : Nat → Bytes
  | 0 => s
  | n + 1 => followedBy piece (s ++ piece) n

/-- `n` copies of a string with a separator between them. -/
def copies (s sep : Bytes) : Nat → Bytes
  | 0 => #[]
  | n + 1 => if s.isEmpty && sep.isEmpty then #[] else followedBy (sep ++ s) s n

def rep (vs : List Value) : Except Failure (List Value) := do
  let s ← bytes vs 1 "rep"
  let n ← integer vs 2 "rep"
  let sep ← bytesOrEmpty vs 3 "rep"
  let n := n.toInt.toNat
  if maxSize < (s.size + sep.size) * n then throw (.complaint .tooLarge)
  return [.string (copies s sep n)]

/-! ## patterns -/

/-- A fault of a pattern as a failure. -/
def pattern {α : Type} : Except PatternError α → Except Failure α
  | .ok a => .ok a
  | .error e => .error (.pattern e)

/-- Subject, pattern and place of a search, counted from zero; no place past the end. -/
def search (vs : List Value) (f : String) : Except Failure (Bytes × Bytes × Option Nat) := do
  let s ← bytes vs 1 f
  let p ← bytes vs 2 f
  let init := startPlace (← integerOr vs 3 f 1) s.size
  return (s, p, if init ≤ s.size + 1 then some (init - 1) else none)

def find (vs : List Value) : Except Failure (List Value) := do
  let (s, p, init) ← search vs "find"
  match init with
  | none => return [.nil]
  | some init =>
    if ((get? vs 4).getD .nil).truthy || Pattern.isPlain p then
      match Pattern.findPlain s p init with
      | some i => return [Value.count (i + 1), Value.count (i + p.size)]
      | none => return [.nil]
    else
      match ← pattern (Pattern.find s p init) with
      | some m =>
        return Value.count (m.start + 1) :: Value.count m.stop :: m.captures.map (·.value s)
      | none => return [.nil]

def matching (vs : List Value) : Except Failure (List Value) := do
  let (s, p, init) ← search vs "match"
  match init with
  | none => return [.nil]
  | some init =>
    match ← pattern (Pattern.find s p init) with
    | some m => return m.values s
    | none => return [.nil]

def gmatch (vs : List Value) : Action (List Value) := do
  let s ← bytes vs 1 "gmatch"
  let p ← bytes vs 2 "gmatch"
  let i ← integerOr vs 3 "gmatch" 1
  let init := startPlace i s.size - 1
  return [← Action.newFunction (.matches s p (Cursor.start (min init (s.size + 1))))]

def nextMatch (f : FunctionId) (s p : Bytes) (c : Cursor) : Action (List Value) := do
  let (r, c) := c.next s p
  Action.update (·.setFunction f (.matches s p c))
  match ← pattern r with
  | some m => return m.values s
  | none => return [.nil]

/-- The text that a replacement value stands for; nil and false keep the match. -/
def replacement (v : Value) : Except Failure (Option Bytes) :=
  if !v.truthy then .ok none
  else
    match v.text? with
    | some s => .ok (some s)
    | none => .error (.complaint (.replacement v.ty))

/-- What a match is replaced with: by a template, a table of replacements, or a function. -/
def replace (s : Bytes) (by' : Value) (m : Match) : Action (Option Bytes) := do
  match by' with
  | .table _ => replacement (← Action.index by' (Value.first (m.values s)))
  | .function f => replacement (Value.first (← Action.callFunction f (m.values s)))
  | _ => return some (← pattern (Template.expand (by'.text?.getD #[]) s m))

/-- Replace matches, in order. -/
def gsub (vs : List Value) : Action (List Value) := do
  let s ← bytes vs 1 "gsub"
  let p ← bytes vs 2 "gsub"
  let by' := Value.nth vs 2
  let limit ← if isOmitted vs 4 then pure none
    else do pure (some (← integer vs 4 "gsub").toInt.toNat)
  match by' with
  | .string _ | .integer _ | .float _ | .table _ | .function _ => pure ()
  | _ => Action.fail (.argument 3 "gsub" (.expected "string/function/table" by'.ty))
  let (text, n) ← Pattern.substituteBy (fun e => Action.fail (.pattern e)) (replace s by') s p limit
  return [.string text, Value.count n]

end LuaMachine.Library.Text
