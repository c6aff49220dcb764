import LuaMachine.Pattern.Item

/-!
# Matching at a place

The matcher tries the items of a pattern from a place in the subject and backtracks over the
repetitions.  A `Trail`, the captures met so far in a fixed number of slots, is threaded through all
choices: a choice that fails hands it on with the same captures as before, and the one that succeeds
leaves the captures of the match in it.  How many searches are open is an argument, not
part of the trail, so that leaving a search needs no undoing.

* `Trail`            capture slots, and how many are in use;
* `Attempt`          how a search ends: with a match, without one, or with a fault of the pattern;
* `farthestFirst`, `nearestFirst`   the choices of a repetition, in their order;
* `Attempt.follow`   match a list of items from a place;
* `attempt`          match a pattern from a place with a cleared trail.
-/

namespace LuaMachine

inductive Extent where
  | closed (length : Nat)
  /-- The capture of a position. -/
  | position
  | unfinished
deriving DecidableEq, Repr

structure Capture where
  start : Nat
  extent : Extent
deriving DecidableEq, Repr

structure Trail where
  slots : Array Capture
  /-- How many slots hold captures. -/
  level : Nat
deriving DecidableEq, Repr

namespace Trail

def maxCaptures : Nat := 32

def empty : Trail := ⟨Array.replicate maxCaptures ⟨0, .unfinished⟩, 0⟩

/-- The trail with no capture in use. -/
def cleared (t : Trail) : Trail := { t with level := 0 }

def slot (t : Trail) (i : Nat) : Capture := t.slots.getD i ⟨0, .unfinished⟩

/-- Begin a capture in the next slot. -/
def push (t : Trail) (c : Capture) : Trail :=
  { t with slots := t.slots.setIfInBounds t.level c, level := t.level + 1 }

/-- Change how far the capture in a slot reaches. -/
def reach (t : Trail) (i : Nat) (e : Extent) : Trail :=
  { t with slots := t.slots.modify i ({ · with extent := e }) }

/-- The last of the first `n` slots whose capture is unfinished. -/
def lastUnfinished? (t : Trail) : Nat → Option Nat
  | 0 => none
  | n + 1 => if (t.slot n).extent = .unfinished then some n else t.lastUnfinished? n

end Trail

inductive Attempt where
  /-- The pattern is at fault, and no other choice is tried. -/
  | fault (e : PatternError)
  | failed (t : Trail)
  /-- The match ends at a place. -/
  | matched (stop : Nat) (t : Trail)
deriving DecidableEq, Repr

/-! ## places in the subject -/

namespace Subject

/-- Whether the byte at a place exists and passes a test. -/
@[inline]
def at? (s : Bytes) (p : UInt8 → Bool) (i : Nat) : Bool :=
  match s[i]? with
  | some b => p b
  | none => false

/-- The first of `n` places from `i` on whose byte fails a test, or the place after them. -/
@[specialize]
def runEnd (s : Bytes) (p : UInt8 → Bool) (i : Nat) : Nat → Nat
  | 0 => i
  | n + 1 => if at? s p i then runEnd s p (i + 1) n else i

/-- How many bytes in a row pass a test from a place on. -/
@[inline]
def run (s : Bytes) (p : UInt8 → Bool) (i : Nat) : Nat := runEnd s p i (s.size - i) - i

/-- The place after the `y` that balances the open `x`s, if there is one.  A byte that is both
closes. -/
def balanced? (s : Bytes) (x y : UInt8) (i opened : Nat) : Option Nat :=
  if h : i < s.size then
    if s[i] == y then
      if opened ≤ 1 then some (i + 1) else balanced? s x y (i + 1) (opened - 1)
    else if s[i] == x then balanced? s x y (i + 1) (opened + 1)
    else balanced? s x y (i + 1) opened
  else none
termination_by s.size - i

/-- The end of a balanced stretch that starts at a place with an `x`. -/
def balance? (s : Bytes) (x y : UInt8) (i : Nat) : Option Nat :=
  if at? s (· == x) i then balanced? s x y (i + 1) 1 else none

/-- The byte before a place, zero at the start. -/
def before (s : Bytes) (i : Nat) : UInt8 := if i == 0 then 0 else s.getD (i - 1) 0

/-- The byte at a place, zero at the end. -/
def after (s : Bytes) (i : Nat) : UInt8 := s.getD i 0

/-- Whether a set is entered at a place: the byte before is outside, the byte after inside. -/
def frontier (s : Bytes) (set : Charset) (i : Nat) : Bool :=
  !set.test (before s i) && set.test (after s i)

end Subject

/-! ## searches -/

namespace Attempt

/-- The number of searches that may be open at once. -/
def maxDepth : Nat := 200

/-- Search one level deeper than `depth` searches. -/
@[inline]
def nested (depth : Nat) (search : Trail → Attempt) (t : Trail) : Attempt :=
  if maxDepth ≤ depth then .fault .tooComplex else search t

/-- Try the places `i + n`, …, `i`, the farthest first. -/
@[specialize]
def farthestFirst (search : Nat → Trail → Attempt) (i : Nat) : Nat → Trail → Attempt
  | 0, t => search i t
  | n + 1, t =>
    match search (i + (n + 1)) t with
    | .failed t => farthestFirst search i n t
    | r => r

/-- Try the places `i`, `i + 1`, …, at most `n` after the first, the nearest first.  A place is
passed only if its byte passes a test. -/
@[specialize]
def nearestFirst (s : Bytes) (p : UInt8 → Bool) (search : Nat → Trail → Attempt) (i : Nat) :
    Nat → Trail → Attempt
  | 0, t => search i t
  | n + 1, t =>
    match search i t with
    | .failed t => if Subject.at? s p i then nearestFirst s p search (i + 1) n t else .failed t
    | r => r

/-- Begin a capture and go on; a failure gives the slot back. -/
@[inline]
def capturing (c : Capture) (search : Trail → Attempt) (t : Trail) : Attempt :=
  let level := t.level
  if Trail.maxCaptures ≤ level then .fault .tooManyCaptures
  else
    match search (t.push c) with
    | .failed t => .failed { t with level }
    | r => r

/-- Close the capture opened last at a place and go on; a failure opens it again. -/
@[inline]
def closing (i : Nat) (search : Trail → Attempt) (t : Trail) : Attempt :=
  match t.lastUnfinished? t.level with
  | none => .fault .invalidCapture
  | some n =>
    match search (t.reach n (.closed (i - (t.slot n).start))) with
    | .failed t => .failed (t.reach n .unfinished)
    | r => r

/-- The place after the text of an earlier capture, if that text stands at a place.  The capture of
a position never does. -/
def referenced (s : Bytes) (n i : Nat) (t : Trail) : Except PatternError (Option Nat) :=
  let c := t.slot (n - 1)
  if n == 0 || t.level < n || c.extent = .unfinished then .error (.invalidIndex n)
  else
    match c.extent with
    | .closed length =>
      if length ≤ s.size - i && s.agree i s c.start length then .ok (some (i + length))
      else .ok none
    | _ => .ok none

/-- Match a list of items from a place with `depth` searches open; the result is the end of the
match.  What follows a repetition, a capture, a balance, a frontier or a reference is searched one
level deeper. -/
def follow (s : Bytes) : List Item → Nat → Nat → Trail → Attempt
  | [], _, i, t => .matched i t
  | .element e .once :: rest, depth, i, t =>
    if Subject.at? s e.test i then follow s rest depth (i + 1) t else .failed t
  | .element e .zeroOrMore :: rest, depth, i, t =>
    farthestFirst (fun j => nested depth (follow s rest (depth + 1) j)) i (Subject.run s e.test i) t
  | .element e .oneOrMore :: rest, depth, i, t =>
    match Subject.run s e.test i with
    | 0 => .failed t
    | n + 1 => farthestFirst (fun j => nested depth (follow s rest (depth + 1) j)) (i + 1) n t
  | .element e .fewest :: rest, depth, i, t =>
    nearestFirst s e.test (fun j => nested depth (follow s rest (depth + 1) j)) i (s.size - i) t
  | .element e .optional :: rest, depth, i, t =>
    farthestFirst (fun j => nested depth (follow s rest (depth + 1) j)) i
      (if Subject.at? s e.test i then 1 else 0) t
  | .opening :: rest, depth, i, t =>
    capturing ⟨i, .unfinished⟩ (nested depth (follow s rest (depth + 1) i)) t
  | .position :: rest, depth, i, t =>
    capturing ⟨i, .position⟩ (nested depth (follow s rest (depth + 1) i)) t
  | .closing :: rest, depth, i, t => closing i (nested depth (follow s rest (depth + 1) i)) t
  | .ending :: _, _, i, t => if i == s.size then .matched i t else .failed t
  | .balance x y :: rest, depth, i, t =>
    match Subject.balance? s x y i with
    | some j => nested depth (follow s rest (depth + 1) j) t
    | none => .failed t
  | .frontier set :: rest, depth, i, t =>
    if Subject.frontier s set i then nested depth (follow s rest (depth + 1) i) t else .failed t
  | .reference n :: rest, depth, i, t =>
    match referenced s n i t with
    | .ok (some j) => nested depth (follow s rest (depth + 1) j) t
    | .ok none => .failed t
    | .error e => .fault e

end Attempt

/-- Match a pattern from a place with a cleared trail. -/
def attempt (s : Bytes) (items : List Item) (i : Nat) (t : Trail) : Attempt :=
  Attempt.nested 0 (Attempt.follow s items 1 i) t.cleared

end LuaMachine
