import LuaMachine.Pattern.Trail
import LuaMachine.Value

/-!
# Searching with patterns

* `Pattern.isPlain`, `Pattern.findPlain`   patterns without special bytes, and plain search;
* `Pattern.find`          the first match at or after a place;
* `Cursor.next`           one match after the other, as an iterator;
* `Draft`                 a substitution on its way through the subject;
* `Pattern.substituteBy`  a substitution, up to a limit, in a monad that gives the replacements.

A leading `^` ties `find` and a substitution to their first place; for an iterator it is a byte like
any other.  Neither an iterator nor a substitution takes a match that ends where the one before it
ended.
-/

namespace LuaMachine

/-- A capture of a finished match: a stretch of the subject, or a place counted from one. -/
inductive Captured where
  | span (start stop : Nat)
  | position (n : Nat)
deriving DecidableEq, Repr

/-- A match: from `start` up to, not including, `stop`. -/
structure Match where
  start : Nat
  stop : Nat
  captures : List Captured
deriving DecidableEq, Repr

def Capture.finish : Capture → Except PatternError Captured
  | ⟨start, .closed length⟩ => .ok (.span start (start + length))
  | ⟨start, .position⟩ => .ok (.position (start + 1))
  | ⟨_, .unfinished⟩ => .error .unfinishedCapture

/-- The captures of a match that succeeded with this trail. -/
def Trail.captured (t : Trail) : Except PatternError (List Captured) :=
  (t.slots.toList.take t.level).mapM Capture.finish

/-! ## the values of captures -/

def Captured.value (s : Bytes) : Captured → Value
  | .span i j => .string (s.slice i j)
  | .position n => Value.count n

def Match.whole (s : Bytes) (m : Match) : Bytes := s.slice m.start m.stop

/-- The captures of a match, or the whole match if the pattern has none. -/
def Match.values (s : Bytes) (m : Match) : List Value :=
  if m.captures.isEmpty then [.string (m.whole s)] else m.captures.map (·.value s)

namespace Pattern

/-! ## plain patterns -/

/-- The bytes with a meaning of their own: `% . [ * + - ? ^ $ ( ) ]`. -/
def isSpecial (b : UInt8) : Bool :=
  b == 0x25 || b == 0x2e || b == 0x5b || b == 0x2a || b == 0x2b || b == 0x2d || b == 0x3f
    || b == 0x5e || b == 0x24 || b == 0x28 || b == 0x29 || b == 0x5d

def isPlain (p : Bytes) : Bool := !p.any isSpecial

def standsAt (s p : Bytes) (i : Nat) : Bool := i + p.size ≤ s.size && s.agree i p 0 p.size

/-- The first of the next `n + 1` places at which a text stands. -/
def firstPlace (s p : Bytes) (i : Nat) : Nat → Option Nat
  | 0 => if standsAt s p i then some i else none
  | n + 1 => if standsAt s p i then some i else firstPlace s p (i + 1) n

def findPlain (s p : Bytes) (init : Nat) : Option Nat :=
  if s.size < init then none else firstPlace s p init (s.size - init)

/-! ## find -/

/-- Whether a pattern is tied to the first place. -/
def isAnchored (p : Bytes) : Bool := p[0]? == some 0x5e

/-- The items of a pattern without its anchor. -/
def items (p : Bytes) : Except PatternError (List Item) :=
  Item.readAll (if isAnchored p then p.toList.drop 1 else p.toList)

/-- The first match at one of the next `n + 1` places. -/
def firstMatch (s : Bytes) (is : List Item) (i : Nat) :
    Nat → Trail → Except PatternError (Option Match)
  | n, t =>
    match attempt s is i t with
    | .fault e => .error e
    | .matched stop t => t.captured.map fun cs => some ⟨i, stop, cs⟩
    | .failed t =>
      match n with
      | 0 => .ok none
      | n + 1 => firstMatch s is (i + 1) n t

/-- The first match by the matcher, at the place `init` alone if the pattern is anchored. -/
def findMatch (s p : Bytes) (init : Nat) : Except PatternError (Option Match) := do
  let is ← items p
  firstMatch s is init (if isAnchored p then 0 else s.size - init) Trail.empty

/-- The first match at or after `init`.  A plain pattern is searched as it stands. -/
def find (s p : Bytes) (init : Nat) : Except PatternError (Option Match) :=
  if s.size < init then .ok none
  else if isPlain p then .ok ((findPlain s p init).map fun i => ⟨i, i + p.size, []⟩)
  else findMatch s p init

end Pattern

/-! ## iterating -/

/-- The state of an iterator over matches: where to look next, and where the last match ended. -/
structure Cursor where
  place : Nat
  last : Option Nat
deriving DecidableEq, Repr

namespace Cursor

def start (init : Nat) : Cursor := ⟨init, none⟩

/-- The first of the next `n` places with a match that does not end at `last`, with its end and the
trail. -/
def scan (s : Bytes) (is : List Item) (last : Option Nat) (i : Nat) :
    Nat → Trail → Except PatternError (Option (Nat × Nat × Trail))
  | 0, _ => .ok none
  | n + 1, t =>
    match attempt s is i t with
    | .fault e => .error e
    | .failed t => scan s is last (i + 1) n t
    | .matched stop t =>
      if some stop = last then scan s is last (i + 1) n t else .ok (some (i, stop, t))

/-- The next match and the cursor after it.  A match with an unfinished capture is passed and
reported as a fault; any other fault leaves the cursor where it was. -/
def next (s p : Bytes) (c : Cursor) : Except PatternError (Option Match) × Cursor :=
  match Item.readAll p.toList with
  | .error e => (.error e, c)
  | .ok is =>
    match scan s is c.last c.place (s.size + 1 - c.place) Trail.empty with
    | .error e => (.error e, c)
    | .ok none => (.ok none, { c with place := s.size + 1 })
    | .ok (some (i, stop, t)) => (t.captured.map fun cs => some ⟨i, stop, cs⟩, ⟨stop, some stop⟩)

end Cursor

/-! ## substituting -/

namespace Pattern

/-- What is found at a place. -/
inductive Round where
  /-- A fault of the pattern. -/
  | fault (e : PatternError)
  /-- No match, or only one that ends where the last one ended. -/
  | pass (t : Trail)
  | found (stop : Nat) (t : Trail) (captures : List Captured)

/-- What is found at a place after a match that ended at `last`. -/
def round (s : Bytes) (is : List Item) (last : Option Nat) (i : Nat) (t : Trail) : Round :=
  match attempt s is i t with
  | .fault e => .fault e
  | .failed t => .pass t
  | .matched stop t =>
    if some stop = last then .pass t
    else
      match t.captured with
      | .error e => .fault e
      | .ok cs => .found stop t cs

end Pattern

structure Draft where
  trail : Trail
  place : Nat
  /-- Where the last match ended. -/
  last : Option Nat
  written : Bytes
  /-- How many matches have been replaced. -/
  count : Nat

namespace Draft

def start : Draft := ⟨Trail.empty, 0, none, #[], 0⟩

/-- A match is replaced, or kept where there is no replacement. -/
def replaced (d : Draft) (s : Bytes) (stop : Nat) (t : Trail) (r : Option Bytes) : Draft :=
  ⟨t, stop, some stop, d.written ++ r.getD (s.slice d.place stop), d.count + 1⟩

/-- The byte at the place is kept. -/
def passed (d : Draft) (b : UInt8) (t : Trail) : Draft :=
  { d with trail := t, place := d.place + 1, written := d.written.push b }

/-- The rest of the subject is kept. -/
def finished (d : Draft) (s : Bytes) : Bytes × Nat :=
  (d.written ++ s.slice (min d.place s.size) s.size, d.count)

end Draft

namespace Pattern

section
variable {m : Type → Type} [Monad m] (fault : PatternError → m (Bytes × Nat))
  (replace : Match → m (Option Bytes))

/-- The rounds of a substitution from a draft on, until the limit is reached, the subject ends, or
an anchored pattern has had its one round.  A round replaces a match or passes a byte. -/
def substituteFrom (s : Bytes) (is : List Item) (anchored : Bool) (limit : Option Nat) :
    Nat → Draft → m (Bytes × Nat)
  | 0, d => return d.finished s
  | rounds + 1, d =>
    if limit.any (· ≤ d.count) then return d.finished s
    else
      match round s is d.last d.place d.trail with
      | .fault e => fault e
      | .found stop t cs => do
        let d := d.replaced s stop t (← replace ⟨d.place, stop, cs⟩)
        if anchored then return d.finished s else substituteFrom s is anchored limit rounds d
      | .pass t =>
        match s[d.place]? with
        | none => return d.finished s
        | some b =>
          let d := d.passed b t
          if anchored then return d.finished s else substituteFrom s is anchored limit rounds d

/-- A substitution by an action for each match: the new text, and how many matches were replaced.
A round that does not go on in the subject replaces an empty match, at most one for each place, so
twice as many rounds as places are enough. -/
def substituteBy (s p : Bytes) (limit : Option Nat) : m (Bytes × Nat) :=
  match items p with
  | .error e => fault e
  | .ok is =>
    substituteFrom fault replace s is (isAnchored p) limit (2 * (s.size + 1)) Draft.start

end

end Pattern

end LuaMachine
