import LuaMachine.Pattern.Template

/-!
# Matching on the bytes of a pattern

The matcher once more, without items: it moves a cursor over the bytes of the pattern and scans them
anew each time it comes by.  No read of a byte or of a slot, no difference and no slice has a default
here.  Where one is out of range, the result is `none`.

* `visits`       the check of a pattern, with the places of the cursor at which it looks for a token;
* `single?`      whether a byte passes the element at the cursor;
* `follow?`      match from the cursor on; a cursor that is not allowed gives `none` as well;
* `extract?`, `values?`, `expand?`   what is made of a match.

A pattern is scanned in three ways that know nothing of each other: the check of a set (`bracket?`),
the end of a set (`setStop`) and the walk over its members (`members?`).
-/

namespace LuaMachine

namespace Bytewise

def minus? (a b : Nat) : Option Nat := if b ≤ a then some (a - b) else none

def slice? (s : Bytes) (i j : Nat) : Option Bytes :=
  if i ≤ j ∧ j ≤ s.size then some (s.slice i j) else none

/-! ## checking a pattern -/

def skipEscape (p : Bytes) (j : Nat) : Nat := if p[j]? = some 0x25 then j + 1 else j

theorem le_skipEscape (p : Bytes) (j : Nat) : j ≤ skipEscape p j := by
  unfold skipEscape
  split <;> omega

/-- The place after the bracket that closes a set, from a member on. -/
def bracket? (p : Bytes) (j : Nat) : Option Nat :=
  if skipEscape p j < p.size then
    if p[skipEscape p j + 1]? = some 0x5d then some (skipEscape p j + 2)
    else bracket? p (skipEscape p j + 1)
  else none
termination_by p.size - j
decreasing_by
  have := le_skipEscape p j
  omega

def firstMember (p : Bytes) (i : Nat) : Nat := if p[i + 1]? = some 0x5e then i + 2 else i + 1

def checkSet (p : Bytes) (i : Nat) : Except PatternError Nat :=
  match bracket? p (firstMember p i) with
  | some e => .ok e
  | none => .error .unclosedSet

/-- The place after the token at a place that starts with a byte. -/
def checkToken (p : Bytes) (i : Nat) (b : UInt8) : Except PatternError Nat :=
  if b = 0x25 then
    match p[i + 1]? with
    | none => .error .endsInEscape
    | some c =>
      if c = 0x62 then
        if p.size ≤ i + 3 then .error .missingDelimiters else .ok (i + 4)
      else if c = 0x66 then
        if p[i + 2]? = some 0x5b then checkSet p (i + 2) else .error .missingFrontierSet
      else .ok (i + 2)
  else if b = 0x5b then checkSet p i
  else .ok (i + 1)

theorem lt_of_bracket? {p : Bytes} {j e : Nat} (h : bracket? p j = some e) : j < e := by
  fun_induction bracket? p j with
  | case1 j hlt hb =>
    cases h
    have := le_skipEscape p j
    omega
  | case2 j hlt hb ih =>
    have := ih h
    have := le_skipEscape p j
    omega
  | case3 j hlt => cases h

theorem checkSet_eq_ok_iff {p : Bytes} {i e : Nat} :
    checkSet p i = .ok e ↔ bracket? p (firstMember p i) = some e := by
  unfold checkSet
  cases bracket? p (firstMember p i) with
  | none => exact ⟨nofun, nofun⟩
  | some e' => simp

theorem lt_of_checkSet {p : Bytes} {i e : Nat} (h : checkSet p i = .ok e) : i < e := by
  have hlt := lt_of_bracket? (checkSet_eq_ok_iff.mp h)
  unfold firstMember at hlt
  split at hlt <;> omega

theorem lt_of_checkToken {p : Bytes} {i e : Nat} {b : UInt8} (h : checkToken p i b = .ok e) :
    i < e := by
  have hset : ∀ i, checkSet p i = .ok e → i < e := fun i => lt_of_checkSet
  unfold checkToken at h
  grind

/-- The places at which the check of a pattern looks for a token, from a place on, and the end. -/
def visits (p : Bytes) (i : Nat) : Except PatternError (List Nat) :=
  if hi : i < p.size then
    match h : checkToken p i p[i] with
    | .error e => .error e
    | .ok j =>
      have : i < j := lt_of_checkToken h
      (visits p j).map (i :: ·)
  else .ok [i]
termination_by p.size - i

/-! ## elements -/

def setStop (p : Bytes) (i : Nat) : Nat :=
  if i < p.size then
    if p.size ≤ skipEscape p i + 1 ∨ p[skipEscape p i + 1]? = some 0x5d then
      min (skipEscape p i + 2) p.size
    else setStop p (skipEscape p i + 1)
  else p.size
termination_by p.size - i
decreasing_by
  have := le_skipEscape p i
  omega

/-- The place after the element at the cursor. -/
def elementEnd? (p : Bytes) (pp : Nat) : Option Nat := do
  let b ← p[pp]?
  if b = 0x25 then return pp + 2
  else if b = 0x5b then return setStop p (firstMember p pp)
  else return pp + 1

/-- Whether one of the members from `i` up to `stop` has a byte, or one before them had it. -/
def members? (p : Bytes) (c : UInt8) (stop i : Nat) (found : Bool) : Option Bool :=
  if i < stop then do
    let b ← p[i]?
    if b = 0x25 ∧ i + 1 < stop then
      let x ← p[i + 1]?
      members? p c stop (i + 2) (found || Escape.test ⟨x⟩ c)
    else
      let dash ← if i + 2 < stop then p[i + 1]? else some 0
      if dash = 0x2d then
        let hi ← p[i + 2]?
        members? p c stop (i + 3) (found || (b ≤ c && c ≤ hi))
      else members? p c stop (i + 1) (found || c == b)
  else some found
termination_by stop - i

def set? (p : Bytes) (pp : Nat) (c : UInt8) : Option Bool := do
  let stop ← minus? (← elementEnd? p pp) 1
  let b ← p[pp + 1]?
  let found ← members? p c stop (if b = 0x5e then pp + 2 else pp + 1) false
  return if b = 0x5e then !found else found

def single? (p : Bytes) (pp : Nat) (c : UInt8) : Option Bool := do
  let b ← p[pp]?
  if b = 0x2e then return true
  else if b = 0x25 then return Escape.test ⟨← p[pp + 1]?⟩ c
  else if b = 0x5b then set? p pp c
  else return c == b

/-! ## searches -/

def at? (s p : Bytes) (pp i : Nat) : Option Bool :=
  if i < s.size then do single? p pp (← s[i]?) else some false

def run? (s p : Bytes) (pp i : Nat) : Nat → Option Nat
  | 0 => some 0
  | n + 1 => do
    if ← at? s p pp i then return (← run? s p pp (i + 1) n) + 1 else return 0

def farthestFirst? (search : Nat → Trail → Option Attempt) (i : Nat) :
    Nat → Trail → Option Attempt
  | 0, t => search i t
  | n + 1, t => do
    match ← search (i + (n + 1)) t with
    | .failed t => farthestFirst? search i n t
    | r => return r

def nearestFirst? (s p : Bytes) (pp : Nat) (search : Nat → Trail → Option Attempt) (i : Nat) :
    Nat → Trail → Option Attempt
  | 0, t => search i t
  | n + 1, t => do
    match ← search i t with
    | .failed t =>
      if ← at? s p pp i then nearestFirst? s p pp search (i + 1) n t else return .failed t
    | r => return r

def capturing? (c : Capture) (search : Trail → Option Attempt) (t : Trail) : Option Attempt :=
  if Trail.maxCaptures ≤ t.level then some (.fault .tooManyCaptures)
  else if t.level < t.slots.size then do
    match ← search (t.push c) with
    | .failed u => return .failed { u with level := t.level }
    | r => return r
  else none

def reach? (t : Trail) (n : Nat) (e : Extent) : Option Trail :=
  if n < t.slots.size then some (t.reach n e) else none

/-- The last of the first `n` slots whose capture is unfinished, if one is. -/
def lastOpen? (t : Trail) : Nat → Option (Option Nat)
  | 0 => some none
  | n + 1 => do
    let c ← t.slots[n]?
    if c.extent = .unfinished then return some n else lastOpen? t n

def closing? (i : Nat) (search : Trail → Option Attempt) (t : Trail) : Option Attempt := do
  match ← lastOpen? t t.level with
  | none => return .fault .invalidCapture
  | some n =>
    let c ← t.slots[n]?
    let length ← minus? i c.start
    match ← search (← reach? t n (.closed length)) with
    | .failed u => return .failed (← reach? u n .unfinished)
    | r => return r

def balanced? (s : Bytes) (x y : UInt8) (i opened : Nat) : Option (Option Nat) :=
  if i < s.size then do
    let b ← s[i]?
    if b = y then
      let opened ← minus? opened 1
      if opened = 0 then return some (i + 1) else balanced? s x y (i + 1) opened
    else if b = x then balanced? s x y (i + 1) (opened + 1)
    else balanced? s x y (i + 1) opened
  else some none
termination_by s.size - i

def before? (s : Bytes) (i : Nat) : Option UInt8 := if i = 0 then some 0 else s[i - 1]?

def after? (s : Bytes) (i : Nat) : Option UInt8 := if i < s.size then s[i]? else some 0

def frontier? (s p : Bytes) (pp i : Nat) : Option Bool := do
  let before ← before? s i
  let after ← after? s i
  if ← single? p pp before then return false else single? p pp after

def referenced? (s : Bytes) (n i : Nat) (t : Trail) : Option (Except PatternError (Option Nat)) :=
  if n = 0 ∨ t.level < n then some (.error (.invalidIndex n))
  else do
    let c ← t.slots[n - 1]?
    match c.extent with
    | .unfinished => return .error (.invalidIndex n)
    | .position => return .ok none
    | .closed length =>
      if (← minus? s.size i) < length then return .ok none
      else if (← slice? s i (i + length)) = (← slice? s c.start (c.start + length)) then
        return .ok (some (i + length))
      else return .ok none

/-- Match from the element at the cursor on: `next` searches one level deeper, from a cursor and a
place, and `again` goes on at the same level. -/
def element? (next again : Nat → Nat → Trail → Option Attempt) (s p : Bytes) (pp i : Nat)
    (t : Trail) : Option Attempt := do
  let ep ← elementEnd? p pp
  let left ← minus? s.size i
  match p[ep]? with
  | some 0x2a => farthestFirst? (next (ep + 1)) i (← run? s p pp i left) t
  | some 0x2b =>
    match ← run? s p pp i left with
    | 0 => return .failed t
    | n + 1 => farthestFirst? (next (ep + 1)) (i + 1) n t
  | some 0x2d => nearestFirst? s p pp (next (ep + 1)) i left t
  | some 0x3f => farthestFirst? (next (ep + 1)) i (if ← at? s p pp i then 1 else 0) t
  | _ => if ← at? s p pp i then again ep (i + 1) t else return .failed t

def escape? (next again : Nat → Nat → Trail → Option Attempt) (s p : Bytes) (pp i : Nat)
    (t : Trail) : Option Attempt := do
  let c ← p[pp + 1]?
  if c = 0x62 then
    let x ← p[pp + 2]?
    let y ← p[pp + 3]?
    if s[i]? = some x then
      match ← balanced? s x y (i + 1) 1 with
      | some j => next (pp + 4) j t
      | none => return .failed t
    else return .failed t
  else if c = 0x66 then
    let ep ← elementEnd? p (pp + 2)
    if ← frontier? s p (pp + 2) i then next ep i t else return .failed t
  else if Bytes.isDigit c then
    match ← referenced? s (← minus? c.toNat 0x30) i t with
    | .ok (some j) => next (pp + 2) j t
    | .ok none => return .failed t
    | .error e => return .fault e
  else element? next again s p pp i t

def step? (next again : Nat → Nat → Trail → Option Attempt) (s p : Bytes) (pp i : Nat)
    (t : Trail) : Option Attempt :=
  if pp < p.size then do
    let b ← p[pp]?
    if b = 0x28 then
      if p[pp + 1]? = some 0x29 then capturing? ⟨i, .position⟩ (next (pp + 2) i) t
      else capturing? ⟨i, .unfinished⟩ (next (pp + 1) i) t
    else if b = 0x29 then closing? i (next (pp + 1) i) t
    else if b = 0x24 ∧ pp + 1 = p.size then
      return if i = s.size then .matched i t else .failed t
    else if b = 0x25 then escape? next again s p pp i t
    else element? next again s p pp i t
  else some (.matched i t)

def nested? (depth : Nat) (search : Trail → Option Attempt) (t : Trail) : Option Attempt :=
  if Attempt.maxDepth ≤ depth then some (.fault .tooComplex) else search t

/-- Match from the cursor on with `depth` searches open.  The cursor must be an allowed one, and go
forward. -/
def follow? (allowed : Nat → Bool) (s p : Bytes) (pp depth i : Nat) (t : Trail) : Option Attempt :=
  if allowed pp then
    step?
      (fun q j t =>
        if _ : pp < q ∧ q ≤ p.size then nested? depth (follow? allowed s p q (depth + 1) j) t
        else none)
      (fun q j t => if _ : pp < q ∧ q ≤ p.size then follow? allowed s p q depth j t else none)
      s p pp i t
  else none
termination_by p.size - pp

def attempt? (allowed : Nat → Bool) (s p : Bytes) (pp i : Nat) (t : Trail) : Option Attempt :=
  nested? 0 (follow? allowed s p pp 1 i) t.cleared

/-! ## what is made of a match -/

/-- The captures of a match, each moved from its slot to the place of the same number. -/
def extract? (t : Trail) : Option (Except PatternError (List Captured)) := do
  let cs ← (List.range t.level).mapM fun n => if n < Trail.maxCaptures then t.slots[n]? else none
  return cs.mapM Capture.finish

def value? (s : Bytes) : Captured → Option Value
  | .span i j => do return .string (← slice? s i j)
  | .position n => some (Value.count n)

def values? (s : Bytes) (m : Match) : Option (List Value) :=
  if m.captures.isEmpty then do return [.string (← slice? s m.start m.stop)]
  else m.captures.mapM (value? s)

def text? (s : Bytes) : Captured → Option Bytes
  | .span i j => slice? s i j
  | .position n => some (Bytes.ofNat n)

def expandEscape? (s : Bytes) (m : Match) (d : UInt8) : Option (Except PatternError Bytes) :=
  if d = 0x25 then some (.ok #[0x25])
  else if d = 0x30 then do return .ok (← slice? s m.start m.stop)
  else if Bytes.isDigit d then do
    let n ← minus? d.toNat 0x30
    match m.capture? (← minus? n 1) with
    | some c => return .ok (← text? s c)
    | none => return .error (.invalidTemplateIndex n)
  else some (.error .invalidTemplateEscape)

def expandList? (s : Bytes) (m : Match) :
    List UInt8 → Option (Except PatternError (List UInt8))
  | [] => some (.ok [])
  | [0x25] => some (.error .invalidTemplateEscape)
  | 0x25 :: d :: rest => do
    match ← expandEscape? s m d with
    | .error e => return .error e
    | .ok piece => return (← expandList? s m rest).map (piece.toList ++ ·)
  | b :: rest => do return (← expandList? s m rest).map (b :: ·)

def expand? (template s : Bytes) (m : Match) : Option (Except PatternError Bytes) := do
  return (← expandList? s m template.toList).map List.toArray

end Bytewise

end LuaMachine
