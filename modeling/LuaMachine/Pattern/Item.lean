import LuaMachine.Pattern.Charset
import LuaMachine.Pattern.Error

/-!
# Reading patterns

A pattern is read once into a list of items, from left to right; the first fault met is the one
reported.

* `Charset.read?`   a bracketed set after its opening bracket, and what follows it;
* `Item.read`       one item, and what follows it;
* `Item.readAll`    the items of a whole pattern.
-/

namespace LuaMachine

/-- How often the element before it may occur. -/
inductive Repetition where
  | once
  /-- Any number of times, the most first. -/
  | zeroOrMore
  /-- At least once, the most first. -/
  | oneOrMore
  /-- Any number of times, the fewest first. -/
  | fewest
  /-- At most once, once first. -/
  | optional
deriving DecidableEq, Repr

inductive Item where
  | element (e : Element) (r : Repetition)
  /-- The start of a capture. -/
  | opening
  /-- The end of the capture opened last. -/
  | closing
  /-- An empty capture, which records a position. -/
  | position
  /-- The end of the subject. -/
  | ending
  /-- A stretch from an `x` to the `y` that balances it. -/
  | balance (x y : UInt8)
  /-- A place where a set is entered. -/
  | frontier (s : Charset)
  /-- The text of an earlier capture. -/
  | reference (n : Nat)
deriving DecidableEq, Repr

/-! ## bracketed sets -/

namespace Charset

/-- The bytes up to the closing bracket, and what follows it.  The first byte is a member even when
it is a bracket, and so is a byte after an escape sign. -/
def body? : List UInt8 → Option (List UInt8 × List UInt8)
  | [] => none
  | [_] => none
  | 0x25 :: c :: 0x5d :: rest => some ([0x25, c], rest)
  | 0x25 :: c :: rest => (body? rest).map fun (m, r) => (0x25 :: c :: m, r)
  | b :: 0x5d :: rest => some ([b], rest)
  | b :: rest => (body? rest).map fun (m, r) => (b :: m, r)

/-- The members that the bytes between the brackets stand for. -/
def membersOf : List UInt8 → List Member
  | [] => []
  | 0x25 :: c :: rest => .escape ⟨c⟩ :: membersOf rest
  | lo :: 0x2d :: hi :: rest => .range lo hi :: membersOf rest
  | b :: rest => .byte b :: membersOf rest

def read? (bs : List UInt8) : Option (Charset × List UInt8) :=
  match bs with
  | 0x5e :: rest => (body? rest).map fun (m, r) => (⟨true, membersOf m⟩, r)
  | _ => (body? bs).map fun (m, r) => (⟨false, membersOf m⟩, r)

theorem body?_length {bs m r : List UInt8} (h : body? bs = some (m, r)) :
    r.length + 2 ≤ bs.length := by
  fun_induction body? bs generalizing m r with
  | case1 => simp at h
  | case2 => simp at h
  | case3 => simp at h; obtain ⟨-, rfl⟩ := h; simp
  | case4 c rest _ ih =>
    simp only [Option.map_eq_some_iff, Prod.exists, Prod.mk.injEq] at h
    obtain ⟨m', r', h', -, rfl⟩ := h
    have := ih h'
    simp; omega
  | case5 => simp at h; obtain ⟨-, rfl⟩ := h; simp
  | case6 b rest _ _ _ _ ih =>
    simp only [Option.map_eq_some_iff, Prod.exists, Prod.mk.injEq] at h
    obtain ⟨m', r', h', -, rfl⟩ := h
    have := ih h'
    simp; omega

theorem read?_length {bs r : List UInt8} {s : Charset} (h : read? bs = some (s, r)) :
    r.length ≤ bs.length := by
  unfold read? at h
  split at h <;>
  · simp only [Option.map_eq_some_iff, Prod.exists, Prod.mk.injEq] at h
    obtain ⟨m, r', h', -, rfl⟩ := h
    have := body?_length h'
    simp at this ⊢; omega

end Charset

/-! ## items -/

namespace Item

/-- The repetition sign after an element, if there is one. -/
def repetition : List UInt8 → Repetition × List UInt8
  | 0x2a :: r => (.zeroOrMore, r)
  | 0x2b :: r => (.oneOrMore, r)
  | 0x2d :: r => (.fewest, r)
  | 0x3f :: r => (.optional, r)
  | r => (.once, r)

/-- An element with the repetition that follows it. -/
def ofElement (e : Element) (bs : List UInt8) : Item × List UInt8 :=
  let (r, rest) := repetition bs
  (.element e r, rest)

/-- An item that starts with an escape sign, after that sign. -/
def readEscape : List UInt8 → Except PatternError (Item × List UInt8)
  | [] => .error .endsInEscape
  | c :: bs =>
    if c == 0x62 then
      match bs with
      | x :: y :: rest => .ok (.balance x y, rest)
      | _ => .error .missingDelimiters
    else if c == 0x66 then
      match bs with
      | 0x5b :: rest =>
        match Charset.read? rest with
        | some (s, rest) => .ok (.frontier s, rest)
        | none => .error .unclosedSet
      | _ => .error .missingFrontierSet
    else if Bytes.isDigit c then .ok (.reference (c.toNat - 0x30), bs)
    else .ok (ofElement (.escape ⟨c⟩) bs)

/-- The item that starts with a byte, given the bytes after it. -/
def read (b : UInt8) (bs : List UInt8) : Except PatternError (Item × List UInt8) :=
  if b == 0x25 then readEscape bs
  else if b == 0x5b then
    match Charset.read? bs with
    | some (s, rest) => .ok (ofElement (.set s) rest)
    | none => .error .unclosedSet
  else if b == 0x28 then
    match bs with
    | 0x29 :: rest => .ok (.position, rest)
    | _ => .ok (.opening, bs)
  else if b == 0x29 then .ok (.closing, bs)
  else if b == 0x24 && bs.isEmpty then .ok (.ending, [])
  else if b == 0x2e then .ok (ofElement .any bs)
  else .ok (ofElement (.byte b) bs)

theorem repetition_length (bs : List UInt8) : (repetition bs).2.length ≤ bs.length := by
  unfold repetition
  split <;> simp

theorem ofElement_length (e : Element) (bs : List UInt8) :
    (ofElement e bs).2.length ≤ bs.length := repetition_length bs

theorem readEscape_length {bs r : List UInt8} {i : Item} (h : readEscape bs = .ok (i, r)) :
    r.length ≤ bs.length := by
  unfold readEscape at h
  split at h
  · simp at h
  · rename_i c bs
    split at h
    · split at h <;> simp at h
      obtain ⟨-, rfl⟩ := h
      simp; omega
    · split at h
      · split at h
        · split at h
          · rename_i hs
            simp at h
            obtain ⟨-, rfl⟩ := h
            have := Charset.read?_length hs
            simp; omega
          · simp at h
        · simp at h
      · split at h
        · simp at h
          obtain ⟨-, rfl⟩ := h
          simp
        · simp only [Except.ok.injEq] at h
          have := ofElement_length (.escape ⟨c⟩) bs
          rw [h] at this
          simp at this ⊢; omega

theorem read_length {b : UInt8} {bs r : List UInt8} {i : Item} (h : read b bs = .ok (i, r)) :
    r.length ≤ bs.length := by
  unfold read at h
  split at h
  · exact readEscape_length h
  split at h
  · split at h
    · rename_i s rest hs
      simp only [Except.ok.injEq] at h
      have h1 := ofElement_length (.set s) rest
      rw [h] at h1
      have h2 := Charset.read?_length hs
      simp at h1; omega
    · simp at h
  split at h
  · split at h <;> simp at h <;> obtain ⟨-, rfl⟩ := h <;> simp
  split at h
  · simp at h; obtain ⟨-, rfl⟩ := h; simp
  split at h
  · simp at h; obtain ⟨-, rfl⟩ := h; simp
  split at h
  · simp only [Except.ok.injEq] at h
    have := ofElement_length .any bs
    rwa [h] at this
  · simp only [Except.ok.injEq] at h
    have := ofElement_length (.byte b) bs
    rwa [h] at this

def readAll (bs : List UInt8) : Except PatternError (List Item) :=
  match bs with
  | [] => .ok []
  | b :: bs =>
    match h : read b bs with
    | .error e => .error e
    | .ok (item, rest) =>
      have : rest.length < bs.length + 1 := Nat.lt_succ_of_le (read_length h)
      match readAll rest with
      | .error e => .error e
      | .ok items => .ok (item :: items)
termination_by bs.length

end Item

end LuaMachine
