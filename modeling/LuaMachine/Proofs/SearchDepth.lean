import LuaMachine.Proofs.InRange

/-!
# How deep searches nest

What follows a repetition, a capture, a balance, a frontier or a reference is searched one level
deeper.  However long the subject is and however often a search is made again from another place,
each level stands further on in the pattern than the one above it, so the pattern bounds the depth.

* `Bytewise.within?`       the matcher on bytes, with a condition on each search that it opens;
* `Bytewise.realizes_within`   the depth is bounded by the bytes that the cursor has passed;
* `Counting.follow`        the matcher with a counter of open searches;
* `Counting.keeps_follow`  each search leaves the counter as it was, however it ends;
* `Attempt.follow_ne_tooComplex`   a short pattern is never too complex.
-/

namespace LuaMachine

/-! ## the depth and the cursor -/

namespace Bytewise

/-- Open a search at a cursor, one level deeper than `depth` searches.  One that is not allowed, by
its cursor and its depth, gives `none`. -/
def enter? (allowed : Nat → Nat → Bool) (pp depth : Nat) (search : Trail → Option Attempt)
    (t : Trail) : Option Attempt :=
  if allowed pp (depth + 1) then nested? depth search t else none

/-- Match from the cursor on with `depth` searches open.  The cursor must go forward, and each search
that is opened must be an allowed one. -/
def within? (allowed : Nat → Nat → Bool) (s p : Bytes) (pp depth i : Nat) (t : Trail) :
    Option Attempt :=
  step?
    (fun q j t =>
      if _ : pp < q ∧ q ≤ p.size then enter? allowed q depth (within? allowed s p q (depth + 1) j) t
      else none)
    (fun q j t => if _ : pp < q ∧ q ≤ p.size then within? allowed s p q depth j t else none)
    s p pp i t
termination_by p.size - pp

def attemptWithin? (allowed : Nat → Nat → Bool) (s p : Bytes) (pp i : Nat) (t : Trail) :
    Option Attempt :=
  enter? allowed pp 0 (within? allowed s p pp 1 i) t.cleared

variable {allowed : Nat → Nat → Bool} {s p : Bytes} {pp origin depth i : Nat} {cs : List Capture}
  {bs : List UInt8} {is : List Item}

theorem Realizes.enter {search? : Trail → Option Attempt} {search : Trail → Attempt}
    (h : Realizes cs search? search) (ha : allowed pp (depth + 1) = true) :
    Realizes cs (enter? allowed pp depth search?) (Attempt.nested depth search) := by
  have he : enter? allowed pp depth search? = nested? depth search? := funext fun t => if_pos ha
  rw [he]
  exact h.nested depth

theorem within?_eq (allowed : Nat → Nat → Bool) (s p : Bytes) (pp depth i : Nat) :
    within? allowed s p pp depth i =
      step?
        (fun q j t => if pp < q ∧ q ≤ p.size then
          enter? allowed q depth (within? allowed s p q (depth + 1) j) t else none)
        (fun q j t => if pp < q ∧ q ≤ p.size then within? allowed s p q depth j t else none)
        s p pp i := by
  funext t
  rw [within?]
  rfl

/-- The searches that are at most one deeper than the bytes passed since `origin`. -/
def byBytes (origin pp depth : Nat) : Bool := decide (depth + origin ≤ pp + 1)

theorem byBytes_of_le (h : depth + origin ≤ pp + 1) : byBytes origin pp depth = true :=
  decide_eq_true h

/-- A search whose depth is bounded by the bytes passed opens only such searches. -/
theorem realizes_within (hbs : Rest p pp bs) (hread : Item.readAll bs = .ok is) (hi : i ≤ s.size)
    (hp : Placed i cs) (hdepth : depth + origin ≤ pp + 1) :
    Realizes cs (within? (byBytes origin) s p pp depth i) (Attempt.follow s is depth i) := by
  induction is generalizing pp bs i cs depth with
  | nil =>
    obtain rfl := Item.readAll_eq_nil_iff.mp hread
    have hl : pp + 0 = p.size := hbs.length
    refine ⟨fun t ht hc => ?_, fun t u ht hc hu => nomatch hu⟩
    rw [within?_eq, step?, if_neg (by omega)]
    rfl
  | cons item is ih =>
    obtain ⟨b, bs', rest, rfl, hitem, hrest⟩ := Item.readAll_eq_cons_iff.mp hread
    have hreads := Item.reads_of_read hitem
    obtain ⟨q, hq⟩ := rest_of_reads hbs hreads
    have hforward := forward_of_read hbs hitem hq
    rw [within?_eq]
    apply realizes_step hread hbs hreads hq _ hi hp
    constructor
    · -- one level deeper, and at least one byte further on
      intro j cs hj hpj
      have hdeeper : depth + 1 + origin ≤ q + 1 := by omega
      have hgo := (ih hq hrest hj hpj hdeeper).enter (byBytes_of_le hdeeper)
      exact ⟨fun t ht hc => (if_pos hforward).trans (hgo.eq t ht hc), hgo.restores⟩
    · intro j cs hj hpj
      have hgo := ih hq hrest hj hpj (show depth + origin ≤ q + 1 by omega)
      exact ⟨fun t ht hc => (if_pos hforward).trans (hgo.eq t ht hc), hgo.restores⟩

end Bytewise

/-! ## the depth as a counter -/

namespace Counting

/-- Open a search: count it, and take it back when it ends. -/
def enter (search : Trail → StateM Nat Attempt) (t : Trail) : StateM Nat Attempt := do
  modify (· + 1)
  if Attempt.maxDepth < (← get) then
    modify (· - 1)
    return .fault .tooComplex
  else
    let r ← search t
    modify (· - 1)
    return r

def farthestFirst (search : Nat → Trail → StateM Nat Attempt) (i : Nat) :
    Nat → Trail → StateM Nat Attempt
  | 0, t => search i t
  | n + 1, t => do
    match ← search (i + (n + 1)) t with
    | .failed t => farthestFirst search i n t
    | r => return r

def nearestFirst (s : Bytes) (p : UInt8 → Bool) (search : Nat → Trail → StateM Nat Attempt)
    (i : Nat) : Nat → Trail → StateM Nat Attempt
  | 0, t => search i t
  | n + 1, t => do
    match ← search i t with
    | .failed t => if Subject.at? s p i then nearestFirst s p search (i + 1) n t else return .failed t
    | r => return r

def capturing (c : Capture) (search : Trail → StateM Nat Attempt) (t : Trail) :
    StateM Nat Attempt := do
  if Trail.maxCaptures ≤ t.level then return .fault .tooManyCaptures
  else
    match ← search (t.push c) with
    | .failed u => return .failed { u with level := t.level }
    | r => return r

def closing (i : Nat) (search : Trail → StateM Nat Attempt) (t : Trail) : StateM Nat Attempt := do
  match t.lastUnfinished? t.level with
  | none => return .fault .invalidCapture
  | some n =>
    match ← search (t.reach n (.closed (i - (t.slot n).start))) with
    | .failed t => return .failed (t.reach n .unfinished)
    | r => return r

/-- The matcher once more, with the number of open searches in a counter. -/
def follow (s : Bytes) : List Item → Nat → Trail → StateM Nat Attempt
  | [], i, t => return .matched i t
  | .element e .once :: rest, i, t =>
    if Subject.at? s e.test i then follow s rest (i + 1) t else return .failed t
  | .element e .zeroOrMore :: rest, i, t =>
    farthestFirst (fun j => enter (follow s rest j)) i (Subject.run s e.test i) t
  | .element e .oneOrMore :: rest, i, t =>
    match Subject.run s e.test i with
    | 0 => return .failed t
    | n + 1 => farthestFirst (fun j => enter (follow s rest j)) (i + 1) n t
  | .element e .fewest :: rest, i, t =>
    nearestFirst s e.test (fun j => enter (follow s rest j)) i (s.size - i) t
  | .element e .optional :: rest, i, t =>
    farthestFirst (fun j => enter (follow s rest j)) i (if Subject.at? s e.test i then 1 else 0) t
  | .opening :: rest, i, t => capturing ⟨i, .unfinished⟩ (enter (follow s rest i)) t
  | .position :: rest, i, t => capturing ⟨i, .position⟩ (enter (follow s rest i)) t
  | .closing :: rest, i, t => closing i (enter (follow s rest i)) t
  | .ending :: _, i, t => return if i == s.size then .matched i t else .failed t
  | .balance x y :: rest, i, t =>
    match Subject.balance? s x y i with
    | some j => enter (follow s rest j) t
    | none => return .failed t
  | .frontier set :: rest, i, t =>
    if Subject.frontier s set i then enter (follow s rest i) t else return .failed t
  | .reference n :: rest, i, t =>
    match Attempt.referenced s n i t with
    | .ok (some j) => enter (follow s rest j) t
    | .ok none => return .failed t
    | .error e => return .fault e

def attempt (s : Bytes) (is : List Item) (i : Nat) (t : Trail) : Attempt × Nat :=
  (enter (follow s is i) t.cleared).run 0

/-- From every value of the counter, a search gives this and leaves the counter as it was. -/
def Keeps (search : StateM Nat Attempt) (f : Nat → Attempt) : Prop :=
  ∀ depth, search.run depth = (f depth, depth)

namespace Keeps

variable {s : Bytes} {i n : Nat} {t : Trail} {x : StateM Nat Attempt} {f : Nat → Attempt}

theorem pure (r : Attempt) : Keeps (return r) (fun _ => r) := fun _ => rfl

theorem bind (h : Keeps x f) (k : Attempt → StateM Nat Attempt) (depth : Nat) :
    (x >>= k).run depth = (k (f depth)).run depth := by
  rw [StateT.run_bind, h depth]
  rfl

section
variable {search : Trail → StateM Nat Attempt} {g : Nat → Trail → Attempt}

theorem enter (h : ∀ t, Keeps (search t) fun depth => g depth t) (t : Trail) :
    Keeps (enter search t) fun depth => Attempt.nested depth (g (depth + 1)) t := by
  intro depth
  show (if Attempt.maxDepth < depth + 1 then _ else _ : StateM Nat Attempt).run (depth + 1) =
    (if Attempt.maxDepth ≤ depth then _ else _, depth)
  by_cases hdeep : Attempt.maxDepth ≤ depth
  · rw [if_pos hdeep, if_pos (Nat.lt_succ_of_le hdeep)]
    rfl
  · rw [if_neg hdeep, if_neg (fun hlt => hdeep (Nat.le_of_lt_succ hlt)), (h t).bind]
    rfl

theorem capturing (h : ∀ t, Keeps (search t) fun depth => g depth t) (c : Capture) (t : Trail) :
    Keeps (capturing c search t) fun depth => Attempt.capturing c (g depth) t := by
  intro depth
  show (if Trail.maxCaptures ≤ t.level then _ else _ : StateM Nat Attempt).run depth =
    (if Trail.maxCaptures ≤ t.level then _ else _, depth)
  by_cases hfull : Trail.maxCaptures ≤ t.level
  · rw [if_pos hfull, if_pos hfull]
    rfl
  · rw [if_neg hfull, if_neg hfull, (h _).bind]
    cases g depth (t.push c) <;> rfl

theorem closing (h : ∀ t, Keeps (search t) fun depth => g depth t) (i : Nat) (t : Trail) :
    Keeps (closing i search t) fun depth => Attempt.closing i (g depth) t := by
  intro depth
  unfold Counting.closing Attempt.closing
  cases t.lastUnfinished? t.level with
  | none => rfl
  | some n =>
    dsimp only
    rw [(h _).bind]
    cases g depth (t.reach n (.closed (i - (t.slot n).start))) <;> rfl

end

section
variable {search : Nat → Trail → StateM Nat Attempt} {g : Nat → Nat → Trail → Attempt}

theorem farthestFirst (h : ∀ j t, Keeps (search j t) fun depth => g depth j t) (i n : Nat)
    (t : Trail) :
    Keeps (farthestFirst search i n t) fun depth => Attempt.farthestFirst (g depth) i n t := by
  intro depth
  induction n generalizing t with
  | zero => exact h i t depth
  | succ n ih =>
    unfold Counting.farthestFirst Attempt.farthestFirst
    rw [(h _ t).bind]
    dsimp only
    cases g depth (i + (n + 1)) t with
    | fault e => rfl
    | failed u => exact ih u
    | matched j u => rfl

theorem nearestFirst (h : ∀ j t, Keeps (search j t) fun depth => g depth j t) (s : Bytes)
    (p : UInt8 → Bool) (i n : Nat) (t : Trail) :
    Keeps (nearestFirst s p search i n t) fun depth => Attempt.nearestFirst s p (g depth) i n t := by
  intro depth
  induction n generalizing i t with
  | zero => exact h i t depth
  | succ n ih =>
    unfold Counting.nearestFirst Attempt.nearestFirst
    rw [(h i t).bind]
    dsimp only
    cases g depth i t with
    | fault e => rfl
    | matched j u => rfl
    | failed u =>
      dsimp only
      split
      · exact ih (i + 1) u
      · rfl

end

end Keeps

/-- **The counter is the depth**: a search gives what the matcher gives at that depth, and leaves the
counter as it was, whether it matches, fails or is at fault. -/
theorem keeps_follow (s : Bytes) (is : List Item) :
    ∀ (i : Nat) (t : Trail), Keeps (follow s is i t) fun depth => Attempt.follow s is depth i t := by
  induction is with
  | nil => exact fun i t => .pure _
  | cons item is ih =>
    have hdeeper := fun (j : Nat) => Keeps.enter (ih j)
    intro i t
    cases item with
    | element e r =>
      cases r with
      | once =>
        intro depth
        rw [follow]
        dsimp only [Attempt.follow]
        split
        · exact ih (i + 1) t depth
        · rfl
      | zeroOrMore => exact .farthestFirst hdeeper i _ t
      | oneOrMore =>
        intro depth
        rw [follow]
        dsimp only [Attempt.follow]
        cases Subject.run s e.test i with
        | zero => rfl
        | succ n => exact Keeps.farthestFirst hdeeper (i + 1) n t depth
      | fewest => exact .nearestFirst hdeeper s e.test i _ t
      | optional => exact .farthestFirst hdeeper i _ t
    | opening => exact .capturing (hdeeper i) _ t
    | position => exact .capturing (hdeeper i) _ t
    | closing => exact .closing (hdeeper i) i t
    | ending => exact .pure _
    | balance x y =>
      intro depth
      rw [follow]
      dsimp only [Attempt.follow]
      cases Subject.balance? s x y i with
      | none => rfl
      | some j => exact hdeeper j t depth
    | frontier set =>
      intro depth
      rw [follow]
      dsimp only [Attempt.follow]
      split
      · exact hdeeper i t depth
      · rfl
    | reference n =>
      intro depth
      rw [follow]
      dsimp only [Attempt.follow]
      cases Attempt.referenced s n i t with
      | error e => rfl
      | ok place =>
        cases place with
        | none => rfl
        | some j => exact hdeeper j t depth

theorem attempt_eq (s : Bytes) (is : List Item) (i : Nat) (t : Trail) :
    attempt s is i t = (LuaMachine.attempt s is i t, 0) :=
  Keeps.enter (keeps_follow s is i) t.cleared 0

end Counting

/-! ## short patterns -/

namespace Attempt

variable {err : PatternError} {depth i n : Nat}

theorem nested_ne_fault {search : Trail → Attempt} (h : ∀ t, search t ≠ .fault err)
    (hdepth : depth < maxDepth) (t : Trail) : nested depth search t ≠ .fault err := by
  unfold nested
  rw [if_neg (Nat.not_le_of_lt hdepth)]
  exact h t

theorem farthestFirst_ne_fault {search : Nat → Trail → Attempt}
    (h : ∀ m t, search m t ≠ .fault err) (t : Trail) :
    farthestFirst search i n t ≠ .fault err := by
  induction n generalizing t with
  | zero => exact h i t
  | succ n ih =>
    have hfirst := h (i + (n + 1)) t
    unfold farthestFirst
    cases hr : search (i + (n + 1)) t with
    | fault e =>
      rw [hr] at hfirst
      exact hfirst
    | failed u => exact ih u
    | matched j u => exact Attempt.noConfusion

theorem nearestFirst_ne_fault {s : Bytes} {p : UInt8 → Bool} {search : Nat → Trail → Attempt}
    (h : ∀ m t, search m t ≠ .fault err) (t : Trail) :
    nearestFirst s p search i n t ≠ .fault err := by
  induction n generalizing i t with
  | zero => exact h i t
  | succ n ih =>
    have hfirst := h i t
    unfold nearestFirst
    cases hr : search i t with
    | fault e =>
      rw [hr] at hfirst
      exact hfirst
    | matched j u => exact Attempt.noConfusion
    | failed u =>
      dsimp only
      split
      · exact ih u
      · exact Attempt.noConfusion

theorem capturing_ne_fault {c : Capture} {search : Trail → Attempt} (h : ∀ t, search t ≠ .fault err)
    (hc : err ≠ .tooManyCaptures) (t : Trail) : capturing c search t ≠ .fault err := by
  show (if Trail.maxCaptures ≤ t.level then _ else _) ≠ _
  split
  · intro he
    cases he
    exact hc rfl
  · have hrest := h (t.push c)
    cases hr : search (t.push c) with
    | fault e =>
      rw [hr] at hrest
      exact hrest
    | failed u => exact Attempt.noConfusion
    | matched j u => exact Attempt.noConfusion

theorem closing_ne_fault {search : Trail → Attempt} (h : ∀ t, search t ≠ .fault err)
    (hc : err ≠ .invalidCapture) (t : Trail) : closing i search t ≠ .fault err := by
  unfold closing
  cases t.lastUnfinished? t.level with
  | none =>
    intro he
    cases he
    exact hc rfl
  | some n =>
    have hrest := h (t.reach n (.closed (i - (t.slot n).start)))
    dsimp only
    cases hr : search (t.reach n (.closed (i - (t.slot n).start))) with
    | fault e =>
      rw [hr] at hrest
      exact hrest
    | failed u => exact Attempt.noConfusion
    | matched j u => exact Attempt.noConfusion

theorem referenced_ne_tooComplex (s : Bytes) (n i : Nat) (t : Trail) :
    referenced s n i t ≠ .error .tooComplex := by
  intro he
  change (if _ then _ else _) = _ at he
  split at he
  · cases he
  · split at he
    · split at he <;> cases he
    · cases he

/-- Each item opens at most one search, so there are never more open than there are items before. -/
theorem follow_ne_tooComplex (s : Bytes) {is : List Item} (h : depth + is.length ≤ maxDepth) :
    ∀ (i : Nat) (t : Trail), follow s is depth i t ≠ .fault .tooComplex := by
  induction is generalizing depth with
  | nil => exact fun i t => Attempt.noConfusion
  | cons item is ih =>
    rw [List.length_cons] at h
    have hsame := ih (show depth + is.length ≤ maxDepth by omega)
    have hdeeper : ∀ (j : Nat) (t : Trail),
        nested depth (follow s is (depth + 1) j) t ≠ .fault .tooComplex := fun j =>
      nested_ne_fault (ih (show depth + 1 + is.length ≤ maxDepth by omega) j) (by omega)
    intro i t
    cases item with
    | element e r =>
      cases r with
      | once =>
        rw [follow]
        split
        · exact hsame (i + 1) t
        · exact Attempt.noConfusion
      | zeroOrMore => exact farthestFirst_ne_fault hdeeper t
      | oneOrMore =>
        rw [follow]
        cases Subject.run s e.test i with
        | zero => exact Attempt.noConfusion
        | succ n => exact farthestFirst_ne_fault hdeeper t
      | fewest => exact nearestFirst_ne_fault hdeeper t
      | optional => exact farthestFirst_ne_fault hdeeper t
    | opening => exact capturing_ne_fault (hdeeper i) PatternError.noConfusion t
    | position => exact capturing_ne_fault (hdeeper i) PatternError.noConfusion t
    | closing => exact closing_ne_fault (hdeeper i) PatternError.noConfusion t
    | ending =>
      rw [follow]
      split <;> exact Attempt.noConfusion
    | balance x y =>
      rw [follow]
      cases Subject.balance? s x y i with
      | none => exact Attempt.noConfusion
      | some j => exact hdeeper j t
    | frontier set =>
      rw [follow]
      split
      · exact hdeeper i t
      · exact Attempt.noConfusion
    | reference n =>
      have hreference := referenced_ne_tooComplex s n i t
      rw [follow]
      cases hr : referenced s n i t with
      | error e =>
        intro he
        cases he
        exact hreference hr
      | ok place =>
        cases place with
        | none => exact Attempt.noConfusion
        | some j => exact hdeeper j t

end Attempt

theorem Item.length_readAll {bs : List UInt8} {is : List Item} (h : readAll bs = .ok is) :
    is.length ≤ bs.length := by
  induction is generalizing bs with
  | nil => exact Nat.zero_le _
  | cons item is ih =>
    obtain ⟨b, bs', rest, rfl, hitem, hrest⟩ := readAll_eq_cons_iff.mp h
    have hle := Nat.le_trans (ih hrest) (read_length hitem)
    exact Nat.succ_le_succ hle

namespace Pattern

open Bytewise

variable {p : Bytes} {pp : Nat} {is : List Item}

theorem BeginsAt.rest (h : BeginsAt p pp is) :
    ∃ bs, Rest p pp bs ∧ Item.readAll bs = .ok is := by
  rcases h with ⟨rfl, hread⟩ | ⟨rfl, hanchor, hitems⟩
  · exact ⟨p.toList, Rest.zero p, hread⟩
  · obtain ⟨bs, hbs, he⟩ := toList_of_isAnchored hanchor
    have hrest : Rest p 0 (0x5e :: bs) := hbs ▸ Rest.zero p
    exact ⟨bs, hrest.tail, he ▸ hitems⟩

/-- **The pattern bounds the depth.**  Take a pattern that can be read, from its first byte or after
its anchor.  In every attempt, each search that is opened is at most one deeper than the bytes of the
pattern passed so far; a counter of open searches tells this depth and is back at zero when the attempt
ends; and if the pattern is short, no attempt finds it too complex. -/
theorem depth_bounded_by_pattern (p : Bytes) (pp : Nat) (is : List Item) (h : BeginsAt p pp is) :
    (∀ s i t, i ≤ s.size → t.slots.size = Trail.maxCaptures →
      attemptWithin? (byBytes pp) s p pp i t = some (attempt s is i t)) ∧
    (∀ s i t, Counting.attempt s is i t = (attempt s is i t, 0)) ∧
    (p.size < Attempt.maxDepth → ∀ s i t, attempt s is i t ≠ .fault .tooComplex) := by
  obtain ⟨bs, hbs, hread⟩ := h.rest
  refine ⟨fun s i t hi ht => ?_, fun s i t => Counting.attempt_eq s is i t, fun hshort s i t => ?_⟩
  · have hstart : 1 + pp ≤ pp + 1 := Nat.le_of_eq (Nat.add_comm 1 pp)
    have hsearch := realizes_within (s := s) hbs hread hi (Placed.nil i) hstart
    exact (hsearch.enter (byBytes_of_le hstart)).eq t.cleared (Trail.sized_cleared ht)
      (Trail.captures_cleared t)
  · have hitems : is.length ≤ p.size := by
      have h1 := Item.length_readAll hread
      have h2 := hbs.length
      omega
    exact Attempt.nested_ne_fault
      (Attempt.follow_ne_tooComplex s (show 1 + is.length ≤ Attempt.maxDepth by omega) i)
      (by decide) t.cleared

/-- The pattern `(a*)b?` opens five searches on `aab`, one for each item and one at the end; with four
allowed the attempt does not get through. -/
theorem depth_bounded_by_pattern_five :
    let p : Bytes := #[0x28, 0x61, 0x2a, 0x29, 0x62, 0x3f]
    let s : Bytes := #[0x61, 0x61, 0x62]
    let u := Trail.empty.push ⟨0, .closed 2⟩
    attemptWithin? (byBytes 0) s p 0 0 Trail.empty = some (.matched 3 u) ∧
      (∀ s i t, ∃ r, Counting.attempt s
        [.opening, .element (.byte 0x61) .zeroOrMore, .closing, .element (.byte 0x62) .optional] i t =
          (r, 0) ∧ r ≠ .fault .tooComplex) ∧
      attemptWithin? (fun _ depth => decide (depth ≤ 4)) s p 0 0 Trail.empty = none := by
  intro p s u
  have hread : Item.readAll p.toList = .ok [.opening, .element (.byte 0x61) .zeroOrMore, .closing,
      .element (.byte 0x62) .optional] := by
    decide +kernel
  obtain ⟨hwithin, hcount, hshort⟩ := depth_bounded_by_pattern p 0 _ (.inl ⟨rfl, hread⟩)
  refine ⟨(hwithin s 0 Trail.empty (Nat.zero_le _) rfl).trans ?_, fun s i t => ?_, ?_⟩
  · decide +kernel
  · exact ⟨_, hcount s i t, hshort (by decide) s i t⟩
  · decide +kernel

end Pattern

end LuaMachine
