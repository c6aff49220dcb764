import LuaMachine.Proofs.Reader

/-!
# The first match of a pattern

From the items to a whole pattern: an attempt at a place finds the first choice under which the
pattern matches there, whatever earlier attempts left in the trail, and a search over places finds the
leftmost place with a choice.

* `attempt_answers`       what an attempt tells about the choices at its place;
* `firstMatch_spec`       the matcher tried at one place after the other;
* `Pattern.find_plain`    the search for a plain text.
-/

namespace LuaMachine

/-- Under some choice the items match at a place. -/
def MatchesAt (s : Bytes) (is : List Item) (i : Nat) : Prop := ∃ ks j cs, Matches s is ks i [] j cs

/-- The first of the places from `lo` to `hi` with a property, if there is one. -/
def Leftmost (P : Nat → Prop) (lo hi : Nat) : Option Nat → Prop
  | none => ∀ m, lo ≤ m → m ≤ hi → ¬ P m
  | some m => lo ≤ m ∧ m ≤ hi ∧ P m ∧ ∀ m', lo ≤ m' → m' < m → ¬ P m'

theorem Leftmost.here {P : Nat → Prop} {lo hi : Nat} (h : P lo) (hle : lo ≤ hi) :
    Leftmost P lo hi (some lo) :=
  ⟨Nat.le_refl lo, hle, h, fun _ h1 h2 => absurd h1 (Nat.not_le_of_lt h2)⟩

theorem Leftmost.later {P : Nat → Prop} {lo hi : Nat} {r : Option Nat} (h : ¬ P lo)
    (hr : Leftmost P (lo + 1) hi r) : Leftmost P lo hi r := by
  cases r with
  | none =>
    intro m h1 h2
    rcases Nat.eq_or_lt_of_le h1 with rfl | hlt
    · exact h
    · exact hr m hlt h2
  | some m =>
    obtain ⟨h1, h2, hm, hno⟩ := hr
    refine ⟨by omega, h2, hm, fun m' h3 h4 => ?_⟩
    rcases Nat.eq_or_lt_of_le h3 with rfl | hlt
    · exact h
    · exact hno m' hlt h4

theorem Leftmost.congr {P Q : Nat → Prop} {lo hi : Nat} {r : Option Nat}
    (h : ∀ m, lo ≤ m → m ≤ hi → (P m ↔ Q m)) (hr : Leftmost P lo hi r) : Leftmost Q lo hi r := by
  cases r with
  | none => exact fun m h1 h2 hq => hr m h1 h2 ((h m h1 h2).mpr hq)
  | some m =>
    obtain ⟨h1, h2, hm, hno⟩ := hr
    refine ⟨h1, h2, (h m h1 h2).mp hm, fun m' h3 h4 hq => ?_⟩
    exact hno m' h3 h4 ((h m' h3 (by omega)).mpr hq)

theorem Leftmost.unique {P : Nat → Prop} {lo hi : Nat} {r r' : Option Nat}
    (h : Leftmost P lo hi r) (h' : Leftmost P lo hi r') : r = r' := by
  cases r with
  | none =>
    cases r' with
    | none => rfl
    | some m => exact absurd h'.2.2.1 (h m h'.1 h'.2.1)
  | some m =>
    cases r' with
    | none => exact absurd h.2.2.1 (h' m h.1 h.2.1)
    | some m' =>
      obtain ⟨hlo, _, hm, hno⟩ := h
      obtain ⟨hlo', _, hm', hno'⟩ := h'
      rcases Nat.lt_trichotomy m m' with hlt | rfl | hlt
      · exact absurd hm (hno' m hlo hlt)
      · rfl
      · exact absurd hm' (hno m' hlo' hlt)

/-! ## attempts -/

variable {s : Bytes} {is : List Item} {i : Nat} {t u : Trail}

theorem attempt_answers (hend : Item.EndsLast is) (hi : i ≤ s.size)
    (ht : t.slots.size = Trail.maxCaptures) :
    Answers (Item.repetitions is) (choices s is i []) t.cleared (attempt s is i t) :=
  (explores_follow hend hi (Placed.nil i) 1).nested 0 t.cleared (Trail.sized_cleared ht)
    (Trail.captures_cleared t)

theorem attempt_failed (hend : Item.EndsLast is) (hi : i ≤ s.size)
    (ht : t.slots.size = Trail.maxCaptures) (h : attempt s is i t = .failed u) :
    u.slots.size = Trail.maxCaptures ∧ ¬ MatchesAt s is i := by
  have ha := attempt_answers hend hi ht
  rw [h] at ha
  refine ⟨ha.1.1.slots, ?_⟩
  rintro ⟨ks, j, cs, hm⟩
  exact ha.2 ks j cs hm

theorem attempt_matched {j : Nat} (hend : Item.EndsLast is) (hi : i ≤ s.size)
    (ht : t.slots.size = Trail.maxCaptures) (h : attempt s is i t = .matched j u) :
    u.slots.size = Trail.maxCaptures ∧ ∃ ks, FirstChoice s is i ks j u.captures := by
  have ha := attempt_answers hend hi ht
  rw [h] at ha
  obtain ⟨hu, ks, hm, hall⟩ := ha
  refine ⟨hu.slots, ks, hm, fun ks' j' cs' hm' => ?_⟩
  rcases hall ks' j' cs' hm' with rfl | hb
  · exact .inl ⟨rfl, Matches.unique hm hm'⟩
  · exact .inr hb

theorem FirstChoice.matchesAt {ks : List Nat} {j : Nat} {cs : List Capture}
    (h : FirstChoice s is i ks j cs) : MatchesAt s is i := ⟨ks, j, cs, h.1⟩

/-! ## places -/

def Match.IsFirst (s : Bytes) (is : List Item) (m : Match) : Prop :=
  ∃ ks cs, FirstChoice s is m.start ks m.stop cs ∧ cs.mapM Capture.finish = .ok m.captures

namespace Pattern

/-- A search that raises no fault ends at its first place, or fails there and goes on. -/
theorem firstMatch_cases {n : Nat} {r : Option Match} (h : firstMatch s is i n t = .ok r) :
    (∃ j u cs, attempt s is i t = .matched j u ∧ u.captures.mapM Capture.finish = .ok cs ∧
      r = some ⟨i, j, cs⟩) ∨
    ∃ u, attempt s is i t = .failed u ∧
      (n = 0 ∧ r = none ∨ ∃ n', n = n' + 1 ∧ firstMatch s is (i + 1) n' u = .ok r) := by
  unfold firstMatch at h
  cases ha : attempt s is i t with
  | fault e =>
    rw [ha] at h
    cases h
  | failed u =>
    rw [ha] at h
    refine .inr ⟨u, rfl, ?_⟩
    cases n with
    | zero =>
      cases h
      exact .inl ⟨rfl, rfl⟩
    | succ n => exact .inr ⟨n, rfl, h⟩
  | matched j u =>
    rw [ha] at h
    change u.captured.map _ = _ at h
    cases hc : u.captured with
    | error e =>
      rw [hc] at h
      cases h
    | ok cs =>
      rw [hc] at h
      cases h
      exact .inl ⟨j, u, cs, rfl, hc, rfl⟩

theorem firstMatch_spec {n : Nat} {r : Option Match} (hend : Item.EndsLast is)
    (hn : i + n ≤ s.size) (ht : t.slots.size = Trail.maxCaptures)
    (h : firstMatch s is i n t = .ok r) :
    Leftmost (MatchesAt s is) i (i + n) (r.map Match.start) ∧ ∀ m, r = some m → m.IsFirst s is := by
  induction n generalizing i t with
  | zero =>
    rcases firstMatch_cases h with ⟨j, u, cs, ha, hc, rfl⟩ | ⟨u, ha, ⟨_, rfl⟩ | ⟨n', e, _⟩⟩
    · obtain ⟨_, ks, hk⟩ := attempt_matched hend hn ht ha
      refine ⟨.here hk.matchesAt (Nat.le_refl i), ?_⟩
      rintro _ ⟨⟩
      exact ⟨ks, _, hk, hc⟩
    · obtain ⟨_, hno⟩ := attempt_failed hend hn ht ha
      refine ⟨Leftmost.later hno (fun m h1 h2 => absurd h1 (by omega)), nofun⟩
    · cases e
  | succ n ih =>
    rcases firstMatch_cases h with ⟨j, u, cs, ha, hc, rfl⟩ | ⟨u, ha, ⟨e, _⟩ | ⟨n', e, h'⟩⟩
    · obtain ⟨_, ks, hk⟩ := attempt_matched hend (by omega) ht ha
      refine ⟨.here hk.matchesAt (by omega), ?_⟩
      rintro _ ⟨⟩
      exact ⟨ks, _, hk, hc⟩
    · cases e
    · cases e
      obtain ⟨hu, hno⟩ := attempt_failed hend (by omega) ht ha
      obtain ⟨hl, hm⟩ := ih (by omega) hu h'
      rw [show i + 1 + n = i + (n + 1) by omega] at hl
      exact ⟨hl.later hno, hm⟩

/-! ## plain texts -/

theorem firstPlace_spec (s p : Bytes) (i n : Nat) :
    Leftmost (fun i => standsAt s p i = true) i (i + n) (firstPlace s p i n) := by
  induction n generalizing i with
  | zero =>
    unfold firstPlace
    split
    · exact .here ‹_› (Nat.le_refl i)
    · exact Leftmost.later ‹_› (fun m h1 h2 => absurd h1 (by omega))
  | succ n ih =>
    unfold firstPlace
    split
    · exact .here ‹_› (by omega)
    · have hl := ih (i + 1)
      rw [show i + 1 + n = i + (n + 1) by omega] at hl
      exact hl.later ‹_›

theorem matchesAt_plain_iff {p : Bytes} (hi : i ≤ s.size) :
    MatchesAt s (Item.plain p.toList) i ↔ standsAt s p i = true := by
  rw [standsAt_iff]
  constructor
  · rintro ⟨ks, j, cs, hm⟩
    exact ((matches_plain_iff hi).mp hm).1
  · intro h
    exact ⟨_, _, _, (matches_plain_iff hi).mpr ⟨h, rfl, rfl, rfl⟩⟩

theorem isFirst_plain {p : Bytes} (hi : i ≤ s.size) (h : standsAt s p i = true) :
    Match.IsFirst s (Item.plain p.toList) ⟨i, i + p.size, []⟩ := by
  refine ⟨_, [], ⟨(matches_plain_iff hi).mpr ⟨standsAt_iff.mp h, rfl, rfl, rfl⟩, ?_⟩, rfl⟩
  intro ks' j' cs' hm
  obtain ⟨_, rfl, rfl, rfl⟩ := (matches_plain_iff hi).mp hm
  exact .inl ⟨rfl, rfl, rfl⟩

theorem not_special_of_isPlain {p : Bytes} (h : isPlain p = true) :
    ∀ b ∈ p.toList, isSpecial b = false := by
  unfold isPlain at h
  rw [Bool.not_eq_true', ← Array.any_toList, List.any_eq_false] at h
  exact fun b hb => Bool.eq_false_iff.mpr (h b hb)

/-! ## the whole search -/

theorem find_spec {p : Bytes} {init : Nat} {r : Option Match} (hanchor : isAnchored p = false)
    (hread : Item.readAll p.toList = .ok is) (h : find s p init = .ok r) :
    Leftmost (MatchesAt s is) init s.size (r.map Match.start) ∧ ∀ m, r = some m → m.IsFirst s is := by
  unfold find at h
  split at h
  · cases h
    refine ⟨fun m h1 h2 => absurd h1 (by omega), nofun⟩
  rename_i hinit
  have hinit : init ≤ s.size := Nat.le_of_not_lt hinit
  split at h
  · rename_i hplain
    obtain rfl : is = Item.plain p.toList :=
      Except.ok.inj (hread.symm.trans (Item.readAll_plain (not_special_of_isPlain hplain)))
    cases h
    have hfind : findPlain s p init = firstPlace s p init (s.size - init) :=
      if_neg (Nat.not_lt_of_le hinit)
    have hl := firstPlace_spec s p init (s.size - init)
    rw [← hfind, show init + (s.size - init) = s.size by omega] at hl
    cases hf : findPlain s p init with
    | none =>
      rw [hf] at hl
      exact ⟨hl.congr (fun m _ h2 => (matchesAt_plain_iff h2).symm), nofun⟩
    | some i =>
      rw [hf] at hl
      refine ⟨hl.congr (fun m _ h2 => (matchesAt_plain_iff h2).symm), ?_⟩
      rintro _ ⟨⟩
      exact isFirst_plain hl.2.1 hl.2.2.1
  · have hitems : items p = .ok is := by
      unfold items
      rw [hanchor]
      exact hread
    have h' : firstMatch s is init (s.size - init) Trail.empty = .ok r := by
      unfold findMatch at h
      rw [hitems, hanchor] at h
      exact h
    have hspec := firstMatch_spec (Item.endsLast_readAll hread) (by omega) rfl h'
    rwa [show init + (s.size - init) = s.size by omega] at hspec

/-- For every pattern that can be read, from its first byte or from behind its anchor: an attempt that
raises no fault matches exactly if there is a choice under which the pattern matches, and its end and
captures are those of the first choice; what earlier attempts left in the slots does not count.  A
search with no anchor finds the leftmost place with a choice, and the first choice there. -/
theorem first_choice_found (s p : Bytes) (is : List Item)
    (hread : Item.readAll p.toList = .ok is ∨ items p = .ok is) :
    (∀ i t, i ≤ s.size → t.slots.size = Trail.maxCaptures →
      (∀ e, attempt s is i t ≠ .fault e) →
      ((∃ j u, attempt s is i t = .matched j u) ↔ ∃ ks j cs, Matches s is ks i [] j cs) ∧
      (∀ j u, attempt s is i t = .matched j u →
        u.slots.size = Trail.maxCaptures ∧ ∃ ks, FirstChoice s is i ks j u.captures) ∧
      ∀ u, attempt s is i t = .failed u → u.slots.size = Trail.maxCaptures) ∧
    ∀ init r, isAnchored p = false → find s p init = .ok r →
      Leftmost (MatchesAt s is) init s.size (r.map Match.start) ∧
        ∀ m, r = some m → m.IsFirst s is := by
  have hend : Item.EndsLast is := hread.elim Item.endsLast_readAll Item.endsLast_readAll
  constructor
  · intro i t hi ht hfault
    refine ⟨⟨?_, ?_⟩, fun j u h => attempt_matched hend hi ht h,
      fun u h => (attempt_failed hend hi ht h).1⟩
    · rintro ⟨j, u, h⟩
      obtain ⟨_, ks, hk⟩ := attempt_matched hend hi ht h
      exact hk.matchesAt
    · intro hm
      cases ha : attempt s is i t with
      | fault e => exact absurd ha (hfault e)
      | failed u => exact absurd hm (attempt_failed hend hi ht ha).2
      | matched j u => exact ⟨j, u, rfl⟩
  · intro init r hanchor h
    have hitems : items p = Item.readAll p.toList := by
      unfold items
      rw [hanchor]
      rfl
    rw [hitems, or_self] at hread
    exact find_spec hanchor hread h

/-- In `aaab` the pattern `(a*)ab` gives one `a` back, also in a trail whose slots were closed
before. -/
theorem first_choice_found_backing_off :
    let s : Bytes := #[0x61, 0x61, 0x61, 0x62]
    let p : Bytes := #[0x28, 0x61, 0x2a, 0x29, 0x61, 0x62]
    let is : List Item := [.opening, .element (.byte 0x61) .zeroOrMore, .closing,
      .element (.byte 0x61) .once, .element (.byte 0x62) .once]
    Item.readAll p.toList = .ok is ∧
      (∃ ks, FirstChoice s is 0 ks 4 [⟨0, .closed 2⟩]) ∧
      Leftmost (MatchesAt s is) 1 4 (some 1) := by
  intro s p is
  have hread : Item.readAll p.toList = .ok is := by decide +kernel
  obtain ⟨hattempt, hfind⟩ := first_choice_found s p is (.inl hread)
  have ha : attempt s is 0 ⟨Array.replicate 32 ⟨3, .closed 1⟩, 7⟩ =
      .matched 4 ⟨(Array.replicate 32 ⟨3, .closed 1⟩).setIfInBounds 0 ⟨0, .closed 2⟩, 1⟩ := by
    decide +kernel
  have hf : find s p 1 = .ok (some ⟨1, 4, [.span 1 2]⟩) := by decide +kernel
  obtain ⟨_, hmatched, _⟩ := hattempt 0 ⟨Array.replicate 32 ⟨3, .closed 1⟩, 7⟩ (by decide)
    (by decide) (by rw [ha]; exact nofun)
  exact ⟨hread, (hmatched _ _ ha).2, (hfind 1 _ (by decide) hf).1⟩

end Pattern

end LuaMachine
