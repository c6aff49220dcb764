import LuaMachine.Proofs.Forgetting
import LuaMachine.Proofs.Rounds

/-!
# Substitutions and iterators meet the same matches

An iterator starts every search with a trail of its own and remembers a place and an end; a
substitution goes through the subject once, with one trail.  For a pattern with no anchor they meet
the same matches, and the same fault ends them; the first match is the one that a search finds.

* `Iterates`       what an iterator gives from a cursor on, up to its end or a fault;
* `Passes`         a place with nothing for an iterator, or only a match where the last one ended;
* `iterates_occurrencesFrom`   the matches of a substitution are those of an iterator;
* `find_eq_findMatch`          a search for a plain text finds what the matcher finds.
-/

namespace LuaMachine

namespace Pattern

/-- The matches that an iterator gives from a cursor on, and the fault that ends them, if any. -/
inductive Iterates (s p : Bytes) : Cursor → List Match → Option PatternError → Prop
  | done {c c' : Cursor} : c.next s p = (.ok none, c') → Iterates s p c [] none
  | fault {c c' : Cursor} {e : PatternError} :
      c.next s p = (.error e, c') → Iterates s p c [] (some e)
  | more {c c' : Cursor} {m : Match} {ms : List Match} {fault : Option PatternError} :
      c.next s p = (.ok (some m), c') → Iterates s p c' ms fault → Iterates s p c (m :: ms) fault

variable {s p : Bytes} {is : List Item} {i j : Nat} {last : Option Nat} {t u : Trail}
  {ms : List Match} {fault : Option PatternError}

theorem Iterates.unique {c : Cursor} {ms' : List Match} {fault' : Option PatternError}
    (h : Iterates s p c ms fault) (h' : Iterates s p c ms' fault') : ms' = ms ∧ fault' = fault := by
  induction h generalizing ms' fault' with
  | done e =>
    cases h' with
    | done => exact ⟨rfl, rfl⟩
    | fault e' => cases e.symm.trans e'
    | more e' => cases e.symm.trans e'
  | fault e =>
    cases h' with
    | done e' => cases e.symm.trans e'
    | fault e' =>
      cases e.symm.trans e'
      exact ⟨rfl, rfl⟩
    | more e' => cases e.symm.trans e'
  | more e _ ih =>
    cases h' with
    | done e' => cases e.symm.trans e'
    | fault e' => cases e.symm.trans e'
    | more e' h' =>
      cases e.symm.trans e'
      obtain ⟨rfl, rfl⟩ := ih h'
      exact ⟨rfl, rfl⟩

/-! ## one step of an iterator -/

/-- What a scan finds: a place, an end, and the captures. -/
def found (s : Bytes) (is : List Item) (last : Option Nat) (i n : Nat) (t : Trail) :
    Except PatternError (Option (Nat × Nat × Except PatternError (List Captured))) :=
  (Cursor.scan s is last i n t).map fun r => r.map fun (i, j, t) => (i, j, t.captured)

theorem next_eq (hread : Item.readAll p.toList = .ok is) (i : Nat) (last : Option Nat) :
    (⟨i, last⟩ : Cursor).next s p
      = match found s is last i (s.size + 1 - i) Trail.empty with
        | .error e => (.error e, ⟨i, last⟩)
        | .ok none => (.ok none, ⟨s.size + 1, last⟩)
        | .ok (some (i, j, r)) => (r.map fun cs => some ⟨i, j, cs⟩, ⟨j, some j⟩) := by
  unfold Cursor.next found
  rw [hread]
  dsimp only
  cases Cursor.scan s is last i (s.size + 1 - i) Trail.empty with
  | error e => rfl
  | ok r =>
    cases r with
    | none => rfl
    | some r => rfl

theorem captured_of_restores (h : t.Restores u) : u.captured = t.captured :=
  congrArg (List.mapM Capture.finish) h.2

theorem found_eq (s : Bytes) (is : List Item) (last : Option Nat) (n : Nat) :
    ∀ (i : Nat) (t t' : Trail), t.slots.size = Trail.maxCaptures →
      t'.slots.size = Trail.maxCaptures → found s is last i n t' = found s is last i n t := by
  induction n with
  | zero =>
    intro i t t' _ _
    rfl
  | succ n ih =>
    intro i t t' ht ht'
    have ha := attempt_agrees s is i ht ht'
    unfold found Cursor.scan
    generalize attempt s is i t = r at ha ⊢
    generalize attempt s is i t' = r' at ha ⊢
    cases ha with
    | fault => rfl
    | failed hu hu' => exact ih (i + 1) _ _ hu.1.slots hu'.1.slots
    | matched hu hu' =>
      dsimp only
      split
      · exact ih (i + 1) _ _ hu.slots hu'.1.slots
      · show Except.ok (some (i, _, _)) = Except.ok (some (i, _, _))
        rw [captured_of_restores hu']

def Passes (s : Bytes) (is : List Item) (last : Option Nat) (i : Nat) (t u : Trail) : Prop :=
  attempt s is i t = .failed u ∨ ∃ j, attempt s is i t = .matched j u ∧ some j = last

theorem found_pass (h : Passes s is last i t u) (n : Nat) :
    found s is last i (n + 1) t = found s is last (i + 1) n u := by
  show Except.map _ (Cursor.scan s is last i (n + 1) t) = Except.map _ _
  rcases h with h | ⟨j, h, hj⟩
  · rw [Cursor.scan, h]
  · rw [Cursor.scan, h]
    dsimp only
    rw [if_pos hj]

theorem found_fault {e : PatternError} (h : attempt s is i t = .fault e) (n : Nat) :
    found s is last i (n + 1) t = .error e := by
  unfold found
  rw [Cursor.scan, h]
  rfl

theorem found_match (h : attempt s is i t = .matched j u) (hj : some j ≠ last) (n : Nat) :
    found s is last i (n + 1) t = .ok (some (i, j, u.captured)) := by
  unfold found
  rw [Cursor.scan, h]
  dsimp only
  rw [if_neg hj]
  rfl

theorem next_eq_of_trail (hread : Item.readAll p.toList = .ok is) (hi : i ≤ s.size)
    (ht : t.slots.size = Trail.maxCaptures) (last : Option Nat) :
    (⟨i, last⟩ : Cursor).next s p
      = match found s is last i (s.size - i + 1) t with
        | .error e => (.error e, ⟨i, last⟩)
        | .ok none => (.ok none, ⟨s.size + 1, last⟩)
        | .ok (some (i, j, r)) => (r.map fun cs => some ⟨i, j, cs⟩, ⟨j, some j⟩) := by
  rw [next_eq hread, found_eq s is last _ i t Trail.empty ht rfl, Nat.sub_add_comm hi]

/-! ## going on after a place -/

theorem iterates_end (hread : Item.readAll p.toList = .ok is) (last : Option Nat) :
    Iterates s p ⟨s.size + 1, last⟩ [] none := by
  apply Iterates.done
  rw [next_eq hread, Nat.sub_self]
  rfl

theorem Iterates.of_fault {e : PatternError} (hread : Item.readAll p.toList = .ok is)
    (hi : i ≤ s.size) (ht : t.slots.size = Trail.maxCaptures) (h : attempt s is i t = .fault e) :
    Iterates s p ⟨i, last⟩ [] (some e) := by
  apply Iterates.fault
  rw [next_eq_of_trail hread hi ht, found_fault h]

theorem Iterates.pass (hread : Item.readAll p.toList = .ok is) (hi : i ≤ s.size)
    (ht : t.slots.size = Trail.maxCaptures) (h : Passes s is last i t u)
    (hu : u.slots.size = Trail.maxCaptures) (hit : Iterates s p ⟨i + 1, last⟩ ms fault) :
    Iterates s p ⟨i, last⟩ ms fault := by
  have e := next_eq_of_trail hread hi ht last
  have e' := next_eq (s := s) hread (i + 1) last
  rw [found_pass h] at e
  rw [found_eq s is last _ (i + 1) u Trail.empty hu rfl, Nat.add_sub_add_right] at e'
  generalize found s is last (i + 1) (s.size - i) u = r at e e'
  cases hit with
  | done hn =>
    rw [hn] at e'
    cases r with
    | error e => cases e'
    | ok r =>
      cases r with
      | none => exact .done e
      | some r => exact .done (e.trans (Eq.symm e'))
  | fault hn =>
    rw [hn] at e'
    cases r with
    | error e₀ =>
      cases e'
      exact .fault e
    | ok r =>
      cases r with
      | none => cases e'
      | some r => exact .fault (e.trans (Eq.symm e'))
  | more hn hrest =>
    rw [hn] at e'
    cases r with
    | error e => cases e'
    | ok r =>
      cases r with
      | none => cases e'
      | some r => exact .more (e.trans (Eq.symm e')) hrest

theorem next_match (hread : Item.readAll p.toList = .ok is) (hi : i ≤ s.size)
    (ht : t.slots.size = Trail.maxCaptures) (h : attempt s is i t = .matched j u)
    (hj : some j ≠ last) :
    (⟨i, last⟩ : Cursor).next s p = (u.captured.map fun cs => some ⟨i, j, cs⟩, ⟨j, some j⟩) := by
  rw [next_eq_of_trail hread hi ht, found_match h hj]

/-! ## substitutions -/

/-- **The matches of a substitution are those of an iterator.**  By induction on the rounds, with
the place of the iterator where the substitution stands. -/
theorem iterates_occurrencesFrom (hread : Item.readAll p.toList = .ok is) (rounds : Nat) :
    ∀ (t : Trail) (i : Nat) (last : Option Nat), t.slots.size = Trail.maxCaptures → i ≤ s.size →
      roundsLeft s i last < rounds →
      Iterates s p ⟨i, last⟩ (occurrencesFrom s is false rounds none t i last).1
        (occurrencesFrom s is false rounds none t i last).2 := by
  have hend := Item.endsLast_readAll hread
  induction rounds with
  | zero =>
    intro t i last _ _ h
    exact absurd h (Nat.not_lt_zero _)
  | succ rounds ih =>
    intro t i last ht hi hr
    -- a place that is passed: the next one, or the end
    have hpass : ∀ u, Passes s is last i t u → u.slots.size = Trail.maxCaptures →
        ∀ r, r = (if i < s.size ∧ !false then occurrencesFrom s is false rounds none u (i + 1) last
          else ([], none)) → Iterates s p ⟨i, last⟩ r.1 r.2 := by
      intro u h hu r hr'
      apply Iterates.pass hread hi ht h hu
      by_cases hlt : i < s.size
      · rw [hr', if_pos ⟨hlt, rfl⟩]
        exact ih u (i + 1) last hu hlt (by have := roundsLeft_pass hlt last; omega)
      · rw [hr', if_neg fun h => hlt h.1, Nat.le_antisymm hi (Nat.le_of_not_lt hlt)]
        exact iterates_end hread last
    rw [occurrencesFrom_succ (Option.some_ne_none 0).symm]
    unfold round
    cases ha : attempt s is i t with
    | fault e => exact .of_fault hread hi ht ha
    | failed u => exact hpass u (.inl ha) (attempt_failed hend hi ht ha).1 _ rfl
    | matched j u =>
      obtain ⟨hu, ks, hk⟩ := attempt_matched hend hi ht ha
      by_cases hj : some j = last
      · simp only [if_pos hj]
        exact hpass u (.inr ⟨j, ha, hj⟩) hu _ rfl
      · have hn := next_match hread hi ht ha hj
        obtain ⟨hij, hjs, _⟩ := hk.1.inside hi (Placed.nil i)
        simp only [if_neg hj]
        cases hc : u.captured with
        | error e =>
          rw [hc] at hn
          exact .fault hn
        | ok cs =>
          rw [hc] at hn
          have hleft := roundsLeft_match hij hjs hj
          exact .more hn (ih u j (some j) hu hjs (by omega))

theorem items_of_not_anchored (h : isAnchored p = false) : items p = Item.readAll p.toList := by
  unfold items
  rw [h]
  rfl

/-- With no limit, a substitution replaces the matches that an iterator gives. -/
theorem iterates_occurrences (h : isAnchored p = false) :
    Iterates s p (Cursor.start 0) (occurrences s p none).1 (occurrences s p none).2 := by
  unfold occurrences
  rw [items_of_not_anchored h, h]
  cases hread : Item.readAll p.toList with
  | error e =>
    apply Iterates.fault
    unfold Cursor.next
    rw [hread]
  | ok is =>
    apply iterates_occurrencesFrom hread
    · rfl
    · exact Nat.zero_le _
    · show 2 * (s.size - 0) + 1 < 2 * (s.size + 1)
      omega

/-! ## the first match -/

theorem firstMatch_eq (s : Bytes) (is : List Item) (n : Nat) : ∀ (i : Nat) (t : Trail),
    firstMatch s is i n t = match found s is none i (n + 1) t with
      | .error e => .error e
      | .ok none => .ok none
      | .ok (some (i, j, r)) => r.map fun cs => some ⟨i, j, cs⟩ := by
  induction n with
  | zero =>
    intro i t
    unfold firstMatch
    cases ha : attempt s is i t with
    | fault e => rw [found_fault ha]
    | failed u => rw [found_pass (.inl ha)]; rfl
    | matched j u => rw [found_match ha (Option.some_ne_none j)]
  | succ n ih =>
    intro i t
    unfold firstMatch
    cases ha : attempt s is i t with
    | fault e => rw [found_fault ha]
    | failed u => rw [found_pass (.inl ha)]; exact ih (i + 1) u
    | matched j u => rw [found_match ha (Option.some_ne_none j)]

theorem next_start (h : isAnchored p = false) :
    ((Cursor.start 0).next s p).1 = findMatch s p 0 := by
  unfold findMatch
  rw [items_of_not_anchored h, h]
  cases hread : Item.readAll p.toList with
  | error e =>
    unfold Cursor.next
    rw [hread]
    rfl
  | ok is =>
    have e := next_eq (s := s) hread 0 none
    show ((⟨0, none⟩ : Cursor).next s p).1 = firstMatch s is 0 (s.size - 0) Trail.empty
    rw [e, firstMatch_eq, Nat.sub_zero, Nat.sub_zero]
    cases found s is none 0 (s.size + 1) Trail.empty with
    | error e => rfl
    | ok r =>
      cases r with
      | none => rfl
      | some r => rfl

theorem follow_plain (s : Bytes) (bs : List UInt8) (depth : Nat) (t : Trail) : ∀ i,
    Attempt.follow s (Item.plain bs) depth i t = .failed t ∨
      ∃ j, Attempt.follow s (Item.plain bs) depth i t = .matched j t := by
  induction bs with
  | nil =>
    intro i
    exact .inr ⟨i, rfl⟩
  | cons b bs ih =>
    intro i
    rw [show Item.plain (b :: bs) = .element (.byte b) .once :: Item.plain bs from rfl,
      Attempt.follow]
    split
    · exact ih (i + 1)
    · exact .inl rfl

/-- The items spell a text: an attempt compares the subject with it. -/
def Spells (is : List Item) (q : Bytes) : Prop :=
  ∀ (s : Bytes) (i : Nat) (t : Trail), i ≤ s.size → t.slots.size = Trail.maxCaptures →
    attempt s is i t = if standsAt s q i then .matched (i + q.size) t.cleared else .failed t.cleared

theorem spells_plain (q : Bytes) : Spells (Item.plain q.toList) q := by
  intro s i t hi ht
  have hend : Item.EndsLast (Item.plain q.toList) := by
    refine Item.endsLast_of_not_mem fun h => ?_
    obtain ⟨b, _, e⟩ := List.mem_map.mp h
    cases e
  rcases follow_plain s q.toList 1 t.cleared i with h | ⟨j, h⟩
  · have ha : attempt s (Item.plain q.toList) i t = .failed t.cleared := h
    obtain ⟨_, hno⟩ := attempt_failed hend hi ht ha
    rw [ha, if_neg (fun hs => hno ((matchesAt_plain_iff hi).mpr hs))]
  · have ha : attempt s (Item.plain q.toList) i t = .matched j t.cleared := h
    obtain ⟨_, ks, hk⟩ := attempt_matched hend hi ht ha
    obtain ⟨hs, _, rfl, _⟩ := (matches_plain_iff hi).mp hk.1
    rw [ha, if_pos (standsAt_iff.mpr hs), Array.length_toList]

/-- Where the items spell a text, a search by the matcher is a search for the text. -/
theorem Spells.firstMatch {q : Bytes} (h : Spells is q) (n : Nat) : ∀ (i : Nat) (t : Trail),
    i + n ≤ s.size → t.slots.size = Trail.maxCaptures →
    firstMatch s is i n t = .ok ((firstPlace s q i n).map fun i => ⟨i, i + q.size, []⟩) := by
  induction n with
  | zero =>
    intro i t hn ht
    unfold Pattern.firstMatch firstPlace
    rw [h s i t (by omega) ht]
    by_cases hs : standsAt s q i = true
    · rw [if_pos hs, if_pos hs]
      rfl
    · rw [if_neg hs, if_neg hs]
      rfl
  | succ n ih =>
    intro i t hn ht
    unfold Pattern.firstMatch firstPlace
    rw [h s i t (by omega) ht]
    by_cases hs : standsAt s q i = true
    · rw [if_pos hs, if_pos hs]
      rfl
    · rw [if_neg hs, if_neg hs]
      exact ih (i + 1) t.cleared (by omega) ht

theorem find_eq_findMatch (h : isAnchored p = false) {init : Nat} (hi : init ≤ s.size) :
    find s p init = findMatch s p init := by
  unfold find
  rw [if_neg (Nat.not_lt_of_le hi)]
  by_cases hp : isPlain p = true
  · rw [if_pos hp]
    unfold findMatch findPlain
    rw [items_of_not_anchored h, Item.readAll_plain (not_special_of_isPlain hp), h,
      if_neg (Nat.not_lt_of_le hi)]
    exact ((spells_plain p).firstMatch (s.size - init) init Trail.empty (by omega) rfl).symm
  · rw [if_neg hp]

/-- What a search finds that is to find the first of some matches. -/
def firstOf : List Match → Option PatternError → Except PatternError (Option Match)
  | m :: _, _ => .ok (some m)
  | [], some e => .error e
  | [], none => .ok none

theorem Iterates.next_fst {c : Cursor} (h : Iterates s p c ms fault) :
    (c.next s p).1 = firstOf ms fault := by
  cases h with
  | done e => rw [e]; rfl
  | fault e => rw [e]; rfl
  | more e _ => rw [e]; rfl

/-! ## all together -/

theorem Iterates.substitute (h : isAnchored p = false)
    (hit : Iterates s p (Cursor.start 0) ms fault)
    (replace : Match → Except PatternError (Option Bytes)) :
    substitute s p none replace = replaceAll s ms fault replace := by
  obtain ⟨rfl, rfl⟩ := hit.unique (iterates_occurrences h)
  exact substitute_eq none replace

theorem exists_mapM {replace : Match → Except PatternError (Option Bytes)}
    (h : ∀ m ∈ ms, ∃ r, replace m = .ok r) : ∃ rs, ms.mapM replace = .ok rs := by
  induction ms with
  | nil => exact ⟨[], rfl⟩
  | cons m ms ih =>
    obtain ⟨r, hr⟩ := h m List.mem_cons_self
    obtain ⟨rs, hrs⟩ := ih fun m hm => h m (List.mem_cons_of_mem _ hm)
    refine ⟨r :: rs, ?_⟩
    rw [List.mapM_cons, hr, hrs]
    rfl

/-- **Substitutions and iterators meet the same matches.**  For a pattern with no anchor, what an
iterator gives is what a substitution with no limit meets, each match being handed to the
replacement in order; if no replacement fails, the substitution fails exactly with the fault that
ends the iterator; and a search finds the first match, whether it looks for a plain text or runs the
matcher. -/
theorem iteration_and_substitution_agree (s p : Bytes) (h : isAnchored p = false) :
    (∀ ms fault, Iterates s p (Cursor.start 0) ms fault ↔ occurrences s p none = (ms, fault)) ∧
    ∀ ms fault, Iterates s p (Cursor.start 0) ms fault →
      (∀ replace, substitute s p none replace = replaceAll s ms fault replace) ∧
      (∀ replace, (∀ m ∈ ms, ∃ r, replace m = .ok r) →
        ∀ e, substitute s p none replace = .error e ↔ fault = some e) ∧
      find s p 0 = firstOf ms fault ∧ findMatch s p 0 = firstOf ms fault := by
  have hmeet := iterates_occurrences (s := s) h
  refine ⟨fun ms fault => ⟨fun hit => ?_, fun e => ?_⟩, fun ms fault hit => ?_⟩
  · obtain ⟨hms, hfault⟩ := hit.unique hmeet
    exact Prod.ext hms hfault
  · rw [e] at hmeet
    exact hmeet
  · have hfind : findMatch s p 0 = firstOf ms fault := (next_start h).symm.trans hit.next_fst
    refine ⟨hit.substitute h, fun replace hr e => ?_,
      (find_eq_findMatch h (Nat.zero_le _)).trans hfind, hfind⟩
    obtain ⟨rs, hrs⟩ := exists_mapM hr
    rw [hit.substitute h]
    unfold replaceAll
    rw [hrs]
    cases fault with
    | none => exact ⟨nofun, nofun⟩
    | some e' =>
      show Except.error e' = Except.error e ↔ some e' = some e
      rw [Except.error.injEq, Option.some.injEq]

/-- In `hello` the pattern `l*` meets empty matches, the two `l`s at once, and no empty match just
after them. -/
theorem iteration_and_substitution_agree_repeated :
    let s : Bytes := #[0x68, 0x65, 0x6c, 0x6c, 0x6f]
    let p : Bytes := #[0x6c, 0x2a]
    isAnchored p = false ∧
      Iterates s p (Cursor.start 0) [⟨0, 0, []⟩, ⟨1, 1, []⟩, ⟨2, 4, []⟩, ⟨5, 5, []⟩] none := by
  intro s p
  have h : isAnchored p = false := by decide
  exact ⟨h, ((iteration_and_substitution_agree s p h).1 _ _).mpr (by decide +kernel)⟩

end Pattern

end LuaMachine
