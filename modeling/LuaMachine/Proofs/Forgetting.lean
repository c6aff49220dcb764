import LuaMachine.Proofs.Trail

/-!
# An attempt forgets the trail

A search reads the captures in use, not what stands in the other slots.  So two searches from trails
with the same captures end alike, with the same fault, both without a match, or with the same match,
and an attempt, which begins with no captures, can be repeated with any trail.

* `Agrees`             two searches from trails with the captures of a third one end alike;
* `Forgetful`          a search of which only the captures count;
* `forgetful_follow`   so are the items of a pattern;
* `attempt_agrees`     and whole attempts.
-/

namespace LuaMachine

/-- Two ends of searches from trails with the captures of `t`. -/
inductive Agrees (t : Trail) : Attempt → Attempt → Prop
  | fault {e : PatternError} : Agrees t (.fault e) (.fault e)
  | failed {u u' : Trail} : t.Restores u → t.Restores u' → Agrees t (.failed u) (.failed u')
  | matched {j : Nat} {u u' : Trail} :
      u.Sized → u.Restores u' → Agrees t (.matched j u) (.matched j u')

/-- Of the trail only the captures count. -/
def Forgetful (search : Trail → Attempt) : Prop :=
  ∀ t t' : Trail, t.Sized → t.Restores t' → Agrees t (search t) (search t')

variable {search : Trail → Attempt} {t t' u : Trail}

theorem Agrees.retry {r r' : Attempt} {again again' : Trail → Attempt} : Agrees u r r' →
    (∀ v v', u.Restores v → u.Restores v' → Agrees t (again v) (again' v')) →
    Agrees t (match r with | .failed v => again v | r => r)
      (match r' with | .failed v => again' v | r => r) := by
  intro ha h
  cases ha with
  | fault => exact .fault
  | failed hv hv' => exact h _ _ hv hv'
  | matched hv hv' => exact .matched hv hv'

theorem Agrees.of_restores {r r' : Attempt} (h : t.Restores u) (ha : Agrees u r r') :
    Agrees t r r' := by
  cases ha with
  | fault => exact .fault
  | failed hu hu' => exact .failed (h.trans hu) (h.trans hu')
  | matched hu hu' => exact .matched hu hu'

/-- A search that goes on from two trails with the captures of the first one. -/
theorem Forgetful.again (h : Forgetful search) (v v' : Trail) (hv : t.Restores v)
    (hv' : t.Restores v') : Agrees t (search v) (search v') :=
  .of_restores hv (h v v' hv.1 ⟨hv'.1, hv'.2.trans hv.2.symm⟩)

theorem forgetful_failed : Forgetful .failed := fun _ _ ht h => .failed (.refl ht) h

theorem forgetful_matched (j : Nat) : Forgetful (.matched j) := fun _ _ ht h => .matched ht h

/-! ## single searches -/

theorem Forgetful.nested (h : Forgetful search) (depth : Nat) :
    Forgetful (Attempt.nested depth search) := by
  intro t t' ht hr
  unfold Attempt.nested
  split
  · exact .fault
  · exact h t t' ht hr

theorem Forgetful.capturing (h : Forgetful search) (c : Capture) :
    Forgetful (Attempt.capturing c search) := by
  intro t t' ht hr
  have hlev := Trail.level_eq hr ht
  unfold Attempt.capturing
  simp only [hlev]
  split
  · exact .fault
  · rename_i hfull
    have hl : t.level < Trail.maxCaptures := Nat.lt_of_not_le hfull
    have hl' : t'.level < Trail.maxCaptures := by rw [hlev]; exact hl
    have hpush : (t.push c).Restores (t'.push c) := by
      refine ⟨hr.1.push hl' c, ?_⟩
      rw [Trail.captures_push hr.1 hl', Trail.captures_push ht hl, hr.2]
    apply (h _ _ (ht.push hl c) hpush).retry
    intro v v' hv hv'
    exact .failed (Trail.restores_level ht hl hv) (Trail.restores_level ht hl hv')

theorem Forgetful.closing (h : Forgetful search) (i : Nat) :
    Forgetful (Attempt.closing i search) := by
  intro t t' ht hr
  have hlev := Trail.level_eq hr ht
  unfold Attempt.closing
  rcases Trail.lastUnfinished?_spec ht with ⟨hnone, hno⟩ | ⟨n, a, hsome, hstart, ho⟩
  · rcases Trail.lastUnfinished?_spec hr.1 with ⟨hnone', _⟩ | ⟨n, a, _, _, ho⟩
    · rw [hnone, hnone']
      exact .fault
    · exact absurd (hr.2 ▸ ho) (hno n a)
  · rcases Trail.lastUnfinished?_spec hr.1 with ⟨_, hno⟩ | ⟨n', a', hsome', hstart', ho'⟩
    · exact absurd (hr.2.symm ▸ ho) (hno n a)
    · rw [hr.2] at ho'
      obtain ⟨rfl, rfl⟩ := ho.unique ho'
      rw [hsome, hsome']
      simp only [hstart, hstart']
      have hreach : (t.reach n (.closed (i - a))).Restores (t'.reach n (.closed (i - a))) := by
        refine ⟨hr.1.reach n _, ?_⟩
        rw [Trail.captures_reach, Trail.captures_reach, hr.2]
      apply (h _ _ (ht.reach n _) hreach).retry
      intro v v' hv hv'
      exact .failed (Trail.restores_reach ho.1 hv) (Trail.restores_reach ho.1 hv')

/-! ## repetitions -/

theorem forgetful_farthestFirst {search : Nat → Trail → Attempt} (h : ∀ m, Forgetful (search m))
    (i n : Nat) : Forgetful (Attempt.farthestFirst search i n) := by
  induction n with
  | zero => exact h i
  | succ n ih =>
    intro t t' ht hr
    unfold Attempt.farthestFirst
    exact (h _ t t' ht hr).retry ih.again

theorem forgetful_nearestFirst {search : Nat → Trail → Attempt} (h : ∀ m, Forgetful (search m))
    (s : Bytes) (p : UInt8 → Bool) (i n : Nat) :
    Forgetful (Attempt.nearestFirst s p search i n) := by
  induction n generalizing i with
  | zero => exact h i
  | succ n ih =>
    intro t t' ht hr
    unfold Attempt.nearestFirst
    apply (h _ t t' ht hr).retry
    intro v v' hv hv'
    split
    · exact (ih (i + 1)).again v v' hv hv'
    · exact .failed hv hv'

/-! ## items -/

theorem slot_of_restores (ht : t.Sized) (hr : t.Restores t') {n : Nat} (hn : n < t.level) :
    t'.slot n = t.slot n := by
  have e := Trail.getElem?_captures hr.1 (i := n) (by rw [Trail.level_eq hr ht]; exact hn)
  rw [hr.2, Trail.getElem?_captures ht hn] at e
  exact (Option.some.inj e).symm

theorem referenced_of_restores (ht : t.Sized) (hr : t.Restores t') (s : Bytes) (n i : Nat) :
    Attempt.referenced s n i t' = Attempt.referenced s n i t := by
  have hlev := Trail.level_eq hr ht
  unfold Attempt.referenced
  by_cases hn : n = 0 ∨ t.level < n
  · have hbad : (n == 0 || decide (t.level < n)) = true := by simpa using hn
    simp only [hlev, hbad, Bool.true_or, if_true]
  · rw [slot_of_restores ht hr (by omega), hlev]

theorem forgetful_follow (s : Bytes) (is : List Item) :
    ∀ depth i, Forgetful (Attempt.follow s is depth i) := by
  induction is with
  | nil =>
    intro depth i
    exact forgetful_matched i
  | cons item is ih =>
    intro depth i
    have hnext : ∀ m, Forgetful (Attempt.nested depth (Attempt.follow s is (depth + 1) m)) :=
      fun m => (ih (depth + 1) m).nested depth
    intro t t' ht hr
    cases item with
    | element e r =>
      cases r with
      | once =>
        unfold Attempt.follow
        split
        · exact ih depth (i + 1) t t' ht hr
        · exact forgetful_failed t t' ht hr
      | zeroOrMore => exact forgetful_farthestFirst hnext i _ t t' ht hr
      | oneOrMore =>
        unfold Attempt.follow
        split
        · exact forgetful_failed t t' ht hr
        · exact forgetful_farthestFirst hnext (i + 1) _ t t' ht hr
      | fewest => exact forgetful_nearestFirst hnext s e.test i _ t t' ht hr
      | optional => exact forgetful_farthestFirst hnext i _ t t' ht hr
    | opening => exact (hnext i).capturing _ t t' ht hr
    | position => exact (hnext i).capturing _ t t' ht hr
    | closing => exact (hnext i).closing i t t' ht hr
    | ending =>
      unfold Attempt.follow
      split
      · exact forgetful_matched i t t' ht hr
      · exact forgetful_failed t t' ht hr
    | balance x y =>
      unfold Attempt.follow
      split
      · exact hnext _ t t' ht hr
      · exact forgetful_failed t t' ht hr
    | frontier set =>
      unfold Attempt.follow
      split
      · exact hnext i t t' ht hr
      · exact forgetful_failed t t' ht hr
    | reference n =>
      unfold Attempt.follow
      rw [referenced_of_restores ht hr]
      split
      · exact hnext _ t t' ht hr
      · exact forgetful_failed t t' ht hr
      · exact .fault

/-- **An attempt forgets the trail**: what is left in the slots does not count. -/
theorem attempt_agrees (s : Bytes) (is : List Item) (i : Nat)
    (ht : t.slots.size = Trail.maxCaptures) (ht' : t'.slots.size = Trail.maxCaptures) :
    Agrees t.cleared (attempt s is i t) (attempt s is i t') :=
  (forgetful_follow s is 1 i).nested 0 t.cleared t'.cleared (Trail.sized_cleared ht)
    ⟨Trail.sized_cleared ht', rfl⟩

end LuaMachine
