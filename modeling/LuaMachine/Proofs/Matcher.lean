import LuaMachine.Proofs.Subject

/-!
# The matcher finds the first choice

A search goes through choices in their order and hands its trail on.  `Answers` says what the end of a
search tells about the choices it was to go through, and `Explores` that a search answers from every
trail with given captures, whatever else stands in the slots.  Each way of searching explores, once
the searches that it calls do; `explores_follow` puts them together along the items.

A fault says nothing about the choices: it ends the search before they are gone through.
-/

namespace LuaMachine

/-- Which choices there are, each with its end and its captures. -/
abbrev Choices := List Nat → Nat → List Capture → Prop

/-- What a search that started with a trail tells about choices. -/
def Answers (rs : List Repetition) (sol : Choices) (t : Trail) : Attempt → Prop
  | .fault _ => True
  | .failed u => t.Restores u ∧ ∀ ks j cs, ¬ sol ks j cs
  | .matched j u =>
    u.Sized ∧ ∃ ks, sol ks j u.captures ∧
      ∀ ks' j' cs', sol ks' j' cs' → ks' = ks ∨ Before rs ks ks'

/-- From every trail with the given captures, a search goes through the choices in their order. -/
def Explores (rs : List Repetition) (sol : Choices) (cs : List Capture)
    (search : Trail → Attempt) : Prop :=
  ∀ t : Trail, t.Sized → t.captures = cs → Answers rs sol t (search t)

variable {rs : List Repetition} {sol sol' : Choices} {cs : List Capture}
  {search : Trail → Attempt} {t u : Trail}

theorem Answers.congr {r : Attempt} (h : ∀ ks j cs, sol' ks j cs ↔ sol ks j cs)
    (ha : Answers rs sol t r) : Answers rs sol' t r := by
  have e : sol' = sol := by
    funext ks j cs
    exact propext (h ks j cs)
  rw [e]
  exact ha

theorem answers_failed (ht : t.Sized) (h : ∀ ks j cs, ¬ sol ks j cs) :
    Answers rs sol t (.failed t) := ⟨.refl ht, h⟩

/-- A search that goes on from a trail with the same captures answers for the first one too. -/
theorem Answers.of_restores {r : Attempt} (hu : t.Restores u) (ha : Answers rs sol u r) :
    Answers rs sol t r := by
  cases r with
  | fault e => trivial
  | failed v => exact ⟨hu.trans ha.1, ha.2⟩
  | matched j v => exact ha

theorem Explores.congr (h : ∀ ks j cs', sol' ks j cs' ↔ sol ks j cs')
    (hs : Explores rs sol cs search) : Explores rs sol' cs search :=
  fun t ht hc => .congr h (hs t ht hc)

/-! ## single searches -/

theorem Explores.nested (h : Explores rs sol cs search) (depth : Nat) :
    Explores rs sol cs (Attempt.nested depth search) := by
  intro t ht hc
  unfold Attempt.nested
  split
  · trivial
  · exact h t ht hc

theorem Explores.capturing {c : Capture} (h : Explores rs sol (cs ++ [c]) search) :
    Explores rs sol cs (Attempt.capturing c search) := by
  intro t ht hc
  show Answers rs sol t (if Trail.maxCaptures ≤ t.level then _ else _)
  by_cases hfull : Trail.maxCaptures ≤ t.level
  · rw [if_pos hfull]
    trivial
  rw [if_neg hfull]
  have hl : t.level < Trail.maxCaptures := Nat.lt_of_not_le hfull
  have ha := h (t.push c) (ht.push hl c) (by rw [Trail.captures_push ht hl, hc])
  cases hr : search (t.push c) with
  | fault e => trivial
  | failed u =>
    rw [hr] at ha
    exact ⟨Trail.restores_level ht hl ha.1, ha.2⟩
  | matched j u =>
    rw [hr] at ha
    exact ha

theorem Explores.closing {i : Nat} {sol : Nat → Nat → Choices}
    (h : ∀ n a, LastOpen cs n a →
      Explores rs (sol n a) (cs.set n ⟨a, .closed (i - a)⟩) search) :
    Explores rs (fun ks j cs' => ∃ n a, LastOpen cs n a ∧ sol n a ks j cs') cs
      (Attempt.closing i search) := by
  rintro t ht rfl
  unfold Attempt.closing
  rcases Trail.lastUnfinished?_spec ht with ⟨hnone, _⟩ | ⟨n, a, hsome, hstart, ho⟩
  · rw [hnone]
    trivial
  subst hstart
  rw [hsome]
  -- only the capture opened last counts
  have hsol : ∀ ks j cs', (∃ n a, LastOpen t.captures n a ∧ sol n a ks j cs') ↔
      sol n (t.slot n).start ks j cs' := by
    refine fun ks j cs' => ⟨?_, fun hs => ⟨n, _, ho, hs⟩⟩
    rintro ⟨n', a', ho', hs⟩
    obtain ⟨rfl, rfl⟩ := ho.unique ho'
    exact hs
  apply Answers.congr hsol
  have ha := h n _ ho (t.reach n (.closed (i - (t.slot n).start))) (ht.reach n _)
    (Trail.captures_reach_eq_set ho.1 _)
  simp only
  cases hr : search (t.reach n (.closed (i - (t.slot n).start))) with
  | fault e => trivial
  | failed u =>
    rw [hr] at ha
    exact ⟨Trail.restores_reach ho.1 ha.1, ha.2⟩
  | matched j u =>
    rw [hr] at ha
    exact ha

theorem answers_at {P : Nat → Prop} {sol : Nat → Choices} {m : Nat} {r : Attempt} (hm : P m)
    (honly : ∀ m', P m' → m' = m) (h : Answers rs (sol m) t r) :
    Answers rs (fun ks j cs' => ∃ m, P m ∧ sol m ks j cs') t r := by
  apply Answers.congr _ h
  refine fun ks j cs' => ⟨?_, fun hs => ⟨m, hm, hs⟩⟩
  rintro ⟨m', hm', hs⟩
  obtain rfl := honly m' hm'
  exact hs

/-! ## repetitions -/

/-- The choices that begin with a count and go on at one of the places from `lo` to `hi`; the count
is the distance from `o`. -/
def Counted (o lo hi : Nat) (sol : Nat → Choices) : Choices :=
  fun ks j cs => ∃ m ks', lo ≤ m ∧ m ≤ hi ∧ ks = (m - o) :: ks' ∧ sol m ks' j cs

section
variable {r : Repetition} {o i n : Nat} {sol : Nat → Choices}
  {search : Nat → Trail → Attempt}

theorem answers_counted_matched {lo hi m j : Nat} (hlo : lo ≤ m) (hhi : m ≤ hi)
    (hfirst : ∀ m', lo ≤ m' → m' ≤ hi → m' ≠ m → r.Prefers (m - o) (m' - o))
    (ha : Answers rs (sol m) t (.matched j u)) :
    Answers (r :: rs) (Counted o lo hi sol) t (.matched j u) := by
  obtain ⟨hu, ks, hks, hall⟩ := ha
  refine ⟨hu, (m - o) :: ks, ⟨m, ks, hlo, hhi, rfl, hks⟩, ?_⟩
  rintro _ j' cs' ⟨m', ks', hlo', hhi', rfl, hs⟩
  by_cases hm : m' = m
  · subst hm
    rcases hall ks' j' cs' hs with rfl | hb
    · exact .inl rfl
    · exact .inr (.inr ⟨rfl, hb⟩)
  · exact .inr (.inl (hfirst m' hlo' hhi' hm))

theorem Explores.single {m : Nat} {search : Trail → Attempt} (h : Explores rs (sol m) cs search) :
    Explores (r :: rs) (Counted o m m sol) cs search := by
  intro t ht hc
  have ha := h t ht hc
  cases hs : search t with
  | fault e => trivial
  | failed u =>
    rw [hs] at ha
    refine ⟨ha.1, ?_⟩
    rintro ks j cs' ⟨m', ks', hlo, hhi, _, hm⟩
    obtain rfl : m' = m := Nat.le_antisymm hhi hlo
    exact ha.2 ks' j cs' hm
  | matched j u =>
    rw [hs] at ha
    exact answers_counted_matched (Nat.le_refl m) (Nat.le_refl m)
      (fun m' h1 h2 hne => absurd (Nat.le_antisymm h2 h1) hne) ha

theorem explores_farthestFirst (hr : r ≠ .fewest) (ho : o ≤ i)
    (h : ∀ m, i ≤ m → m ≤ i + n → Explores rs (sol m) cs (search m)) :
    Explores (r :: rs) (Counted o i (i + n) sol) cs (Attempt.farthestFirst search i n) := by
  have hmore : ∀ a b : Nat, b < a → r.Prefers a b := by
    intro a b hab
    cases r with
    | fewest => exact absurd rfl hr
    | _ => exact hab
  induction n with
  | zero => exact (h i (Nat.le_refl i) (Nat.le_refl i)).single
  | succ n ih =>
    intro t ht hc
    have hlast := h (i + (n + 1)) (Nat.le_add_right _ _) (Nat.le_refl _) t ht hc
    unfold Attempt.farthestFirst
    cases hs : search (i + (n + 1)) t with
    | fault e => trivial
    | matched j u =>
      rw [hs] at hlast
      apply answers_counted_matched (Nat.le_add_right _ _) (Nat.le_refl _) _ hlast
      intro m' h1 h2 hne
      exact hmore _ _ (by omega)
    | failed u =>
      rw [hs] at hlast
      have hrest := ih (fun m h1 h2 => h m h1 (by omega)) u hlast.1.1 (hlast.1.2.trans hc)
      apply Answers.congr _ (hrest.of_restores hlast.1)
      -- the farthest place has no choice
      refine fun ks j cs' => ⟨?_, ?_⟩
      · rintro ⟨m, ks', h1, h2, hk, hm⟩
        have hne : m ≠ i + (n + 1) := fun e => hlast.2 ks' j cs' (e ▸ hm)
        exact ⟨m, ks', h1, by omega, hk, hm⟩
      · rintro ⟨m, ks', h1, h2, hk, hm⟩
        exact ⟨m, ks', h1, by omega, hk, hm⟩

/-- The nearest place comes first, and the others reach as far as bytes pass the test. -/
theorem explores_nearestFirst {s : Bytes} {p : UInt8 → Bool} (ho : o ≤ i) (hn : i + n = s.size)
    (h : ∀ m, i ≤ m → m ≤ s.size → Explores rs (sol m) cs (search m)) :
    Explores (.fewest :: rs) (Counted o i (i + Subject.run s p i) sol) cs
      (Attempt.nearestFirst s p search i n) := by
  induction n generalizing i with
  | zero =>
    have hat : ¬ Subject.at? s p i = true := by
      intro hat
      have := Subject.lt_size_of_at? hat
      omega
    rw [Subject.run_of_not_at? (by omega) hat]
    exact (h i (Nat.le_refl i) (by omega)).single
  | succ n ih =>
    intro t ht hc
    have hfirst := h i (Nat.le_refl i) (by omega) t ht hc
    unfold Attempt.nearestFirst
    cases hs : search i t with
    | fault e => trivial
    | matched j u =>
      rw [hs] at hfirst
      apply answers_counted_matched (Nat.le_refl i) (Nat.le_add_right _ _) _ hfirst
      intro m' h1 h2 hne
      show i - o < m' - o
      omega
    | failed u =>
      rw [hs] at hfirst
      show Answers _ _ t (if Subject.at? s p i then _ else _)
      by_cases hat : Subject.at? s p i = true
      · rw [if_pos hat, Subject.run_of_at? hat]
        have hrest := ih (i := i + 1) (by omega) (by omega) (fun m h1 h2 => h m (by omega) h2) u
          hfirst.1.1 (hfirst.1.2.trans hc)
        apply Answers.congr _ (hrest.of_restores hfirst.1)
        -- the nearest place has no choice
        refine fun ks j cs' => ⟨?_, ?_⟩
        · rintro ⟨m, ks', h1, h2, hk, hm⟩
          have hne : m ≠ i := fun e => hfirst.2 ks' j cs' (e ▸ hm)
          exact ⟨m, ks', by omega, by omega, hk, hm⟩
        · rintro ⟨m, ks', h1, h2, hk, hm⟩
          exact ⟨m, ks', by omega, by omega, hk, hm⟩
      · rw [if_neg hat, Subject.run_of_not_at? (by omega) hat]
        refine ⟨hfirst.1, ?_⟩
        rintro ks j cs' ⟨m, ks', h1, h2, _, hm⟩
        obtain rfl : m = i := Nat.le_antisymm h2 h1
        exact hfirst.2 ks' j cs' hm

end

/-! ## references -/

/-- The text of a capture that ends at a place or before it stands there once more. -/
theorem stands_again_iff {s : Bytes} {a i length : Nat} (ha : a + length ≤ i) (hi : i ≤ s.size) :
    (decide (length ≤ s.size - i) && s.agree i s a length) = true ↔
      i + length ≤ s.size ∧ s.slice i (i + length) = s.slice a (a + length) := by
  rw [Bool.and_eq_true, decide_eq_true_eq]
  constructor
  · rintro ⟨hl, h⟩
    have hl' : i + length ≤ s.size := by omega
    exact ⟨hl', (Bytes.agree_iff hl' (by omega)).mp h⟩
  · rintro ⟨hl, h⟩
    exact ⟨by omega, (Bytes.agree_iff hl (by omega)).mpr h⟩

/-- A reference that is no fault goes on after the text of its capture, if that text stands there. -/
theorem referenced_spec {s : Bytes} {n i : Nat} {r : Option Nat} (ht : t.Sized) (hi : i ≤ s.size)
    (hp : Placed i t.captures) (h : Attempt.referenced s n i t = .ok r) :
    ∃ m, n = m + 1 ∧ ∀ j, r = some j ↔ ∃ a length,
      (t.captures[m]? = some ⟨a, .closed length⟩ ∧ i + length ≤ s.size ∧
        s.slice i (i + length) = s.slice a (a + length)) ∧ i + length = j := by
  unfold Attempt.referenced at h
  simp only at h
  split at h
  · cases h
  rename_i hok
  simp only [Bool.or_eq_true, beq_iff_eq, decide_eq_true_eq, not_or] at hok
  obtain ⟨⟨hn, hl⟩, hu⟩ := hok
  obtain ⟨m, rfl⟩ := Nat.exists_eq_succ_of_ne_zero hn
  have hc : t.captures[m]? = some (t.slot m) := Trail.getElem?_captures ht (by omega)
  refine ⟨m, rfl, fun j => ?_⟩
  rw [hc]
  obtain ⟨_, hend⟩ := hp _ (List.mem_of_getElem? hc)
  rw [show m.succ - 1 = m from rfl] at h
  generalize t.slot m = c at h hend ⊢
  obtain ⟨a, x⟩ := c
  cases x with
  | unfinished =>
    cases h
    simp
  | position =>
    cases h
    simp
  | closed length =>
    have hle : a + length ≤ i := hend length rfl
    have htext := stands_again_iff hle hi
    change (if length ≤ s.size - i && s.agree i s a length then .ok (some (i + length))
      else .ok none) = Except.ok r at h
    simp only [Option.some.injEq, Capture.mk.injEq, Extent.closed.injEq]
    by_cases htx : (decide (length ≤ s.size - i) && s.agree i s a length) = true
    · rw [if_pos htx] at h
      cases h
      rw [Option.some.injEq]
      constructor
      · intro e
        exact ⟨a, length, ⟨⟨rfl, rfl⟩, htext.mp htx⟩, e⟩
      · rintro ⟨_, _, ⟨⟨rfl, rfl⟩, _⟩, e⟩
        exact e
    · rw [if_neg htx] at h
      cases h
      constructor
      · exact nofun
      · rintro ⟨_, _, ⟨⟨rfl, rfl⟩, htx'⟩, _⟩
        exact absurd (htext.mpr htx') htx

/-! ## items -/

/-- The choices under which items match from a place and from the captures made before. -/
def choices (s : Bytes) (is : List Item) (i : Nat) (cs : List Capture) : Choices :=
  fun ks j cs' => Matches s is ks i cs j cs'

/-- The end of the subject is asked for by the last item only. -/
def Item.EndsLast (is : List Item) : Prop := ∀ rest, .ending :: rest <:+ is → rest = []

theorem Item.EndsLast.tail {item : Item} {is : List Item} (h : EndsLast (item :: is)) :
    EndsLast is := fun rest hr => h rest (hr.trans (List.suffix_cons item is))

section
variable {s : Bytes} {e : Element} {r : Repetition} {is : List Item} {i : Nat}

/-- The choices for an element go on at the places up to which the element may occur. -/
theorem choices_element_iff {lo hi : Nat} (hlo : i ≤ lo)
    (h : ∀ k, (r.Allows k ∧ Subject.Stretch s e.test i k) ↔ lo ≤ i + k ∧ i + k ≤ hi)
    (ks : List Nat) (j : Nat) (cs' : List Capture) :
    choices s (.element e r :: is) i cs ks j cs' ↔
      Counted i lo hi (fun m => choices s is m cs) ks j cs' := by
  unfold choices
  rw [Matches.element_iff]
  constructor
  · rintro ⟨k, ks', rfl, hk, hm⟩
    obtain ⟨h1, h2⟩ := (h k).mp hk
    exact ⟨i + k, ks', h1, h2, by rw [Nat.add_sub_cancel_left], hm⟩
  · rintro ⟨m, ks', h1, h2, rfl, hm⟩
    have e : i + (m - i) = m := Nat.add_sub_cancel' (Nat.le_trans hlo h1)
    refine ⟨m - i, ks', rfl, (h (m - i)).mpr ?_, ?_⟩
    · rw [e]
      exact ⟨h1, h2⟩
    · rw [e]
      exact hm

theorem choices_element_none (h : ∀ k, ¬ (r.Allows k ∧ Subject.Stretch s e.test i k))
    (ks : List Nat) (j : Nat) (cs' : List Capture) :
    ¬ choices s (.element e r :: is) i cs ks j cs' := by
  intro hm
  obtain ⟨k, _, _, hk, _⟩ := Matches.element_iff.mp hm
  exact h k hk

/-- What follows an element explores its choices, from every place of the subject after it. -/
theorem explores_element (hi : i ≤ s.size)
    (h : ∀ depth m, i ≤ m → m ≤ s.size →
      Explores rs (choices s is m cs) cs (Attempt.follow s is depth m)) (depth : Nat) :
    Explores (r :: rs) (choices s (.element e r :: is) i cs) cs
      (Attempt.follow s (.element e r :: is) depth i) := by
  have hrun : i + Subject.run s e.test i ≤ s.size :=
    ((Subject.stretch_iff_le_run hi).mpr (Nat.le_refl _)).le_size hi
  have hnext : ∀ m, i ≤ m → m ≤ s.size → Explores rs (choices s is m cs) cs
      (Attempt.nested depth (Attempt.follow s is (depth + 1) m)) :=
    fun m h1 h2 => (h (depth + 1) m h1 h2).nested depth
  intro t ht hc
  cases r with
  | once =>
    show Answers _ _ t (if Subject.at? s e.test i then _ else _)
    by_cases hat : Subject.at? s e.test i = true
    · rw [if_pos hat]
      have hlt := Subject.lt_size_of_at? hat
      apply Answers.congr (choices_element_iff (Nat.le_succ i) _)
        ((h depth (i + 1) (Nat.le_succ i) hlt).single t ht hc)
      intro k
      show k = 1 ∧ _ ↔ _
      constructor
      · rintro ⟨rfl, _⟩
        exact ⟨Nat.le_refl _, Nat.le_refl _⟩
      · intro hk
        obtain rfl : k = 1 := by omega
        exact ⟨rfl, Subject.stretch_succ_iff.mpr ⟨hat, Subject.stretch_zero⟩⟩
    · rw [if_neg hat]
      apply answers_failed ht (choices_element_none _)
      rintro k ⟨rfl, hst⟩
      exact hat (Subject.stretch_succ_iff.mp hst).1
  | zeroOrMore =>
    apply Answers.congr (choices_element_iff (Nat.le_refl i) _)
      (explores_farthestFirst (by decide) (Nat.le_refl i)
        (fun m h1 h2 => hnext m h1 (by omega)) t ht hc)
    intro k
    show True ∧ _ ↔ _
    rw [true_and, Subject.stretch_iff_le_run hi]
    omega
  | oneOrMore =>
    rw [Attempt.follow]
    cases hk : Subject.run s e.test i with
    | zero =>
      apply answers_failed ht (choices_element_none _)
      rintro k ⟨hk1, hst⟩
      have hk1 : 1 ≤ k := hk1
      rw [Subject.stretch_iff_le_run hi] at hst
      omega
    | succ n =>
      apply Answers.congr (choices_element_iff (Nat.le_succ i) _)
        (explores_farthestFirst (by decide) (Nat.le_succ i)
          (fun m h1 h2 => hnext m (by omega) (by omega)) t ht hc)
      intro k
      show 1 ≤ k ∧ _ ↔ _
      rw [Subject.stretch_iff_le_run hi]
      omega
  | fewest =>
    apply Answers.congr (choices_element_iff (Nat.le_refl i) _)
      (explores_nearestFirst (p := e.test) (Nat.le_refl i) (by omega) hnext t ht hc)
    intro k
    show True ∧ _ ↔ _
    rw [true_and, Subject.stretch_iff_le_run hi]
    omega
  | optional =>
    have hone : (if Subject.at? s e.test i = true then 1 else 0) ≤ Subject.run s e.test i := by
      split
      · rename_i hat
        rw [Subject.run_of_at? hat]
        omega
      · exact Nat.zero_le _
    apply Answers.congr (choices_element_iff (Nat.le_refl i) _)
      (explores_farthestFirst (by decide) (Nat.le_refl i)
        (fun m h1 h2 => hnext m h1 (by omega)) t ht hc)
    intro k
    show k ≤ 1 ∧ _ ↔ _
    rw [Subject.stretch_iff_le_run hi]
    by_cases hat : Subject.at? s e.test i = true
    · rw [if_pos hat] at hone ⊢
      omega
    · rw [if_neg hat, Subject.run_of_not_at? hi hat]
      omega

end

/-- Following the items explores the choices under which they match. -/
theorem explores_follow {s : Bytes} {is : List Item} (hend : Item.EndsLast is) {i : Nat}
    (hi : i ≤ s.size) (hp : Placed i cs) (depth : Nat) :
    Explores (Item.repetitions is) (choices s is i cs) cs (Attempt.follow s is depth i) := by
  induction is generalizing i cs depth with
  | nil =>
    rintro t ht rfl
    exact ⟨ht, [], .done, fun ks' j' cs' h => .inl (Matches.nil_iff.mp h).1⟩
  | cons item is ih =>
    -- what comes after the item is searched one level deeper
    have hnext : ∀ m cs', m ≤ s.size → Placed m cs' →
        Explores (Item.repetitions is) (choices s is m cs') cs'
          (Attempt.nested depth (Attempt.follow s is (depth + 1) m)) :=
      fun m cs' hm hp' => (ih hend.tail hm hp' (depth + 1)).nested depth
    cases item with
    | element e r =>
      exact explores_element hi
        (fun depth m h1 h2 => ih hend.tail h2 (hp.mono h1) depth) depth
    | opening =>
      have hp' : Placed i (cs ++ [⟨i, .unfinished⟩]) := hp.append (fun _ => Extent.noConfusion)
      exact .congr (fun _ _ _ => Matches.opening_iff) (hnext i _ hi hp').capturing
    | position =>
      have hp' : Placed i (cs ++ [⟨i, .position⟩]) := hp.append (fun _ => Extent.noConfusion)
      exact .congr (fun _ _ _ => Matches.position_iff) (hnext i _ hi hp').capturing
    | closing =>
      exact .congr (fun _ _ _ => Matches.closing_iff)
        (Explores.closing fun n a ho => hnext i _ hi (hp.close ho))
    | ending =>
      obtain rfl : is = [] := hend is (List.suffix_refl _)
      rintro t ht rfl
      show Answers _ _ t (if i == s.size then .matched i t else .failed t)
      by_cases he : i = s.size
      · rw [if_pos (beq_iff_eq.mpr he)]
        refine ⟨ht, [], Matches.ending_iff.mpr ⟨he, .done⟩, fun ks' j' cs' h => .inl ?_⟩
        exact (Matches.nil_iff.mp (Matches.ending_iff.mp h).2).1
      · rw [if_neg (fun h => he (beq_iff_eq.mp h))]
        exact answers_failed ht (fun ks j cs' h => he (Matches.ending_iff.mp h).1)
    | balance x y =>
      intro t ht hc
      apply Answers.congr (fun _ _ _ => Matches.balance_iff)
      rw [Attempt.follow]
      cases hb : Subject.balance? s x y i with
      | none =>
        apply answers_failed ht
        rintro ks j cs' ⟨m, hm, _⟩
        exact nomatch hb.symm.trans (Subject.balance?_eq_some_iff.mpr hm)
      | some m =>
        have hm := Subject.balance?_eq_some_iff.mp hb
        have ⟨_, hlt, hle, _⟩ := hm
        exact answers_at hm (fun m' hm' => hm.2.unique hm'.2)
          (hnext m cs hle (hp.mono (by omega)) t ht hc)
    | frontier set =>
      intro t ht hc
      show Answers _ _ t (if Subject.frontier s set i then _ else _)
      by_cases hf : Subject.frontier s set i = true
      · rw [if_pos hf]
        have he := (Subject.frontier_iff hi).mp hf
        apply Answers.congr _ (hnext i cs hi hp t ht hc)
        exact fun ks j cs' => Matches.frontier_iff.trans ⟨And.right, fun h => ⟨he, h⟩⟩
      · rw [if_neg hf]
        exact answers_failed ht
          (fun ks j cs' h => hf ((Subject.frontier_iff hi).mpr (Matches.frontier_iff.mp h).1))
    | reference n =>
      rintro t ht rfl
      rw [Attempt.follow]
      cases hr : Attempt.referenced s n i t with
      | error e => trivial
      | ok place =>
        obtain ⟨m, rfl, hplace⟩ := referenced_spec ht hi hp hr
        have hsol : ∀ ks j cs', choices s (.reference (m + 1) :: is) i t.captures ks j cs' ↔
            ∃ j', place = some j' ∧ choices s is j' t.captures ks j cs' := by
          intro ks j cs'
          apply Matches.reference_iff.trans
          constructor
          · rintro ⟨a, length, hcap, hm⟩
            exact ⟨_, (hplace _).mpr ⟨a, length, hcap, rfl⟩, hm⟩
          · rintro ⟨_, hj, hm⟩
            obtain ⟨a, length, hcap, rfl⟩ := (hplace _).mp hj
            exact ⟨a, length, hcap, hm⟩
        apply Answers.congr hsol
        cases place with
        | none =>
          apply answers_failed ht
          rintro ks j cs' ⟨_, hj, _⟩
          exact nomatch hj
        | some j =>
          obtain ⟨a, length, ⟨_, hle, _⟩, rfl⟩ := (hplace j).mp rfl
          exact answers_at rfl (fun _ e => (Option.some.inj e).symm)
            (hnext _ _ hle (hp.mono (Nat.le_add_right i length)) t ht rfl)

end LuaMachine
