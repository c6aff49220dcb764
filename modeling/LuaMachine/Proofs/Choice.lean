import LuaMachine.Proofs.Trail

/-!
# What a pattern matches

The meaning of a list of items, with no search in it.  A CHOICE gives every element of the pattern the
number of times that it occurs; under a choice the items either match from a place on, with one end
and one list of captures, or they do not.

* `Matches`       the items match under a choice, from a place and from the captures made before;
* `Before`        the order of choices: the first count in which two of them differ decides;
* `FirstChoice`   the items match under a choice, and under no choice that comes before it.

An element with no repetition sign has the count one under every choice.
-/

namespace LuaMachine

/-- The counts that a repetition admits. -/
def Repetition.Allows : Repetition → Nat → Prop
  | .once, k => k = 1
  | .zeroOrMore, _ => True
  | .oneOrMore, k => 1 ≤ k
  | .fewest, _ => True
  | .optional, k => k ≤ 1

/-- The first count is preferred to the second one. -/
def Repetition.Prefers : Repetition → Nat → Nat → Prop
  | .fewest, k, k' => k < k'
  | _, k, k' => k' < k

def Item.repetitions : List Item → List Repetition
  | [] => []
  | .element _ r :: is => r :: repetitions is
  | _ :: is => repetitions is

/-- One choice comes before another. -/
def Before : List Repetition → List Nat → List Nat → Prop
  | r :: rs, k :: ks, k' :: ks' => r.Prefers k k' ∨ k = k' ∧ Before rs ks ks'
  | _, _, _ => False

namespace Subject

def Stretch (s : Bytes) (p : UInt8 → Bool) (i k : Nat) : Prop :=
  ∀ m, m < k → ∃ b, s[i + m]? = some b ∧ p b = true

/-- After `opened` open `x`s, the `y`s between two places balance the `x`s.  A byte that is both is a
`y`. -/
def Level (s : Bytes) (x y : UInt8) (opened i j : Nat) : Prop :=
  (s.slice i j).toList.count y = opened + if x = y then 0 else (s.slice i j).toList.count x

/-- The first place after `i` where the `y`s balance the `x`s. -/
def FirstLevel (s : Bytes) (x y : UInt8) (opened i j : Nat) : Prop :=
  i < j ∧ j ≤ s.size ∧ Level s x y opened i j ∧ ∀ m, i < m → m < j → ¬ Level s x y opened i m

theorem FirstLevel.unique {s : Bytes} {x y : UInt8} {opened i j j' : Nat}
    (h : FirstLevel s x y opened i j) (h' : FirstLevel s x y opened i j') : j' = j := by
  obtain ⟨hij, _, hl, hno⟩ := h
  obtain ⟨hij', _, hl', hno'⟩ := h'
  rcases Nat.lt_trichotomy j' j with hlt | he | hgt
  · exact absurd hl' (hno j' hij' hlt)
  · exact he
  · exact absurd hl (hno' j hij hgt)

def framed (s : Bytes) : List UInt8 := 0 :: s.toList ++ [0]

def Enters (s : Bytes) (set : Charset) (i : Nat) : Prop :=
  ∃ a b, (framed s)[i]? = some a ∧ (framed s)[i + 1]? = some b ∧
    set.test a = false ∧ set.test b = true

end Subject

/-- Under a choice, the items match from `i` to `j`, and the captures made before them become those
made after them. -/
inductive Matches (s : Bytes) :
    List Item → List Nat → Nat → List Capture → Nat → List Capture → Prop where
  | done {i cs} : Matches s [] [] i cs i cs
  | element {e r is k ks i cs j cs'} :
      r.Allows k → Subject.Stretch s e.test i k → Matches s is ks (i + k) cs j cs' →
      Matches s (.element e r :: is) (k :: ks) i cs j cs'
  | opening {is ks i cs j cs'} :
      Matches s is ks i (cs ++ [⟨i, .unfinished⟩]) j cs' → Matches s (.opening :: is) ks i cs j cs'
  | position {is ks i cs j cs'} :
      Matches s is ks i (cs ++ [⟨i, .position⟩]) j cs' → Matches s (.position :: is) ks i cs j cs'
  | closing {is ks i cs j cs'} {n start : Nat} :
      LastOpen cs n start → Matches s is ks i (cs.set n ⟨start, .closed (i - start)⟩) j cs' →
      Matches s (.closing :: is) ks i cs j cs'
  | ending {is ks cs j cs'} :
      Matches s is ks s.size cs j cs' → Matches s (.ending :: is) ks s.size cs j cs'
  | balance {x y is ks i m cs j cs'} :
      s[i]? = some x → Subject.FirstLevel s x y 1 (i + 1) m → Matches s is ks m cs j cs' →
      Matches s (.balance x y :: is) ks i cs j cs'
  | frontier {set is ks i cs j cs'} :
      Subject.Enters s set i → Matches s is ks i cs j cs' →
      Matches s (.frontier set :: is) ks i cs j cs'
  | reference {n is ks i cs j cs'} {start length : Nat} :
      cs[n]? = some ⟨start, .closed length⟩ → i + length ≤ s.size →
      s.slice i (i + length) = s.slice start (start + length) →
      Matches s is ks (i + length) cs j cs' →
      Matches s (.reference (n + 1) :: is) ks i cs j cs'

/-- The items match under a choice with an end and captures; under any other choice under which they
match, the choice comes later. -/
def FirstChoice (s : Bytes) (is : List Item) (i : Nat) (ks : List Nat) (j : Nat)
    (cs : List Capture) : Prop :=
  Matches s is ks i [] j cs ∧
    ∀ ks' j' cs', Matches s is ks' i [] j' cs' →
      (ks' = ks ∧ j' = j ∧ cs' = cs) ∨ Before (Item.repetitions is) ks ks'

/-! ## the parts of a match -/

namespace Matches

variable {s : Bytes} {is : List Item} {ks : List Nat} {i j : Nat} {cs cs' : List Capture}

theorem nil_iff : Matches s [] ks i cs j cs' ↔ ks = [] ∧ j = i ∧ cs' = cs := by
  constructor
  · intro h
    cases h
    exact ⟨rfl, rfl, rfl⟩
  · rintro ⟨rfl, rfl, rfl⟩
    exact .done

theorem element_iff {e : Element} {r : Repetition} :
    Matches s (.element e r :: is) ks i cs j cs' ↔
      ∃ k ks', ks = k :: ks' ∧ (r.Allows k ∧ Subject.Stretch s e.test i k) ∧
        Matches s is ks' (i + k) cs j cs' := by
  constructor
  · intro h
    cases h with
    | element ha hst hm => exact ⟨_, _, rfl, ⟨ha, hst⟩, hm⟩
  · rintro ⟨k, ks', rfl, ⟨ha, hst⟩, hm⟩
    exact .element ha hst hm

theorem opening_iff : Matches s (.opening :: is) ks i cs j cs' ↔
    Matches s is ks i (cs ++ [⟨i, .unfinished⟩]) j cs' := by
  constructor
  · intro h
    cases h
    assumption
  · exact .opening

theorem position_iff : Matches s (.position :: is) ks i cs j cs' ↔
    Matches s is ks i (cs ++ [⟨i, .position⟩]) j cs' := by
  constructor
  · intro h
    cases h
    assumption
  · exact .position

theorem closing_iff : Matches s (.closing :: is) ks i cs j cs' ↔
    ∃ n a, LastOpen cs n a ∧ Matches s is ks i (cs.set n ⟨a, .closed (i - a)⟩) j cs' := by
  constructor
  · intro h
    cases h with
    | closing ho hm => exact ⟨_, _, ho, hm⟩
  · rintro ⟨n, a, ho, hm⟩
    exact .closing ho hm

theorem ending_iff : Matches s (.ending :: is) ks i cs j cs' ↔
    i = s.size ∧ Matches s is ks i cs j cs' := by
  constructor
  · intro h
    cases h
    exact ⟨rfl, ‹_›⟩
  · rintro ⟨rfl, hm⟩
    exact .ending hm

theorem balance_iff {x y : UInt8} : Matches s (.balance x y :: is) ks i cs j cs' ↔
    ∃ m, (s[i]? = some x ∧ Subject.FirstLevel s x y 1 (i + 1) m) ∧ Matches s is ks m cs j cs' := by
  constructor
  · intro h
    cases h with
    | balance hx hl hm => exact ⟨_, ⟨hx, hl⟩, hm⟩
  · rintro ⟨m, ⟨hx, hl⟩, hm⟩
    exact .balance hx hl hm

theorem frontier_iff {set : Charset} : Matches s (.frontier set :: is) ks i cs j cs' ↔
    Subject.Enters s set i ∧ Matches s is ks i cs j cs' := by
  constructor
  · intro h
    cases h with
    | frontier he hm => exact ⟨he, hm⟩
  · rintro ⟨he, hm⟩
    exact .frontier he hm

theorem reference_iff {n : Nat} : Matches s (.reference (n + 1) :: is) ks i cs j cs' ↔
    ∃ a length, (cs[n]? = some ⟨a, .closed length⟩ ∧ i + length ≤ s.size ∧
      s.slice i (i + length) = s.slice a (a + length)) ∧
      Matches s is ks (i + length) cs j cs' := by
  constructor
  · intro h
    cases h with
    | reference hc hl ht hm => exact ⟨_, _, ⟨hc, hl, ht⟩, hm⟩
  · rintro ⟨a, length, ⟨hc, hl, ht⟩, hm⟩
    exact .reference hc hl ht hm

theorem unique (h : Matches s is ks i cs j cs') {j' : Nat} {cs'' : List Capture}
    (h' : Matches s is ks i cs j' cs'') : j' = j ∧ cs'' = cs' := by
  induction h with
  | done =>
    cases h'
    exact ⟨rfl, rfl⟩
  | element _ _ _ ih =>
    cases h' with
    | element _ _ hm => exact ih hm
  | opening _ ih => exact ih (opening_iff.mp h')
  | position _ ih => exact ih (position_iff.mp h')
  | closing ho _ ih =>
    obtain ⟨n', a', ho', hm⟩ := closing_iff.mp h'
    obtain ⟨rfl, rfl⟩ := ho.unique ho'
    exact ih hm
  | ending _ ih => exact ih (ending_iff.mp h').2
  | balance _ hl _ ih =>
    obtain ⟨m', ⟨_, hl'⟩, hm⟩ := balance_iff.mp h'
    have e : m' = _ := hl.unique hl'
    subst e
    exact ih hm
  | frontier _ _ ih => exact ih (frontier_iff.mp h').2
  | reference hc _ _ _ ih =>
    obtain ⟨a', length', ⟨hc', _⟩, hm⟩ := reference_iff.mp h'
    have e := hc.symm.trans hc'
    simp only [Option.some.injEq, Capture.mk.injEq, Extent.closed.injEq] at e
    obtain ⟨rfl, rfl⟩ := e
    exact ih hm

end Matches

/-! ## where captures lie -/

/-- The captures start at a place or before it, and the closed ones end there or before it. -/
def Placed (i : Nat) (cs : List Capture) : Prop :=
  ∀ c ∈ cs, c.start ≤ i ∧ ∀ n, c.extent = .closed n → c.start + n ≤ i

namespace Placed

variable {i j : Nat} {cs : List Capture}

theorem nil (i : Nat) : Placed i [] := fun _ h => absurd h List.not_mem_nil

theorem mono (h : Placed i cs) (hij : i ≤ j) : Placed j cs := by
  intro c hc
  obtain ⟨hs, hn⟩ := h c hc
  exact ⟨Nat.le_trans hs hij, fun n e => Nat.le_trans (hn n e) hij⟩

theorem append (h : Placed i cs) {x : Extent} (hx : ∀ n, x ≠ .closed n) :
    Placed i (cs ++ [⟨i, x⟩]) := by
  intro c hc
  rcases List.mem_append.mp hc with hc | hc
  · exact h c hc
  · cases List.mem_singleton.mp hc
    exact ⟨Nat.le_refl i, fun n e => absurd e (hx n)⟩

theorem close (h : Placed i cs) {n a : Nat} (ho : LastOpen cs n a) :
    Placed i (cs.set n ⟨a, .closed (i - a)⟩) := by
  intro c hc
  rcases List.mem_or_eq_of_mem_set hc with hc | rfl
  · exact h c hc
  · have ha : a ≤ i := (h _ (List.mem_of_getElem? ho.1)).1
    refine ⟨ha, fun n e => ?_⟩
    cases e
    exact Nat.le_of_eq (Nat.add_sub_cancel' ha)

end Placed

end LuaMachine
