import LuaMachine.Proofs.InRange

/-!
# Bracketed sets

What a bracketed set of a pattern means, told from the bytes of the pattern alone: where its
closing bracket is, which members stand before it, and which bytes these have.  The scans of the
pattern and the reader all find that bracket, and a byte passes the set if one of the members has it
or, after a complement sign, if none has.

* `Escape.Has`, `Member.Has`   the bytes of an escape, by a table of ASCII, and of a member;
* `Closes`             the closing bracket: the first one after a place that is not escaped;
* `MemberAt`, `Members`   the members from a place up to a bracket, read from the left;
* `set_has_declared_members`   the scans, the reader and the test, for every set of a pattern.
-/

namespace LuaMachine

/-! ## classes of bytes -/

/-- The letters of the classes, `a c d g l p s u w x`, each with the stretches of ASCII that it
stands for. -/
def classTable : List (UInt8 × List (Nat × Nat)) :=
  [(0x61, [(0x41, 0x5a), (0x61, 0x7a)]),
    (0x63, [(0x00, 0x1f), (0x7f, 0x7f)]),
    (0x64, [(0x30, 0x39)]),
    (0x67, [(0x21, 0x7e)]),
    (0x6c, [(0x61, 0x7a)]),
    (0x70, [(0x21, 0x2f), (0x3a, 0x40), (0x5b, 0x60), (0x7b, 0x7e)]),
    (0x73, [(0x09, 0x0d), (0x20, 0x20)]),
    (0x75, [(0x41, 0x5a)]),
    (0x77, [(0x30, 0x39), (0x41, 0x5a), (0x61, 0x7a)]),
    (0x78, [(0x30, 0x39), (0x41, 0x46), (0x61, 0x66)])]

def InStretches (rs : List (Nat × Nat)) (c : UInt8) : Prop :=
  ∃ r ∈ rs, r.1 ≤ c.toNat ∧ c.toNat ≤ r.2

/-- The bytes of an escape: those of a class, those outside it for the capital letter, and the byte
itself where it is no letter of a class. -/
inductive Escape.Has : Escape → UInt8 → Prop where
  | inside {x : UInt8} {rs : List (Nat × Nat)} {c : UInt8} :
      (x, rs) ∈ classTable → InStretches rs c → Has ⟨x⟩ c
  | outside {x : UInt8} {rs : List (Nat × Nat)} {c : UInt8} :
      (x, rs) ∈ classTable → ¬ InStretches rs c → Has ⟨Bytes.toUpper x⟩ c
  | itself {x : UInt8} : (∀ y ∈ classTable, x ≠ y.1 ∧ x ≠ Bytes.toUpper y.1) → Has ⟨x⟩ x

def Member.Has : Member → UInt8 → Prop
  | .byte b, c => c = b
  | .range lo hi, c => lo.toNat ≤ c.toNat ∧ c.toNat ≤ hi.toNat
  | .escape e, c => e.Has c

section
variable {x c : UInt8} {rs : List (Nat × Nat)} {e : Escape}

theorem classNamed?_of_mem (h : (x, rs) ∈ classTable) :
    ∃ p, classNamed? x = some p ∧ ∀ c, p c = true ↔ InStretches rs c := by
  simp only [classTable, List.mem_cons, List.not_mem_nil, or_false, Prod.mk.injEq] at h
  rcases h with ⟨rfl, rfl⟩ | ⟨rfl, rfl⟩ | ⟨rfl, rfl⟩ | ⟨rfl, rfl⟩ | ⟨rfl, rfl⟩ | ⟨rfl, rfl⟩ |
    ⟨rfl, rfl⟩ | ⟨rfl, rfl⟩ | ⟨rfl, rfl⟩ | ⟨rfl, rfl⟩
  all_goals
    refine ⟨_, rfl, fun c => ?_⟩
    simp [InStretches, Bytes.isAlpha, Bytes.isControl, Bytes.isDigit, Bytes.isGraphic,
      Bytes.isLower, Bytes.isPunct, Bytes.isBlank, Bytes.isUpper, Bytes.isAlnum, Bytes.isHexDigit,
      UInt8.le_iff_toNat_le, UInt8.lt_iff_toNat_lt, ← UInt8.toNat_inj] <;> omega

theorem classNamed?_of_not_mem (h : ∀ rs, (x, rs) ∉ classTable) : classNamed? x = none := by
  have hne : ∀ y ∈ classTable, (x == y.1) = false := by
    intro y hy
    rw [beq_eq_false_iff_ne]
    rintro rfl
    exact h y.2 hy
  simp only [classTable, List.forall_mem_cons] at hne
  simp only [classNamed?, hne, Bool.false_eq_true, if_false]

theorem isLower_of_mem (h : (x, rs) ∈ classTable) : Bytes.isLower x = true := by
  have hall : ∀ y ∈ classTable, Bytes.isLower y.1 = true := by decide
  exact hall _ h

theorem toLower_of_isLower (h : Bytes.isLower x = true) :
    Bytes.isUpper x = false ∧ Bytes.toLower x = x := by
  have hupper : Bytes.isUpper x = false := by
    simp [Bytes.isLower, Bytes.isUpper, UInt8.le_iff_toNat_le] at h ⊢
    omega
  exact ⟨hupper, if_neg (Bool.eq_false_iff.mp hupper)⟩

theorem toLower_toUpper (h : Bytes.isLower x = true) :
    Bytes.isUpper (Bytes.toUpper x) = true ∧ Bytes.toLower (Bytes.toUpper x) = x := by
  have he : Bytes.toUpper x = x - 0x20 := if_pos h
  have hupper : Bytes.isUpper (x - 0x20) = true := by
    simp [Bytes.isLower, Bytes.isUpper, UInt8.le_iff_toNat_le] at h ⊢
    rw [UInt8.toNat_sub_of_le _ _ (UInt8.le_iff_toNat_le.mpr (by simp; omega))]
    simp
    omega
  rw [he]
  exact ⟨hupper, (if_pos hupper).trans (UInt8.sub_add_cancel x 0x20)⟩

/-- A capital letter is the capital of the small letter that it becomes. -/
theorem toUpper_toLower (hx : Bytes.isUpper x = true) (h : Bytes.isLower (Bytes.toLower x) = true) :
    Bytes.toUpper (Bytes.toLower x) = x := by
  have he : Bytes.toLower x = x + 0x20 := if_pos hx
  rw [he] at h ⊢
  exact (if_pos h).trans (UInt8.add_sub_cancel x 0x20)

theorem Escape.test_iff : e.test c = true ↔ e.Has c := by
  constructor
  · intro h
    obtain ⟨x⟩ := e
    unfold Escape.test at h
    dsimp only at h
    by_cases hx : ∃ rs, (Bytes.toLower x, rs) ∈ classTable
    · obtain ⟨rs, hmem⟩ := hx
      obtain ⟨p, hp, hiff⟩ := classNamed?_of_mem hmem
      rw [hp] at h
      dsimp only at h
      split at h
      · rename_i hupper
        rw [← toUpper_toLower hupper (isLower_of_mem hmem)]
        refine .outside hmem fun hin => ?_
        rw [(hiff c).mpr hin] at h
        cases h
      · rename_i hupper
        rw [show Bytes.toLower x = x from if_neg hupper] at hmem
        exact .inside hmem ((hiff c).mp h)
    · rw [classNamed?_of_not_mem (not_exists.mp hx)] at h
      obtain rfl : c = x := beq_iff_eq.mp h
      refine .itself fun y hy => ⟨?_, ?_⟩
      · rintro rfl
        exact hx ⟨y.2, (toLower_of_isLower (isLower_of_mem hy)).2.symm ▸ hy⟩
      · rintro rfl
        exact hx ⟨y.2, (toLower_toUpper (isLower_of_mem hy)).2.symm ▸ hy⟩
  · intro h
    unfold Escape.test
    cases h with
    | inside hmem hin =>
      obtain ⟨p, hp, hiff⟩ := classNamed?_of_mem hmem
      obtain ⟨hupper, hlower⟩ := toLower_of_isLower (isLower_of_mem hmem)
      rw [hlower, hp]
      dsimp only
      rw [if_neg (Bool.eq_false_iff.mp hupper)]
      exact (hiff c).mpr hin
    | outside hmem hout =>
      obtain ⟨p, hp, hiff⟩ := classNamed?_of_mem hmem
      obtain ⟨hupper, hlower⟩ := toLower_toUpper (isLower_of_mem hmem)
      rw [hlower, hp]
      dsimp only
      rw [if_pos hupper, Bool.not_eq_true', Bool.eq_false_iff]
      exact fun hc => hout ((hiff c).mp hc)
    | itself hno =>
      have hnone : classNamed? (Bytes.toLower c) = none := by
        refine classNamed?_of_not_mem fun rs hmem => ?_
        obtain ⟨hne, hne'⟩ := hno _ hmem
        by_cases hupper : Bytes.isUpper c = true
        · exact hne' (toUpper_toLower hupper (isLower_of_mem hmem)).symm
        · exact hne (if_neg hupper).symm
      rw [hnone]
      exact beq_self_eq_true c

theorem Member.test_iff {m : Member} : m.test c = true ↔ m.Has c := by
  cases m with
  | byte b => exact beq_iff_eq
  | range lo hi => simp [Member.test, Member.Has, UInt8.le_iff_toNat_le]
  | escape e => exact Escape.test_iff

theorem Charset.test_iff {s : Charset} : s.test c = true ↔
    if s.complement then ¬ ∃ m ∈ s.members, m.Has c else ∃ m ∈ s.members, m.Has c := by
  have hany : s.members.any (·.test c) = true ↔ ∃ m ∈ s.members, m.Has c := by
    rw [List.any_eq_true]
    exact exists_congr fun m => and_congr_right fun _ => Member.test_iff
  unfold Charset.test
  rw [bne_iff_ne, ← hany]
  cases s.complement <;> simp

end

/-! ## the closing bracket -/

namespace Bytewise

/-- The byte at a place is escaped: the byte before it, at `first` or after, is an escape sign that
is not escaped itself. -/
def Escaped (p : Bytes) (first : Nat) : Nat → Prop
  | 0 => False
  | k + 1 => first ≤ k ∧ p[k]? = some 0x25 ∧ ¬ Escaped p first k

/-- The bracket that closes a set whose first member stands at a place: the first one after that
place that is not escaped. -/
structure Closes (p : Bytes) (first stop : Nat) : Prop where
  after : first < stop
  bracket : p[stop]? = some 0x5d
  bare : ¬ Escaped p first stop
  least : ∀ k, first < k → k < stop → p[k]? = some 0x5d → Escaped p first k

variable {p : Bytes} {first stop i j k : Nat}

theorem Closes.unique (h : Closes p first i) (h' : Closes p first j) : i = j := by
  rcases Nat.lt_trichotomy i j with hlt | he | hgt
  · exact absurd (h'.least i h.after hlt h.bracket) h.bare
  · exact he
  · exact absurd (h.least j h'.after hgt h'.bracket) h'.bare

theorem not_escaped_first (p : Bytes) (first : Nat) : ¬ Escaped p first first := by
  cases first with
  | zero => exact id
  | succ k => exact fun h => absurd h.1 (by omega)

/-- The place after a byte that is not escaped, or after the one that it escapes, is not escaped. -/
theorem not_escaped_next (hf : first ≤ j) (hj : ¬ Escaped p first j) :
    ¬ Escaped p first (skipEscape p j + 1) := by
  unfold skipEscape
  split
  · rename_i hb
    exact fun h => h.2.2 ⟨hf, hb, hj⟩
  · rename_i hb
    exact fun h => hb h.2.1

/-- Between a byte that is not escaped and the next one there is at most an escaped one. -/
theorem escaped_of_between (hf : first ≤ j) (hj : ¬ Escaped p first j) (hk : j < k)
    (hlt : k < skipEscape p j + 1) : Escaped p first k := by
  unfold skipEscape at hlt
  split at hlt
  · rename_i hb
    obtain rfl : k = j + 1 := by omega
    exact ⟨hf, hb, hj⟩
  · omega

/-- **The check of a set finds the closing bracket.**  The scan goes from one byte that is not
escaped to the next; the place after each is a bracket, or is passed. -/
theorem closes_of_bracket? {e : Nat} (h : bracket? p j = some e) (hf : first ≤ j)
    (hj : ¬ Escaped p first j)
    (hpass : ∀ k, first < k → k ≤ j → p[k]? = some 0x5d → Escaped p first k) :
    ∃ stop, e = stop + 1 ∧ Closes p first stop := by
  fun_induction bracket? p j with
  | case1 j hlt hb =>
    have hle := le_skipEscape p j
    cases h
    refine ⟨skipEscape p j + 1, rfl, by omega, hb, not_escaped_next hf hj, fun k h1 h2 hk => ?_⟩
    by_cases hkj : k ≤ j
    · exact hpass k h1 hkj hk
    · exact escaped_of_between hf hj (by omega) h2
  | case2 j hlt hb ih =>
    have hle := le_skipEscape p j
    refine ih h (by omega) (not_escaped_next hf hj) fun k h1 h2 hk => ?_
    by_cases hkj : k ≤ j
    · exact hpass k h1 hkj hk
    · have hne : k ≠ skipEscape p j + 1 := fun e => hb (e ▸ hk)
      exact escaped_of_between hf hj (by omega) (by omega)
  | case3 j hlt => cases h

/-! ## the members -/

/-- The member at a place of a set that is closed at `stop`, and the place after it. -/
inductive MemberAt (p : Bytes) (stop i : Nat) : Member → Nat → Prop where
  | escape {x : UInt8} : p[i]? = some 0x25 → p[i + 1]? = some x → i + 1 < stop →
      MemberAt p stop i (.escape ⟨x⟩) (i + 2)
  | range {lo hi : UInt8} : lo ≠ 0x25 → p[i]? = some lo → p[i + 1]? = some 0x2d →
      p[i + 2]? = some hi → i + 2 < stop → MemberAt p stop i (.range lo hi) (i + 3)
  | byte {b : UInt8} : p[i]? = some b → i < stop → (b = 0x25 → stop ≤ i + 1) →
      (p[i + 1]? = some 0x2d → stop ≤ i + 2) → MemberAt p stop i (.byte b) (i + 1)

/-- The members from a place up to the closing bracket, read from the left. -/
inductive Members (p : Bytes) (stop : Nat) : Nat → List Member → Prop where
  | nil : Members p stop stop []
  | cons {i j : Nat} {m : Member} {ms : List Member} : MemberAt p stop i m j → Members p stop j ms →
      Members p stop i (m :: ms)

theorem MemberAt.lt_stop {m : Member} (h : MemberAt p stop i m j) : i < stop := by
  cases h <;> omega

theorem MemberAt.unique {m m' : Member} {j' : Nat} (h : MemberAt p stop i m j)
    (h' : MemberAt p stop i m' j') : m' = m ∧ j' = j := by
  -- two different readings disagree on the first two bytes or on where the bracket is
  cases h <;> cases h' <;> simp_all <;> omega

theorem Members.unique {ms ms' : List Member} (h : Members p stop i ms)
    (h' : Members p stop i ms') : ms' = ms := by
  induction h generalizing ms' with
  | nil =>
    cases h' with
    | nil => rfl
    | cons hm _ => exact absurd hm.lt_stop (Nat.lt_irrefl _)
  | cons hm _ ih =>
    cases h' with
    | nil => exact absurd hm.lt_stop (Nat.lt_irrefl _)
    | cons hm' hms' =>
      obtain ⟨rfl, rfl⟩ := hm.unique hm'
      rw [ih hms']

/-- What the reader makes of the bytes before the bracket are the members. -/
theorem members_of_rest {m rest : List UInt8} (h : Rest p i (m ++ rest)) :
    Members p (i + m.length) i (Charset.membersOf m) := by
  fun_induction Charset.membersOf m generalizing i with
  | case1 => exact .nil
  | case2 x m ih =>
    have hms := ih h.tail.tail
    rw [show i + 1 + 1 + m.length = i + (0x25 :: x :: m).length by
      simp only [List.length_cons]; omega] at hms
    exact .cons (.escape h.head (h.read 1) (by simp only [List.length_cons]; omega)) hms
  | case3 lo hi m hne ih =>
    have hms := ih h.tail.tail.tail
    rw [show i + 1 + 1 + 1 + m.length = i + (lo :: 0x2d :: hi :: m).length by
      simp only [List.length_cons]; omega] at hms
    exact .cons (.range (fun e => hne e) h.head (h.read 1) (h.read 2)
      (by simp only [List.length_cons]; omega)) hms
  | case4 b m hesc hrange ih =>
    have hms := ih h.tail
    rw [show i + 1 + m.length = i + (b :: m).length by simp only [List.length_cons]; omega] at hms
    refine .cons (.byte h.head (by simp only [List.length_cons]; omega) (fun e => ?_)
      (fun hd => ?_)) hms
    · -- an escape sign is a member itself only at the end
      cases m with
      | nil => exact Nat.le_refl _
      | cons x m => exact absurd rfl (hesc x m e)
    · rcases m with _ | ⟨d, _ | ⟨x, m⟩⟩
      · exact Nat.le_succ _
      · exact Nat.le_refl _
      · have hdash : some d = some 0x2d := (h.read 1).symm.trans hd
        exact absurd (by rw [Option.some.inj hdash]) (hrange x m)

/-! ## a whole set -/

/-- A set opens at a place: a token starts there with its bracket, or a frontier has it after its
letter. -/
def OpensSet (p : Bytes) (vs : List Nat) (pp : Nat) : Prop :=
  p[pp]? = some 0x5b ∧
    (pp ∈ vs ∨ ∃ i ∈ vs, pp = i + 2 ∧ p[i]? = some 0x25 ∧ p[i + 1]? = some 0x66)

theorem OpensSet.sameEnd {vs : List Nat} {pp : Nat} (hpp : OpensSet p vs pp)
    (h : visits p 0 = .ok vs) : SameEnd p vs pp := by
  obtain ⟨hb, hmem | ⟨i, hi, rfl, hesc, hf⟩⟩ := hpp
  · exact sameEnd_of_set h hmem hb
  · exact sameEnd_of_frontier h hi hesc hf

theorem set_of_checkSet {bs : List UInt8} {e : Nat} (h : Rest p i (0x5b :: bs))
    (he : checkSet p i = .ok e) : ∃ m r, Rest p (firstMember p i) (m ++ 0x5d :: r) ∧
      e = firstMember p i + m.length + 1 ∧
      Charset.read? bs = some (⟨decide (p[i + 1]? = some 0x5e), Charset.membersOf m⟩, r) := by
  have hbracket := checkSet_eq_ok_iff.mp he
  have hhead : p[i + 1]? = bs.head? := h.tail.head?_eq
  rcases firstMember_cases h with ⟨body, rfl, hf, hr, hread⟩ | ⟨hne, hf, hr, hread⟩
  · rw [hf, bracket?_eq hr] at hbracket
    obtain ⟨⟨m, r⟩, hm, rfl⟩ := Option.map_eq_some_iff.mp hbracket
    refine ⟨m, r, ?_, by rw [hf], ?_⟩
    · rw [hf, ← eq_append_of_body? hm]
      exact hr
    · rw [hread, hm, hhead]
      rfl
  · rw [hf, bracket?_eq hr] at hbracket
    obtain ⟨⟨m, r⟩, hm, rfl⟩ := Option.map_eq_some_iff.mp hbracket
    refine ⟨m, r, ?_, by rw [hf], ?_⟩
    · rw [hf, ← eq_append_of_body? hm]
      exact hr
    · rw [hread, hm, hhead, decide_eq_false hne]
      rfl

end Bytewise

namespace Pattern

open Bytewise

/-- **A bracketed set has its declared members.**  Take a pattern that passes the check and a set
that opens at one of its tokens.  The set has a closing bracket, the first one after its first
member that is not escaped, and the bytes before that bracket can be read as members from the left.
The check and the end of an element stop after this bracket, and so does the reader; and a byte
passes the set, for the walk over the pattern as for the set that was read, exactly if it is in the
union of the members, or in the complement of the union if the set begins with its sign. -/
theorem set_has_declared_members (p : Bytes) (vs : List Nat) (h : Bytewise.visits p 0 = .ok vs)
    (pp : Nat) (hpp : OpensSet p vs pp) :
    (∃ stop ms, Closes p (firstMember p pp) stop ∧ Members p stop (firstMember p pp) ms) ∧
    ∀ stop ms, Closes p (firstMember p pp) stop → Members p stop (firstMember p pp) ms →
      checkSet p pp = .ok (stop + 1) ∧ elementEnd? p pp = some (stop + 1) ∧
      ∃ set, Charset.read? (p.toList.drop (pp + 1)) = some (set, p.toList.drop (stop + 1)) ∧
        ∀ c, set? p pp c = some (set.test c) ∧
          (set.test c = true ↔
            if p[pp + 1]? = some 0x5e then ¬ ∃ m ∈ ms, m.Has c else ∃ m ∈ ms, m.Has c) := by
  obtain ⟨e, _, hcheck, hend⟩ := hpp.sameEnd h
  have hlt : pp < p.size := (Array.getElem?_eq_some_iff.mp hpp.1).1
  have hrest : Rest p pp (0x5b :: p.toList.drop (pp + 1)) := by
    refine ⟨Nat.le_of_lt hlt, ?_⟩
    rw [List.drop_eq_getElem_cons (by simpa using hlt), Array.getElem_toList,
      (Array.getElem?_eq_some_iff.mp hpp.1).2]
  obtain ⟨m, r, hbody, he, hread⟩ := set_of_checkSet hrest hcheck
  obtain ⟨stop, he', hcloses⟩ := closes_of_bracket? (checkSet_eq_ok_iff.mp hcheck) (Nat.le_refl _)
    (not_escaped_first p _) (fun k h1 h2 => absurd h1 (by omega))
  obtain rfl : stop = firstMember p pp + m.length := by omega
  have hmembers := members_of_rest hbody
  refine ⟨⟨_, _, hcloses, hmembers⟩, fun stop ms hc hms => ?_⟩
  obtain rfl := hcloses.unique hc
  obtain rfl := hmembers.unique hms
  subst he
  rw [← hbody.append.tail.2] at hread
  obtain ⟨_, _, _, htest⟩ := set_spec hrest hread
  refine ⟨hcheck, hend, _, hread, fun c => ⟨htest c, ?_⟩⟩
  simp only [Charset.test_iff, decide_eq_true_eq]

/-- In the pattern `%f[%w][^]a-%%]` the second set begins with its bracket and ends in a range up to
the escape sign, which has no byte, and the sign itself. -/
theorem set_has_declared_members_escape_sign :
    let p : Bytes := #[0x25, 0x66, 0x5b, 0x25, 0x77, 0x5d,
      0x5b, 0x5e, 0x5d, 0x61, 0x2d, 0x25, 0x25, 0x5d]
    let ms : List Member := [.byte 0x5d, .range 0x61 0x25, .byte 0x25]
    OpensSet p [0, 6, 14] 2 ∧ OpensSet p [0, 6, 14] 6 ∧ Closes p 8 13 ∧ Members p 13 8 ms ∧
      ∀ c, ∃ b, set? p 6 c = some b ∧ (b = true ↔ ¬ ∃ m ∈ ms, m.Has c) := by
  intro p ms
  have hv : Bytewise.visits p 0 = .ok [0, 6, 14] := by decide +kernel
  have hfrontier : OpensSet p [0, 6, 14] 2 := ⟨rfl, .inr ⟨0, by decide, rfl, rfl, rfl⟩⟩
  have hset : OpensSet p [0, 6, 14] 6 := ⟨rfl, .inl (by decide)⟩
  have hms : Members p 13 8 ms :=
    .cons (.byte rfl (by decide) (by decide) (by decide))
      (.cons (.range (by decide) rfl rfl rfl (by decide))
        (.cons (.byte rfl (by decide) (by decide) (by decide)) .nil))
  obtain ⟨⟨stop, ms', hcloses, hms'⟩, hall⟩ := set_has_declared_members p _ hv 6 hset
  have hcheck : checkSet p 6 = .ok 14 := by decide +kernel
  obtain rfl : stop = 13 := by
    have he := (hall stop ms' hcloses hms').1
    rw [hcheck] at he
    cases he
    rfl
  obtain ⟨_, _, set, _, htest⟩ := hall 13 ms hcloses hms
  exact ⟨hfrontier, hset, hcloses, hms, fun c => ⟨_, htest c⟩⟩

end Pattern

end LuaMachine
