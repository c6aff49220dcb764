import LuaMachine.Proofs.Digits

/-!
# The grammar of numerals

What a numeral is, said by its parts, and that the reader takes exactly these texts: what it lets
through to the parsers of integers and floats, which take other texts too, leaves the numerals.

* `SignedDigits`, `Exponent`   a sign and decimal digits; the exponents of ten and of two;
* `Floating`      digits with a point or an exponent;
* `integerText?_eq_some`, `floatText?_isSome`   what the parsers take;
* `Body`, `Kind`  the numerals without a sign, and what they denote;
* `body_of_readDecimal`        only numerals pass the test of bytes and a parser;
* `Numerical`     a numeral with its sign, between blanks;
* `read_numerals` a text is read if and only if it is a numeral, and as the number it denotes.
-/

namespace LuaMachine.Numeral

variable {minus pointed : Bool} {s r u w f e : List UInt8} {ds es : List Nat} {n base : Nat}
  {b x : UInt8} {k : Kind} {marks : List UInt8} {Fits : Int → Prop}

/-! ## the parts -/

/-- A sign, and decimal digits of the given value. -/
def SignedDigits (minus : Bool) (n : Nat) (s : List UInt8) : Prop :=
  ∃ sign ds body, IsSign minus sign ∧ body ≠ [] ∧ Spells 10 ds body ∧
    n = Nat.ofDigits 10 ds.reverse ∧ s = sign ++ body

def Exponent (marks : List UInt8) (Fits : Int → Prop) (s : List UInt8) : Prop :=
  ∃ mark minus n r, mark ∈ marks ∧ SignedDigits minus n r ∧ Fits (signed minus n) ∧ s = mark :: r

/-- An exponent of ten, of any size. -/
def DecimalExponent : List UInt8 → Prop := Exponent [0x65, 0x45] fun _ => True

/-- An exponent of two that fits 32 bits. -/
def BinaryExponent : List UInt8 → Prop := Exponent [0x70, 0x50] fun i => -2 ^ 31 ≤ i ∧ i < 2 ^ 31

/-- Digits with a point before, among or after them and perhaps an exponent, or with an exponent
alone. -/
inductive Floating (base : Nat) (Exp : List UInt8 → Prop) : List UInt8 → Prop
  | point {ds es : List Nat} {w f e : List UInt8} : Spells base ds w → Spells base es f →
      w ++ f ≠ [] → e = [] ∨ Exp e → Floating base Exp (w ++ 0x2e :: (f ++ e))
  | scaled {ds : List Nat} {w e : List UInt8} : Spells base ds w → w ≠ [] → Exp e →
      Floating base Exp (w ++ e)

/-- What a numeral denotes apart from its sign: the number its decimal or its hexadecimal digits
have, or a float. -/
inductive Kind where
  | decimal (n : Nat)
  | hexadecimal (n : Nat)
  | float

/-- The numerals without a sign. -/
inductive Body : List UInt8 → Kind → Prop
  | decimal {ds : List Nat} {s : List UInt8} : s ≠ [] → Spells 10 ds s →
      Body s (.decimal (Nat.ofDigits 10 ds.reverse))
  | decimalFloat {s : List UInt8} : Floating 10 DecimalExponent s → Body s .float
  | hexadecimal {x : UInt8} {ds : List Nat} {s : List UInt8} : x = 0x78 ∨ x = 0x58 → s ≠ [] →
      Spells 16 ds s → Body (0x30 :: x :: s) (.hexadecimal (Nat.ofDigits 16 ds.reverse))
  | hexadecimalFloat {x : UInt8} {s : List UInt8} : x = 0x78 ∨ x = 0x58 →
      Floating 16 BinaryExponent s → Body (0x30 :: x :: s) .float

/-! ## signed digits and exponents -/

theorem signedDigits_iff : SignedDigits minus n s ↔ (splitSign s).1 = minus ∧
    (splitSign s).2 ≠ [] ∧ (splitSign s).2.all Bytes.isDigit = true ∧
    n = decimalValue (splitSign s).2 := by
  constructor
  · intro h
    obtain ⟨sign, ds, body, hsign, hne, hds, hn, hs⟩ := h
    rw [hs, splitSign_append hsign (hds.unsigned (by decide))]
    exact ⟨rfl, hne, (spells_iff_all.mp hds).1, hn.trans (decimalValue_eq hds).symm⟩
  · intro h
    obtain ⟨hminus, hne, hall, hn⟩ := h
    obtain ⟨sign, hsign, hs⟩ := splitSign_spec s
    have hds := spells_iff_all.mpr ⟨hall, rfl⟩
    rw [hminus] at hsign
    exact ⟨sign, _, _, hsign, hne, hds, hn.trans (decimalValue_eq hds), hs⟩

theorem isEmpty_or_not_all : ¬ (s.isEmpty || !s.all Bytes.isDigit) = true ↔
    s ≠ [] ∧ s.all Bytes.isDigit = true := by
  rw [Bool.not_eq_true, Bool.or_eq_false_iff, Bool.not_eq_false', List.isEmpty_eq_false_iff]

theorem exponent?_isSome : (exponent? s).isSome = true ↔ s = [] ∨ DecimalExponent s := by
  cases s with
  | nil => simp [exponent?]
  | cons mark r =>
    have hmark : (mark == 0x65 || mark == 0x45) = true ↔ mark ∈ [0x65, 0x45] := by simp
    have heq : (exponent? (mark :: r)).isSome = true ↔ (mark == 0x65 || mark == 0x45) = true ∧
        ¬ ((splitSign r).2.isEmpty || !(splitSign r).2.all Bytes.isDigit) = true := by
      rw [exponent?]
      obtain ⟨m, body⟩ := splitSign r
      dsimp only
      split <;> rename_i hm
      · split <;> rename_i hds
        · exact ⟨fun h => absurd h Bool.false_ne_true, fun h => absurd hds h.2⟩
        · exact ⟨fun _ => ⟨hm, hds⟩, fun _ => rfl⟩
      · exact ⟨fun h => absurd h Bool.false_ne_true, fun h => absurd h.1 hm⟩
    rw [heq, hmark, isEmpty_or_not_all]
    constructor
    · intro h
      obtain ⟨hm, hne, hall⟩ := h
      exact .inr ⟨mark, _, _, r, hm, signedDigits_iff.mpr ⟨rfl, hne, hall, rfl⟩, trivial, rfl⟩
    · intro h
      rcases h with h | ⟨_, minus, n, _, hm, hr, -, h⟩
      · cases h
      · cases h
        obtain ⟨-, hne, hall, -⟩ := signedDigits_iff.mp hr
        exact ⟨hm, hne, hall⟩

theorem integerText?_eq_some {lo hi i : Int} : integerText? lo hi s = some i ↔
    ∃ minus n, SignedDigits minus n s ∧ lo ≤ signed minus n ∧ signed minus n ≤ hi ∧
      i = signed minus n := by
  have heq : integerText? lo hi s
      = if (splitSign s).2.isEmpty || !(splitSign s).2.all Bytes.isDigit then none
        else if lo ≤ signed (splitSign s).1 (decimalValue (splitSign s).2) ∧
            signed (splitSign s).1 (decimalValue (splitSign s).2) ≤ hi then
          some (signed (splitSign s).1 (decimalValue (splitSign s).2))
        else none := rfl
  rw [heq]
  constructor
  · intro h
    split at h <;> rename_i hds
    · cases h
    · split at h <;> rename_i hi
      · cases h
        obtain ⟨hne, hall⟩ := isEmpty_or_not_all.mp hds
        exact ⟨_, _, signedDigits_iff.mpr ⟨rfl, hne, hall, rfl⟩, hi.1, hi.2, rfl⟩
      · cases h
  · intro h
    obtain ⟨minus, n, hs, hlo, hhi, rfl⟩ := h
    obtain ⟨rfl, hne, hall, rfl⟩ := signedDigits_iff.mp hs
    rw [if_neg (isEmpty_or_not_all.mpr ⟨hne, hall⟩), if_pos ⟨hlo, hhi⟩]

theorem int32Text?_isSome : (int32Text? s).isSome = true ↔
    ∃ minus n, SignedDigits minus n s ∧ -2 ^ 31 ≤ signed minus n ∧ signed minus n < 2 ^ 31 := by
  rw [Option.isSome_iff_exists]
  simp only [int32Text?, integerText?_eq_some]
  constructor
  · intro h
    obtain ⟨_, minus, n, hs, hlo, hhi, _⟩ := h
    exact ⟨minus, n, hs, hlo, Int.lt_of_le_of_lt hhi (by decide)⟩
  · intro h
    obtain ⟨minus, n, hs, hlo, hhi⟩ := h
    exact ⟨_, minus, n, hs, hlo, Int.le_of_lt_add_one hhi, rfl⟩

/-- Decimal digits after a sign, where the number fits 64 bits and where it does not. -/
theorem int64Text?_eq (h : SignedDigits minus n s) : int64Text? s
    = if -2 ^ 63 ≤ signed minus n ∧ signed minus n < 2 ^ 63 then
        some (Int64.ofInt (signed minus n)) else none := by
  obtain ⟨rfl, hne, hall, rfl⟩ := signedDigits_iff.mp h
  have hfits : ∀ i : Int, (Int64.minValue.toInt ≤ i ∧ i ≤ Int64.maxValue.toInt) ↔
      -2 ^ 63 ≤ i ∧ i < 2 ^ 63 := by
    intro i
    show (-9223372036854775808 ≤ i ∧ i ≤ 9223372036854775807) ↔ _
    omega
  show (if (splitSign s).2.isEmpty || !(splitSign s).2.all Bytes.isDigit then none
    else if Int64.minValue.toInt ≤ signed (splitSign s).1 (decimalValue (splitSign s).2) ∧
        signed (splitSign s).1 (decimalValue (splitSign s).2) ≤ Int64.maxValue.toInt then
      some (signed (splitSign s).1 (decimalValue (splitSign s).2))
    else none).map Int64.ofInt = _
  rw [if_neg (isEmpty_or_not_all.mpr ⟨hne, hall⟩)]
  simp only [hfits]
  split <;> rfl

theorem signedDigits_of_int64Text? {i : Int64} (h : int64Text? s = some i) :
    ∃ minus n, SignedDigits minus n s := by
  obtain ⟨_, h, _⟩ := Option.map_eq_some_iff.mp h
  obtain ⟨minus, n, hs, _⟩ := integerText?_eq_some.mp h
  exact ⟨minus, n, hs⟩

/-! ## floats -/

theorem span_append {p : UInt8 → Bool} (hu : ∀ b ∈ u, p b = true)
    (hr : ∀ b, r.head? = some b → p b = false) :
    (u ++ r).takeWhile p = u ∧ (u ++ r).dropWhile p = r := by
  rw [List.takeWhile_append_of_pos hu, List.dropWhile_append_of_pos hu]
  cases r with
  | nil => exact ⟨List.append_nil u, rfl⟩
  | cons b r =>
    have hb : ¬ p b = true := Bool.not_eq_true _ ▸ hr b rfl
    rw [List.takeWhile_cons_of_neg hb, List.dropWhile_cons_of_neg hb, List.append_nil]
    exact ⟨rfl, rfl⟩

theorem exists_span (p : UInt8 → Bool) (s : List UInt8) : ∃ u r, s = u ++ r ∧
    (∀ b ∈ u, p b = true) ∧ ∀ b, r.head? = some b → p b = false := by
  refine ⟨s.takeWhile p, s.dropWhile p, List.takeWhile_append_dropWhile.symm,
    List.all_eq_true.mp List.all_takeWhile, fun b hb => ?_⟩
  have h := List.head?_dropWhile_not p s
  rw [hb] at h
  exact h

theorem Exponent.head (h : e = [] ∨ Exponent marks Fits e) (hb : e.head? = some b) :
    b ∈ marks := by
  rcases h with rfl | ⟨mark, _, _, _, hm, _, _, rfl⟩
  · cases hb
  · cases hb
    exact hm

theorem decimals?_point (hw : w.all Bytes.isDigit = true) : decimals? (w ++ 0x2e :: r) =
    if w.isEmpty && (r.takeWhile Bytes.isDigit).isEmpty then none
    else (exponent? (r.dropWhile Bytes.isDigit)).map (⟨w, r.takeWhile Bytes.isDigit, ·⟩) := by
  obtain ⟨htake, hdrop⟩ := span_append (r := 0x2e :: r) (List.all_eq_true.mp hw)
    (fun b hb => Option.some.inj hb ▸ rfl)
  simp only [decimals?, htake, hdrop]

theorem decimals?_scaled (hw : w.all Bytes.isDigit = true)
    (hr : ∀ b, r.head? = some b → Bytes.isDigit b = false ∧ b ≠ 0x2e) :
    decimals? (w ++ r) = if w.isEmpty then none else (exponent? r).map (⟨w, [], ·⟩) := by
  obtain ⟨htake, hdrop⟩ := span_append (List.all_eq_true.mp hw) fun b hb => (hr b hb).1
  simp only [decimals?, htake, hdrop]
  split
  · exact absurd rfl (hr _ rfl).2
  · rfl

theorem decimals?_isSome : (decimals? s).isSome = true ↔
    (s ≠ [] ∧ ∃ ds, Spells 10 ds s) ∨ Floating 10 DecimalExponent s := by
  have hmarks : ∀ b ∈ ([0x65, 0x45] : List UInt8), Bytes.isDigit b = false ∧ b ≠ 0x2e :=
    List.all_iff_forall_prop.mp (by decide)
  constructor
  · intro h
    obtain ⟨w, r, rfl, hw, hr⟩ := exists_span Bytes.isDigit s
    have hw := List.all_eq_true.mpr hw
    have hds := spells_iff_all.mpr ⟨hw, rfl⟩
    -- after the first digits comes a point, or not
    by_cases hp : r.head? = some 0x2e
    · obtain ⟨r, rfl⟩ := List.head?_eq_some_iff.mp hp
      obtain ⟨f, e, rfl, hf, he⟩ := exists_span Bytes.isDigit r
      obtain ⟨htake, hdrop⟩ := span_append hf he
      rw [decimals?_point hw, htake, hdrop] at h
      split at h
      · cases h
      · rename_i hne
        rw [Option.isSome_map, exponent?_isSome] at h
        refine .inr (.point hds (spells_iff_all.mpr ⟨List.all_eq_true.mpr hf, rfl⟩) ?_ h)
        simpa using hne
    · rw [decimals?_scaled hw fun b hb => ⟨hr b hb, fun h => hp (h ▸ hb)⟩] at h
      split at h
      · cases h
      · rename_i hne
        rw [List.isEmpty_iff] at hne
        rw [Option.isSome_map, exponent?_isSome] at h
        rcases h with rfl | h
        · rw [List.append_nil]
          exact .inl ⟨hne, _, hds⟩
        · exact .inr (.scaled hds hne h)
  · intro h
    rcases h with ⟨hne, ds, hds⟩ | @⟨ds, es, w, f, e, hds, hes, hne, he⟩ | @⟨ds, w, e, hds, hne, he⟩
    · rw [← List.append_nil s, decimals?_scaled (spells_iff_all.mp hds).1 (fun b hb => by cases hb),
        if_neg (mt List.isEmpty_iff.mp hne)]
      rfl
    · obtain ⟨htake, hdrop⟩ := span_append (List.all_eq_true.mp (spells_iff_all.mp hes).1)
        fun b hb => (hmarks b (Exponent.head he hb)).1
      rw [decimals?_point (spells_iff_all.mp hds).1, htake, hdrop, if_neg (by simpa using hne),
        Option.isSome_map]
      exact exponent?_isSome.mpr he
    · rw [decimals?_scaled (spells_iff_all.mp hds).1
          fun b hb => hmarks b (Exponent.head (.inr he) hb),
        if_neg (mt List.isEmpty_iff.mp hne), Option.isSome_map]
      exact exponent?_isSome.mpr (.inr he)

def IsWord (s : List UInt8) : Prop := s.map Bytes.toLower ∈ nanWord :: infinityWords

theorem floatText?_eq (hs : splitSign s = (minus, r)) (hr : ¬ IsWord r) :
    floatText? s = (decimals? r).map (·.toDouble minus) := by
  have hinfinity : ¬ infinityWords.contains (r.map Bytes.toLower) = true :=
    fun h => hr (List.mem_cons_of_mem _ (List.contains_iff_mem.mp h))
  have hnan : ¬ (r.map Bytes.toLower == nanWord) = true :=
    fun h => hr (List.mem_cons.mpr (.inl (eq_of_beq h)))
  rw [floatText?, hs]
  dsimp only
  rw [if_neg hinfinity, if_neg hnan]

theorem floatText?_isSome (hs : splitSign s = (minus, r)) : (floatText? s).isSome = true ↔
    IsWord r ∨ (r ≠ [] ∧ ∃ ds, Spells 10 ds r) ∨ Floating 10 DecimalExponent r := by
  by_cases hr : IsWord r
  · refine ⟨fun _ => .inl hr, fun _ => ?_⟩
    rw [floatText?, hs]
    dsimp only
    rcases List.mem_cons.mp hr with h | h
    · split
      · rfl
      · rw [if_pos (beq_iff_eq.mpr h)]
        rfl
    · rw [if_pos (List.contains_iff_mem.mpr h)]
      rfl
  · rw [floatText?_eq hs hr, Option.isSome_map, decimals?_isSome]
    exact ⟨.inr, fun h => h.resolve_left hr⟩

/-! ## the bytes of decimal numerals -/

theorem isDecimalByte_of_isDigit (h : Bytes.isDigit b = true) : isDecimalByte b = true := by
  simp [isDecimalByte, h]

theorem not_isDecimalMark_of_isDigit (h : Bytes.isDigit b = true) : ¬ isDecimalMark b = true := by
  have key : ∀ n < 256, Bytes.isDigit (UInt8.ofNat n) = true →
      ¬ isDecimalMark (UInt8.ofNat n) = true := by decide +kernel
  have hb := key b.toNat b.toNat_lt
  rw [UInt8.ofNat_toNat] at hb
  exact hb h

/-- No word is made of the bytes of decimal numerals: each has a letter that is none of them. -/
theorem not_isWord (h : s.all isDecimalByte = true) : ¬ IsWord s := by
  have key : ∀ n < 256, isDecimalByte (UInt8.ofNat n) = true →
      Bytes.toLower (UInt8.ofNat n) ≠ 0x6e := by decide +kernel
  have hletter : ∀ w ∈ nanWord :: infinityWords, (0x6e : UInt8) ∈ w :=
    List.all_iff_forall_prop.mp (by decide)
  intro hw
  obtain ⟨b, hb, e⟩ := List.mem_map.mp (hletter _ hw)
  have hdecimal := key b.toNat b.toNat_lt
  rw [UInt8.ofNat_toNat] at hdecimal
  exact hdecimal (List.all_eq_true.mp h b hb) e

/-! ## hexadecimal numerals -/

theorem Stands.not_isFloatMark {d : Nat} (h : Stands 16 d b) : isFloatMark b = false := by
  have key : ∀ c : Bool, ∀ d < 16, isFloatMark (digitByte c d) = false := by decide
  obtain ⟨hd, capital, rfl⟩ := h
  exact key capital d hd

/-- Hexadecimal digits, with one point at most, or with none after a point. -/
def Mantissa (pointed : Bool) (s : List UInt8) : Prop :=
  (∃ ds, Spells 16 ds s) ∨
    pointed = false ∧ ∃ ds es w f, Spells 16 ds w ∧ Spells 16 es f ∧ s = w ++ 0x2e :: f

theorem not_spells_point : ¬ Spells 16 ds (0x2e :: s) := by
  intro h
  obtain ⟨d, hd⟩ := h.mem List.mem_cons_self
  exact absurd hd.not_isFloatMark (by decide)

theorem mantissa_point : Mantissa pointed (0x2e :: s) ↔
    pointed = false ∧ ∃ ds, Spells 16 ds s := by
  constructor
  · intro h
    rcases h with ⟨ds, h⟩ | ⟨hp, ds, es, w, f, hw, hf, h⟩
    · exact absurd h not_spells_point
    · cases w with
      | nil =>
        cases h
        exact ⟨hp, es, hf⟩
      | cons c w =>
        cases h
        exact absurd hw not_spells_point
  · intro h
    obtain ⟨hp, ds, hs⟩ := h
    exact .inr ⟨hp, [], ds, [], s, .nil, hs, rfl⟩

theorem mantissa_cons {d : Nat} (hb : Stands 16 d b) :
    Mantissa pointed (b :: s) ↔ Mantissa pointed s := by
  constructor
  · intro h
    rcases h with ⟨ds, h⟩ | ⟨hp, ds, es, w, f, hw, hf, h⟩
    · cases h with
      | cons _ h => exact .inl ⟨_, h⟩
    · cases w with
      | nil =>
        cases h
        exact absurd hb.not_isFloatMark (by decide)
      | cons c w =>
        cases h
        cases hw with
        | cons _ hw => exact .inr ⟨hp, _, es, w, f, hw, hf, rfl⟩
  · intro h
    rcases h with ⟨ds, h⟩ | ⟨hp, ds, es, w, f, hw, hf, rfl⟩
    · exact .inl ⟨d :: ds, .cons hb h⟩
    · exact .inr ⟨hp, d :: ds, es, b :: w, f, .cons hb hw, hf, rfl⟩

theorem not_mantissa (hp : b ≠ 0x2e) (hb : ∀ d, ¬ Stands 16 d b) : ¬ Mantissa pointed (b :: s) := by
  intro h
  rcases h with ⟨ds, h⟩ | ⟨-, ds, es, w, f, hw, hf, h⟩
  · obtain ⟨d, hd⟩ := h.mem List.mem_cons_self
    exact hb d hd
  · cases w with
    | nil =>
      cases h
      exact hp rfl
    | cons c w =>
      cases h
      obtain ⟨d, hd⟩ := hw.mem List.mem_cons_self
      exact hb d hd

theorem mantissa?_isSome {m : Double} {places : Nat} :
    (mantissa? s pointed m places).isSome = true ↔ Mantissa pointed s := by
  have hdigit : ∀ d b, digitIn? 16 b = some d ↔ Stands 16 d b :=
    fun d b => digitIn?_eq_some (by decide)
  induction s generalizing pointed m places with
  | nil => exact ⟨fun _ => .inl ⟨[], .nil⟩, fun _ => rfl⟩
  | cons b s ih =>
    rw [mantissa?]
    by_cases hp : b = 0x2e
    · subst hp
      rw [if_pos (by decide), mantissa_point]
      cases pointed with
      | true => exact ⟨fun h => absurd h Bool.false_ne_true, fun h => absurd h.1 (by decide)⟩
      | false =>
        rw [if_neg Bool.false_ne_true]
        refine ih.trans ⟨fun h => ⟨rfl, ?_⟩, fun h => .inl h.2⟩
        exact h.resolve_right fun h => absurd h.1 (by decide)
    · rw [if_neg (mt beq_iff_eq.mp hp)]
      split
      · rename_i hnone
        refine ⟨fun h => absurd h Bool.false_ne_true,
          fun h => absurd h (not_mantissa hp fun d hd => ?_)⟩
        rw [(hdigit d b).mpr hd] at hnone
        cases hnone
      · rename_i d hsome
        exact ih.trans (mantissa_cons ((hdigit d b).mp hsome)).symm

theorem binaryExponent_cons (hb : isExponentMark b = true) :
    BinaryExponent (b :: r) ↔ (int32Text? r).isSome = true := by
  rw [int32Text?_isSome]
  constructor
  · intro h
    obtain ⟨_, minus, n, _, _, hs, hi, h⟩ := h
    cases h
    exact ⟨minus, n, hs, hi⟩
  · intro h
    obtain ⟨minus, n, hs, hi⟩ := h
    refine ⟨b, minus, n, r, ?_, hs, hi, rfl⟩
    simpa [isExponentMark] using hb

/-- A hexadecimal float is read if its mantissa and its exponent are. -/
theorem hexFloat?_append (hu : ∀ b ∈ u, isExponentMark b = false)
    (hr : ∀ b, r.head? = some b → isExponentMark b = true) :
    (hexFloat? (u ++ r)).isSome = true ↔
      (r = [] ∨ BinaryExponent r) ∧ (∃ b ∈ u, b ≠ 0x2e) ∧ Mantissa false u := by
  obtain ⟨htake, hdrop⟩ := span_append (p := (!isExponentMark ·)) (u := u) (r := r)
    (fun b hb => by rw [hu b hb]; rfl) (fun b hb => by rw [hr b hb]; rfl)
  have hmantissa : (mantissa? u false Double.zero 0).isSome = true ↔ Mantissa false u :=
    mantissa?_isSome
  have hany : u.any (· != 0x2e) = true ↔ ∃ b ∈ u, b ≠ 0x2e := by simp
  rw [hexFloat?, htake, hdrop, ← hmantissa, ← hany]
  cases r with
  | nil => cases u.any (· != 0x2e) <;> cases mantissa? u false Double.zero 0 <;> simp [guard]
  | cons b r =>
    rw [binaryExponent_cons (hr b rfl)]
    dsimp only
    cases int32Text? r <;> cases u.any (· != 0x2e) <;>
      cases mantissa? u false Double.zero 0 <;> simp [guard]

theorem Stands.not_isExponentMark {d : Nat} (h : Stands 16 d b) : isExponentMark b = false := by
  have hmark := h.not_isFloatMark
  simp only [isFloatMark, Bool.or_eq_false_iff] at hmark
  simp only [isExponentMark, hmark, Bool.or_self]

theorem Spells.not_isExponentMark (h : Spells 16 ds s) : ∀ b ∈ s, isExponentMark b = false := by
  intro b hb
  obtain ⟨d, hd⟩ := h.mem hb
  exact hd.not_isExponentMark

theorem Spells.any_isFloatMark (h : Spells 16 ds s) : s.any isFloatMark = false := by
  rw [List.any_eq_false]
  intro b hb
  obtain ⟨d, hd⟩ := h.mem hb
  rw [hd.not_isFloatMark]
  exact Bool.false_ne_true

theorem Spells.exists_ne_point (h : Spells 16 ds s) (hne : s ≠ []) : ∃ b ∈ s, b ≠ 0x2e := by
  obtain ⟨b, r, rfl⟩ := List.exists_cons_of_ne_nil hne
  refine ⟨b, List.mem_cons_self, fun hb => ?_⟩
  subst hb
  exact not_spells_point h

theorem hexFloat?_isSome (hs : s.any isFloatMark = true) :
    (hexFloat? s).isSome = true ↔ Floating 16 BinaryExponent s := by
  have hmarks : ∀ b ∈ ([0x70, 0x50] : List UInt8), isExponentMark b = true :=
    List.all_iff_forall_prop.mp (by decide)
  constructor
  · intro h
    obtain ⟨u, r, rfl, hu, hr⟩ := exists_span (!isExponentMark ·) s
    obtain ⟨he, ⟨b, hb, hne⟩, hm⟩ := (hexFloat?_append (fun b hb => by simpa using hu b hb)
      (fun b hb => by simpa using hr b hb)).mp h
    rcases hm with ⟨ds, hds⟩ | ⟨-, ds, es, w, f, hw, hf, rfl⟩
    · rcases he with rfl | he
      · -- digits alone have no mark of a float
        rw [List.append_nil, hds.any_isFloatMark] at hs
        cases hs
      · exact .scaled hds (List.ne_nil_of_mem hb) he
    · rw [List.append_assoc, List.cons_append]
      refine .point hw hf (fun hnil => ?_) he
      obtain ⟨rfl, rfl⟩ := List.append_eq_nil_iff.mp hnil
      exact hne (List.mem_singleton.mp hb)
  · intro h
    rcases h with @⟨ds, es, w, f, e, hw, hf, hne, he⟩ | @⟨ds, w, e, hw, hne, he⟩
    · rw [← List.cons_append, ← List.append_assoc]
      refine (hexFloat?_append ?_ fun b hb => hmarks b (Exponent.head he hb)).mpr
        ⟨he, ?_, .inr ⟨rfl, ds, es, w, f, hw, hf, rfl⟩⟩
      · intro b hb
        rcases List.mem_append.mp hb with hb | hb
        · exact hw.not_isExponentMark b hb
        · rcases List.mem_cons.mp hb with rfl | hb
          · rfl
          · exact hf.not_isExponentMark b hb
      · obtain ⟨b, hb, hp⟩ := Spells.exists_ne_point (List.rel_append hw hf) hne
        refine ⟨b, ?_, hp⟩
        rw [List.mem_append] at hb ⊢
        exact hb.imp_right (List.mem_cons_of_mem _)
    · exact (hexFloat?_append hw.not_isExponentMark
        fun b hb => hmarks b (Exponent.head (.inr he) hb)).mpr
        ⟨.inr he, hw.exists_ne_point hne, .inl ⟨ds, hw⟩⟩

/-! ## numerals -/

/-- A numeral with a point or an exponent has a byte that is no digit. -/
theorem Floating.mark (h : Floating base (Exponent marks Fits) s) :
    ∃ b ∈ s, b ∈ 0x2e :: marks := by
  rcases h with _ | @⟨ds, w, e, -, -, mark, minus, n, r, hm, -, -, rfl⟩
  · exact ⟨0x2e, by simp, List.mem_cons_self⟩
  · exact ⟨mark, by simp, List.mem_cons_of_mem _ hm⟩

theorem Floating.exists_isDigit {Exp : List UInt8 → Prop} (h : Floating 10 Exp s) :
    ∃ b ∈ s, Bytes.isDigit b = true := by
  have first : ∀ {ds u}, Spells 10 ds u → u ≠ [] → ∃ b ∈ u, Bytes.isDigit b = true := by
    intro ds u hu hne
    obtain ⟨b, hb⟩ := List.exists_mem_of_ne_nil u hne
    exact ⟨b, hb, List.all_eq_true.mp (spells_iff_all.mp hu).1 b hb⟩
  rcases h with @⟨ds, es, w, f, e, hw, hf, hne, -⟩ | @⟨ds, w, e, hw, hne, -⟩
  · obtain ⟨b, hb, hdigit⟩ := first (List.rel_append hw hf) hne
    refine ⟨b, ?_, hdigit⟩
    rw [List.mem_append] at hb
    rw [List.mem_append, List.mem_cons, List.mem_append]
    tauto
  · obtain ⟨b, hb, hdigit⟩ := first hw hne
    exact ⟨b, List.mem_append_left e hb, hdigit⟩

theorem Exponent.mem (h : Exponent marks Fits e) (hb : b ∈ e) :
    (∃ d, Stands 10 d b) ∨ b ∈ 0x2d :: 0x2b :: marks := by
  obtain ⟨mark, minus, n, r, hm, ⟨sign, ds, body, hsign, -, hds, -, rfl⟩, -, rfl⟩ := h
  rcases List.mem_cons.mp hb with rfl | hb
  · exact .inr (List.mem_cons_of_mem _ (List.mem_cons_of_mem _ hm))
  · rcases List.mem_append.mp hb with hb | hb
    · exact .inr (List.mem_append_left marks (hsign.mem hb))
    · exact .inl (hds.mem hb)

theorem Floating.mem (h : Floating base (Exponent marks Fits) s) (hb : b ∈ s) :
    (∃ d, Stands base d b) ∨ (∃ d, Stands 10 d b) ∨ b ∈ 0x2e :: 0x2d :: 0x2b :: marks := by
  rcases h with @⟨ds, es, w, f, e, hw, hf, -, he⟩ | @⟨ds, w, e, hw, -, he⟩
  · rcases List.mem_append.mp hb with hb | hb
    · exact .inl (hw.mem hb)
    · rcases List.mem_cons.mp hb with rfl | hb
      · exact .inr (.inr List.mem_cons_self)
      · rcases List.mem_append.mp hb with hb | hb
        · exact .inl (hf.mem hb)
        · rcases he with rfl | he
          · cases hb
          · exact .inr (he.mem hb |>.imp_right (List.mem_cons_of_mem _))
  · rcases List.mem_append.mp hb with hb | hb
    · exact .inl (hw.mem hb)
    · exact .inr (he.mem hb |>.imp_right (List.mem_cons_of_mem _))

/-- What a numeral gives, with its sign: for decimal digits the integer, or a float where it does
not fit 64 bits; for hexadecimal digits the integer modulo `2^64`; else a float. -/
def Kind.Gives (minus : Bool) : Kind → Numeral → Prop
  | .decimal n, v =>
    if -2 ^ 63 ≤ signed minus n ∧ signed minus n < 2 ^ 63 then
      ∃ i : Int64, v = .integer i ∧ i.toInt = signed minus n
    else v = .float (Double.ofRatio minus n 1)
  | .hexadecimal n, v => ∃ i : Int64, v = .integer i ∧ i.toInt = (signed minus n).bmod (2 ^ 64)
  | .float, v => ∃ x, v = .float x

theorem Stands.isDigit {d : Nat} (h : Stands 10 d b) : Bytes.isDigit b = true := by
  obtain ⟨hd, capital, rfl⟩ := h
  exact (isDigit_digitByte capital hd).1

theorem toDouble_whole (hn : decimalValue (w ++ []) = n) (hpos : n ≠ 0) :
    (⟨w, [], 0⟩ : Decimals).toDouble minus = Double.ofRatio minus n 1 := by
  have hzero : ¬ (n == 0) = true := mt beq_iff_eq.mp hpos
  have hlarge : ¬ (exponentBound : Int) < 0 - ([] : List UInt8).length := by decide
  have hsmall : ¬ (0 : Int) - ([] : List UInt8).length
      < -(exponentBound : Int) - (w.length + ([] : List UInt8).length : Int) := by
    simp only [exponentBound, List.length_nil]
    omega
  unfold Decimals.toDouble
  simp only [hn]
  rw [if_neg hzero, if_neg hlarge, if_neg hsmall, if_pos (by decide)]
  exact congrArg (Double.ofRatio minus · 1) (Nat.mul_one n)

theorem readDecimal_eq (hdigit : ∃ b ∈ r, Bytes.isDigit b = true)
    (hall : ∀ b ∈ r, isDecimalByte b = true) :
    readDecimal s r = if r.any isDecimalMark then (floatText? s).map .float
      else ((int64Text? s).map .integer <|> (floatText? s).map .float) := by
  rw [readDecimal, List.any_eq_true.mpr hdigit, List.all_eq_true.mpr hall]
  rfl

/-- Digits alone are read as a float without a point. -/
theorem floatText?_digits (hs : splitSign s = (minus, r)) (hne : r ≠ []) (hds : Spells 10 ds r)
    (hpos : Nat.ofDigits 10 ds.reverse ≠ 0) :
    floatText? s = some (Double.ofRatio minus (Nat.ofDigits 10 ds.reverse) 1) := by
  obtain ⟨hall, -⟩ := spells_iff_all.mp hds
  have hdecimal : r.all isDecimalByte = true :=
    List.all_eq_true.mpr fun b hb => isDecimalByte_of_isDigit (List.all_eq_true.mp hall b hb)
  have hscaled : decimals? r = some ⟨r, [], 0⟩ := by
    have hd := decimals?_scaled (r := []) hall fun b hb => by cases hb
    rw [List.append_nil, if_neg (mt List.isEmpty_iff.mp hne)] at hd
    exact hd
  have hn : decimalValue (r ++ []) = Nat.ofDigits 10 ds.reverse := by
    rw [List.append_nil, decimalValue_eq hds]
  rw [floatText?_eq hs (not_isWord hdecimal), hscaled]
  exact congrArg some (toDouble_whole hn hpos)

theorem readDecimal_digits (hs : splitSign s = (minus, r)) (hne : r ≠ []) (hds : Spells 10 ds r) :
    ∃ v, readDecimal s r = some v ∧ (Kind.decimal (Nat.ofDigits 10 ds.reverse)).Gives minus v := by
  obtain ⟨hall, -⟩ := spells_iff_all.mp hds
  have hdigit := List.all_eq_true.mp hall
  have hmark : r.any isDecimalMark = false :=
    List.any_eq_false.mpr fun b hb => not_isDecimalMark_of_isDigit (hdigit b hb)
  have hsigned : SignedDigits minus (Nat.ofDigits 10 ds.reverse) s := by
    rw [signedDigits_iff, hs]
    exact ⟨rfl, hne, hall, (decimalValue_eq hds).symm⟩
  obtain ⟨b, hb⟩ := List.exists_mem_of_ne_nil r hne
  rw [readDecimal_eq ⟨b, hb, hdigit b hb⟩ fun b hb => isDecimalByte_of_isDigit (hdigit b hb), hmark,
    if_neg Bool.false_ne_true, int64Text?_eq hsigned]
  simp only [Kind.Gives]
  by_cases h : -2 ^ 63 ≤ signed minus (Nat.ofDigits 10 ds.reverse) ∧
      signed minus (Nat.ofDigits 10 ds.reverse) < 2 ^ 63
  · simp only [if_pos h]
    exact ⟨_, rfl, _, rfl, Int64.toInt_ofInt_of_le h.1 h.2⟩
  · -- zero fits, so the number that does not is another one
    have hpos : Nat.ofDigits 10 ds.reverse ≠ 0 := by
      intro h0
      rw [h0] at h
      cases minus <;> exact h (by decide)
    simp only [if_neg h]
    rw [floatText?_digits hs hne hds hpos]
    exact ⟨_, rfl, rfl⟩

theorem readDecimal_floating (hs : splitSign s = (minus, r)) (h : Floating 10 DecimalExponent r) :
    ∃ x, readDecimal s r = some (.float x) := by
  have hmarks : ∀ b ∈ ([0x2e, 0x65, 0x45] : List UInt8), isDecimalMark b = true :=
    List.all_iff_forall_prop.mp (by decide)
  have hothers : ∀ b ∈ ([0x2e, 0x2d, 0x2b, 0x65, 0x45] : List UInt8), isDecimalByte b = true :=
    List.all_iff_forall_prop.mp (by decide)
  have hdecimal : ∀ b ∈ r, isDecimalByte b = true := by
    intro b hb
    rcases h.mem hb with ⟨d, hd⟩ | ⟨d, hd⟩ | hb
    · exact isDecimalByte_of_isDigit hd.isDigit
    · exact isDecimalByte_of_isDigit hd.isDigit
    · exact hothers b hb
  obtain ⟨b, hb, hm⟩ := h.mark
  obtain ⟨x, hx⟩ := Option.isSome_iff_exists.mp ((floatText?_isSome hs).mpr (.inr (.inr h)))
  rw [readDecimal_eq h.exists_isDigit hdecimal,
    if_pos (List.any_eq_true.mpr ⟨b, hb, hmarks b hm⟩), hx]
  exact ⟨x, rfl⟩

theorem body_of_readDecimal (hs : splitSign s = (minus, r))
    (h : (readDecimal s r).isSome = true) : ∃ k, Body r k := by
  unfold readDecimal at h
  split at h
  · cases h
  · rename_i hbytes
    rw [Bool.or_eq_true, not_or, Bool.not_eq_true', Bool.not_eq_false, Bool.not_eq_true',
      Bool.not_eq_false] at hbytes
    have hfloat : (floatText? s).isSome = true → ∃ k, Body r k := by
      intro h
      rcases (floatText?_isSome hs).mp h with h | ⟨hne, ds, hds⟩ | h
      · exact absurd h (not_isWord hbytes.2)
      · exact ⟨_, .decimal hne hds⟩
      · exact ⟨_, .decimalFloat h⟩
    split at h
    · rw [Option.isSome_map] at h
      exact hfloat h
    · cases hi : int64Text? s with
      | none =>
        rw [hi] at h
        exact hfloat (Option.isSome_map.symm.trans h)
      | some i =>
        obtain ⟨minus', n, hsigned⟩ := signedDigits_of_int64Text? hi
        obtain ⟨-, hne, hall, -⟩ := signedDigits_iff.mp hsigned
        rw [hs] at hne hall
        exact ⟨_, .decimal hne (spells_iff_all.mpr ⟨hall, rfl⟩)⟩

theorem readHex_digits (hne : s ≠ []) (hds : Spells 16 ds s) :
    readHex minus s = some (.integer (takenIn 16 minus ds)) := by
  rw [readHex, hds.any_isFloatMark, if_neg Bool.false_ne_true,
    (digits?_eq_some (by decide)).mpr ⟨hne, hds⟩]
  rfl

theorem readHex_floating (minus : Bool) (h : Floating 16 BinaryExponent s) :
    ∃ x, readHex minus s = some (.float x) := by
  have hmarks : ∀ b ∈ ([0x2e, 0x70, 0x50] : List UInt8), isFloatMark b = true :=
    List.all_iff_forall_prop.mp (by decide)
  have hany : s.any isFloatMark = true := by
    obtain ⟨b, hb, hm⟩ := h.mark
    exact List.any_eq_true.mpr ⟨b, hb, hmarks b hm⟩
  obtain ⟨x, hx⟩ := Option.isSome_iff_exists.mp ((hexFloat?_isSome hany).mpr h)
  rw [readHex, if_pos hany, hx]
  exact ⟨_, rfl⟩

theorem body_of_readHex (hx : x = 0x78 ∨ x = 0x58) (h : (readHex minus s).isSome = true) :
    ∃ k, Body (0x30 :: x :: s) k := by
  unfold readHex at h
  split at h
  · rename_i hs
    rw [Option.isSome_map, hexFloat?_isSome hs] at h
    exact ⟨_, .hexadecimalFloat hx h⟩
  · rw [Option.isSome_map] at h
    obtain ⟨ds, hds⟩ := Option.isSome_iff_exists.mp h
    obtain ⟨hne, hds⟩ := (digits?_eq_some (by decide)).mp hds
    exact ⟨_, .hexadecimal hx hne hds⟩

variable {text : Bytes}

theorem read_hex (hv : Utf8.valid text = true)
    (hs : splitSign (trim text.toList) = (minus, 0x30 :: x :: s)) (hx : x = 0x78 ∨ x = 0x58) :
    read text = readHex minus s := by
  rw [read, hv]
  dsimp only
  rw [Bool.not_true, if_neg Bool.false_ne_true, hs]
  exact if_pos (by simpa using hx)

theorem read_decimal (hv : Utf8.valid text = true)
    (hs : splitSign (trim text.toList) = (minus, s))
    (hx : ∀ x r, s = 0x30 :: x :: r → ¬ (x = 0x78 ∨ x = 0x58)) :
    read text = readDecimal (trim text.toList) s := by
  rw [read, hv]
  dsimp only
  rw [Bool.not_true, if_neg Bool.false_ne_true, hs]
  dsimp only
  split
  · rename_i x r
    exact if_neg (by simpa using hx x r rfl)
  · rfl

theorem Unsigned.append (hu : Unsigned w) (hne : w ≠ []) : Unsigned (w ++ r) := by
  rw [Unsigned, List.head?_append_of_ne_nil _ hne]
  exact hu

theorem Floating.unsigned (hbase : base ≤ 36) {Exp : List UInt8 → Prop}
    (h : Floating base Exp s) : Unsigned s := by
  rcases h with @⟨ds, es, w, f, e, hw, -, -, -⟩ | @⟨ds, w, e, hw, hne, -⟩
  · cases w with
    | nil => exact unsigned_cons (by decide) (by decide)
    | cons b w => exact (hw.unsigned hbase).append (List.cons_ne_nil b w)
  · exact (hw.unsigned hbase).append hne

theorem Floating.plain (hbase : base ≤ 36) (hmarks : ∀ b ∈ marks, Plain b)
    (h : Floating base (Exponent marks Fits) s) : ∀ b ∈ s, Plain b := by
  intro b hb
  rcases h.mem hb with ⟨d, hd, capital, rfl⟩ | ⟨d, hd, capital, rfl⟩ | hb
  · exact (digitByte_plain capital (Nat.lt_of_lt_of_le hd hbase)).1
  · exact (digitByte_plain capital (Nat.lt_of_lt_of_le hd (by decide))).1
  · simp only [List.mem_cons] at hb
    rcases hb with rfl | rfl | rfl | hb
    · decide
    · decide
    · decide
    · exact hmarks b hb

/-- The bytes of a numeral are plain, and the first one is no sign. -/
theorem Body.plain (h : Body s k) : (∀ b ∈ s, Plain b) ∧ Unsigned s := by
  have hx : ∀ (x : UInt8) (s : List UInt8), x = 0x78 ∨ x = 0x58 → (∀ b ∈ s, Plain b) →
      (∀ b ∈ 0x30 :: x :: s, Plain b) ∧ Unsigned (0x30 :: x :: s) := by
    intro x s hx hs
    refine ⟨?_, unsigned_cons (by decide) (by decide)⟩
    rw [List.forall_mem_cons, List.forall_mem_cons]
    refine ⟨by decide, ?_, hs⟩
    rcases hx with rfl | rfl <;> decide
  cases h with
  | decimal _ hds => exact ⟨hds.plain (by decide), hds.unsigned (by decide)⟩
  | decimalFloat h =>
    exact ⟨h.plain (by decide) (List.all_iff_forall_prop.mp (by decide)), h.unsigned (by decide)⟩
  | hexadecimal hx' _ hds => exact hx _ _ hx' (hds.plain (by decide))
  | hexadecimalFloat hx' h =>
    exact hx _ _ hx' (h.plain (by decide) (List.all_iff_forall_prop.mp (by decide)))

theorem Stands.ne_hex {d : Nat} (h : Stands 10 d b) : ¬ (b = 0x78 ∨ b = 0x58) := by
  have key : ∀ c : Bool, ∀ d < 10, ¬ (digitByte c d = 0x78 ∨ digitByte c d = 0x58) := by decide
  obtain ⟨hd, capital, rfl⟩ := h
  exact key capital d hd

theorem Floating.ne_hex (h : Floating 10 DecimalExponent s) (hb : b ∈ s) :
    ¬ (b = 0x78 ∨ b = 0x58) := by
  have key : ∀ b ∈ ([0x2e, 0x2d, 0x2b, 0x65, 0x45] : List UInt8), ¬ (b = 0x78 ∨ b = 0x58) :=
    List.all_iff_forall_prop.mp (by decide)
  rcases h.mem hb with ⟨d, hd⟩ | ⟨d, hd⟩ | hb
  · exact hd.ne_hex
  · exact hd.ne_hex
  · exact key b hb

theorem Body.read_eq_some (h : Body s k) (hv : Utf8.valid text = true)
    (hs : splitSign (trim text.toList) = (minus, s)) :
    ∃ v, read text = some v ∧ k.Gives minus v := by
  cases h with
  | decimal hne hds =>
    rw [read_decimal hv hs]
    · exact readDecimal_digits hs hne hds
    -- a second byte `x` would make it hexadecimal, but it is a digit
    · intro x r hx
      obtain ⟨d, hd⟩ := hds.mem (b := x) (by simp [hx])
      exact hd.ne_hex
  | decimalFloat h =>
    obtain ⟨x, hx⟩ := readDecimal_floating hs h
    refine ⟨_, ?_, x, rfl⟩
    rw [read_decimal hv hs, hx]
    intro x r hx
    exact h.ne_hex (by simp [hx])
  | hexadecimal hx hne hds =>
    refine ⟨_, (read_hex hv hs hx).trans (readHex_digits hne hds), _, rfl, ?_⟩
    rw [takenIn_eq]
    exact Int64.toInt_ofInt
  | hexadecimalFloat hx h =>
    obtain ⟨y, hy⟩ := readHex_floating minus h
    exact ⟨_, (read_hex hv hs hx).trans hy, y, rfl⟩

/-- A numeral with its sign, between blanks. -/
def Numerical (s : List UInt8) (minus : Bool) (k : Kind) : Prop :=
  ∃ sign body, Framed s (sign ++ body) ∧ IsSign minus sign ∧ Body body k

theorem Numerical.splits (h : Numerical text.toList minus k) : Utf8.valid text = true ∧
    ∃ body, splitSign (trim text.toList) = (minus, body) ∧ Body body k := by
  obtain ⟨sign, body, hframed, hsign, hbody⟩ := h
  obtain ⟨hplain, hunsigned⟩ := hbody.plain
  have hplain : ∀ b ∈ sign ++ body, Plain b :=
    fun b hb => (List.mem_append.mp hb).elim (hsign.plain b) (hplain b)
  refine ⟨hframed.valid hplain, body, ?_, hbody⟩
  rw [hframed.trim_eq hplain]
  exact splitSign_append hsign hunsigned

theorem numerical_of_read (h : (read text).isSome = true) :
    ∃ minus k, Numerical text.toList minus k := by
  have hv : Utf8.valid text = true := by
    unfold read at h
    split at h
    · cases h
    · rename_i hv
      rwa [Bool.not_eq_true', Bool.not_eq_false] at hv
  obtain ⟨sign, hsign, htrim⟩ := splitSign_spec (trim text.toList)
  have hbody : ∃ k, Body (splitSign (trim text.toList)).2 k := by
    by_cases hx : ∃ x r, (splitSign (trim text.toList)).2 = 0x30 :: x :: r ∧ (x = 0x78 ∨ x = 0x58)
    · obtain ⟨x, r, hs, hx⟩ := hx
      rw [read_hex hv (Prod.ext rfl hs) hx] at h
      rw [hs]
      exact body_of_readHex hx h
    · rw [read_decimal hv rfl fun x r hs hx' => hx ⟨x, r, hs, hx'⟩] at h
      exact body_of_readDecimal rfl h
  obtain ⟨k, hk⟩ := hbody
  refine ⟨_, k, sign, _, ?_, hsign, hk⟩
  rw [← htrim]
  exact framed_trim _

/-- **The numerals are exactly what is read.**  Decimal ones pass a test of their bytes and then a
parser of integers or of floats.  The parsers take signs and words as well; what passes both is a
numeral, and every numeral does. -/
theorem read_numerals (text : Bytes) :
    ((read text).isSome = true ↔ ∃ minus k, Numerical text.toList minus k) ∧
    ∀ minus k, Numerical text.toList minus k → ∃ v, read text = some v ∧ k.Gives minus v := by
  have hgives : ∀ minus k, Numerical text.toList minus k →
      ∃ v, read text = some v ∧ k.Gives minus v := by
    intro minus k h
    obtain ⟨hv, body, hs, hbody⟩ := h.splits
    exact hbody.read_eq_some hv hs
  refine ⟨⟨numerical_of_read, ?_⟩, hgives⟩
  intro h
  obtain ⟨minus, k, h⟩ := h
  obtain ⟨v, hv, -⟩ := hgives minus k h
  rw [hv]
  rfl

/-- A hexadecimal numeral between blanks, past `2^63` and after a minus. -/
theorem read_numerals_wrapped :
    ∃ text : Bytes,
      text.toList = [0x09, 0x2d, 0x30, 0x58, 0x38] ++ List.replicate 14 0x30 ++ [0x46, 0x0a] ∧
      Numerical text.toList true (.hexadecimal (2 ^ 63 + 15)) ∧
      ∃ i, read text = some (.integer i) ∧ i.toInt = 2 ^ 63 - 15 := by
  have hn : Nat.ofDigits 16 (8 :: (List.replicate 14 0 ++ [15])).reverse = 2 ^ 63 + 15 := by decide
  have hds : Spells 16 (8 :: (List.replicate 14 0 ++ [15]))
      (0x38 :: (List.replicate 14 0x30 ++ [0x46])) := (mapM_digitIn? (by decide)).mp (by decide)
  have h : Numerical ([0x09, 0x2d, 0x30, 0x58, 0x38] ++ List.replicate 14 0x30 ++ [0x46, 0x0a])
      true (.hexadecimal (2 ^ 63 + 15)) := by
    rw [← hn]
    exact ⟨[0x2d], _, ⟨[0x09], [0x0a], by simp [Blank], by simp [Blank], rfl⟩, rfl,
      .hexadecimal (.inr rfl) (List.cons_ne_nil _ _) hds⟩
  obtain ⟨_, hv, i, rfl, hi⟩ := (read_numerals (List.toArray _)).2 _ _ h
  exact ⟨_, rfl, h, i, hv, hi.trans (by decide)⟩

end LuaMachine.Numeral
