import Mathlib.Order.Monotone.Basic
import Mathlib.Tactic.Ring
import LuaMachine.Double

/-!
# Which integers and floats are equal

Comparison of a float with an integer rounds the integer first.  Here is what rounding can give.

* `wordUnits`              the value of an unsigned word; it is strictly monotone;
* `eq_of_eq_true`          floats that are equal by value are the same, zeros apart;
* `wordUnits_significand`  the value of a word that is put together from a significand and a shift;
* `ofInt_integral`         an integer of 64 bits rounds to one, or to `2^63`.
-/

namespace LuaMachine

theorem pow2_add (a b : Nat) : pow2 (a + b) = pow2 a * pow2 b := Nat.pow_add 2 a b

theorem pow2_pos (k : Nat) : 0 < pow2 k := Nat.two_pow_pos k

theorem exactInt64?_isSome {i : Int} (hl : -2 ^ 63 ≤ i) (hu : i < 2 ^ 63) :
    ∃ n, exactInt64? i = some n := by
  refine ⟨Int64.ofInt i, ?_⟩
  unfold exactInt64?
  have hmin : Int64.minValue.toInt = -2 ^ 63 := rfl
  have hmax : Int64.maxValue.toInt = 2 ^ 63 - 1 := rfl
  rw [if_pos ⟨by omega, by omega⟩]

namespace Double

/-! ## the value of a word -/

def wordUnits (m : Nat) : Nat :=
  if m / pow2 52 = 0 then m % pow2 52 else (pow2 52 + m % pow2 52) * pow2 (m / pow2 52 - 1)

theorem absUnits_eq (x : Double) : x.absUnits = wordUnits x.magnitude := by
  unfold absUnits wordUnits field fraction
  simp only [beq_iff_eq]

/-- A significand of 53 bits, or the power of two after them, added to a shifted exponent. -/
theorem wordUnits_significand (s q : Nat) (hl : pow2 52 ≤ q) (hu : q ≤ pow2 53) :
    wordUnits (s * pow2 52 + q) = q * pow2 s := by
  have h53 : pow2 53 = 2 * pow2 52 := rfl
  have hp := pow2_pos 52
  unfold wordUnits
  rcases Nat.lt_or_ge q (pow2 53) with h | h
  · have e : s * pow2 52 + q = (q - pow2 52) + pow2 52 * (s + 1) := by
      rw [Nat.mul_succ, Nat.mul_comm s]; omega
    have hd : (s * pow2 52 + q) / pow2 52 = s + 1 := by
      rw [e, Nat.add_mul_div_left _ _ hp, Nat.div_eq_of_lt (by omega), Nat.zero_add]
    have hm : (s * pow2 52 + q) % pow2 52 = q - pow2 52 := by
      rw [e, Nat.add_mul_mod_self_left, Nat.mod_eq_of_lt (by omega)]
    rw [hd, hm, if_neg (Nat.succ_ne_zero s), Nat.add_sub_cancel, Nat.add_sub_cancel' hl]
  · have hq : q = 2 * pow2 52 := by omega
    have e : s * pow2 52 + q = 0 + pow2 52 * (s + 2) := by
      rw [hq, Nat.mul_comm s]; ring
    have hd : (s * pow2 52 + q) / pow2 52 = s + 2 := by
      rw [e, Nat.add_mul_div_left _ _ hp, Nat.zero_div, Nat.zero_add]
    have hm : (s * pow2 52 + q) % pow2 52 = 0 := by
      rw [e, Nat.add_mul_mod_self_left, Nat.zero_mod]
    rw [hd, hm, if_neg (Nat.succ_ne_zero _), Nat.add_zero, hq]
    show pow2 52 * pow2 (s + 1) = _
    rw [pow2_add s 1]
    show pow2 52 * (pow2 s * 2) = _
    ring

theorem wordUnits_small {m : Nat} (h : m < pow2 52) : wordUnits m = m := by
  unfold wordUnits
  rw [if_pos (Nat.div_eq_of_lt h), Nat.mod_eq_of_lt h]

theorem word_cases (m : Nat) :
    m < pow2 52 ∨ ∃ s q, pow2 52 ≤ q ∧ q < pow2 53 ∧ m = s * pow2 52 + q := by
  have h53 : pow2 53 = 2 * pow2 52 := rfl
  rcases Nat.lt_or_ge m (pow2 52) with h | h
  · exact .inl h
  · refine .inr ⟨m / pow2 52 - 1, pow2 52 + m % pow2 52, Nat.le_add_right _ _, ?_, ?_⟩
    · have := Nat.mod_lt m (pow2_pos 52)
      omega
    · have hd : 1 ≤ m / pow2 52 := (Nat.le_div_iff_mul_le (pow2_pos 52)).mpr (by omega)
      have e := Nat.div_add_mod m (pow2 52)
      rw [Nat.sub_mul, Nat.one_mul, Nat.mul_comm]
      have hle : pow2 52 ≤ pow2 52 * (m / pow2 52) := Nat.le_mul_of_pos_right _ hd
      omega

theorem wordUnits_strictMono : StrictMono wordUnits := by
  apply strictMono_nat_of_lt_succ
  intro m
  rcases word_cases m with h | ⟨s, q, hl, hu, rfl⟩
  · rw [wordUnits_small h]
    rcases Nat.lt_or_ge (m + 1) (pow2 52) with h' | h'
    · rw [wordUnits_small h']
      exact Nat.lt_succ_self m
    · have e : m + 1 = 0 * pow2 52 + pow2 52 := by omega
      rw [e, wordUnits_significand 0 _ (Nat.le_refl _) (by decide)]
      show m < pow2 52 * 1
      omega
  · rw [Nat.add_assoc, wordUnits_significand s q hl (Nat.le_of_lt hu),
      wordUnits_significand s (q + 1) (by omega) hu]
    exact Nat.mul_lt_mul_of_pos_right (Nat.lt_succ_self q) (pow2_pos s)

/-! ## equality by value -/

theorem ext_magnitude {x y : Double} (hn : x.negative = y.negative)
    (hm : x.magnitude = y.magnitude) : x = y := by
  have h64 : pow2 64 = 2 * pow2 63 := rfl
  have hx : x.bits.toNat < pow2 64 := x.bits.toNat_lt
  have hy : y.bits.toNat < pow2 64 := y.bits.toNat_lt
  have word : ∀ z : Double, z.bits.toNat < pow2 64 →
      z.bits.toNat = (if z.negative then pow2 63 else 0) + z.magnitude := by
    intro z hz
    unfold negative magnitude
    rcases Nat.lt_or_ge z.bits.toNat (pow2 63) with h | h
    · rw [if_neg (by simpa using h), Nat.mod_eq_of_lt h, Nat.zero_add]
    · rw [if_pos (by simpa using h), Nat.mod_eq_sub_mod h, Nat.mod_eq_of_lt (by omega)]
      omega
  have hb : x.bits.toNat = y.bits.toNat := by rw [word x hx, word y hy, hn, hm]
  cases x
  cases y
  exact congrArg Double.mk (UInt64.toNat_inj.mp hb)

theorem absUnits_eq_zero {x : Double} : x.absUnits = 0 ↔ x.magnitude = 0 := by
  rw [absUnits_eq, ← wordUnits_small (pow2_pos 52)]
  exact wordUnits_strictMono.injective.eq_iff

theorem eq_refl {x : Double} (h : x.isNaN = false) : x.eq x = true := by
  simp [eq, h]

theorem eq_symm {x y : Double} (h : x.eq y = true) : y.eq x = true := by
  simp only [eq, Bool.and_eq_true, beq_iff_eq] at h ⊢
  exact ⟨⟨h.1.2, h.1.1⟩, h.2.symm⟩

theorem eq_of_eq_true {x y : Double} (h : x.eq y = true) (h0 : y.absUnits ≠ 0) : x = y := by
  simp only [eq, Bool.and_eq_true, beq_iff_eq] at h
  have hu := h.2
  unfold units at hu
  cases hx : x.negative <;> cases hy : y.negative <;> simp only [hx, hy] at hu
  · have he : x.absUnits = y.absUnits := by simpa using hu
    rw [absUnits_eq, absUnits_eq] at he
    exact ext_magnitude (hx.trans hy.symm) (wordUnits_strictMono.injective he)
  · exfalso
    simp at hu
    omega
  · exfalso
    simp at hu
    omega
  · have he : x.absUnits = y.absUnits := by simpa using hu
    rw [absUnits_eq, absUnits_eq] at he
    exact ext_magnitude (hx.trans hy.symm) (wordUnits_strictMono.injective he)

/-! ## rounding integers -/

theorem one_pos : 0 < one := pow2_pos 1074

theorem ofMagnitude_toNat (b : Bool) {m : Nat} (h : m < pow2 63) :
    (ofMagnitude b m).bits.toNat = (if b then pow2 63 + m else m) := by
  have h64 : 2 ^ 64 = 2 * pow2 63 := rfl
  show (UInt64.ofNat (if b then pow2 63 + m else m)).toNat = _
  rw [UInt64.toNat_ofNat']
  apply Nat.mod_eq_of_lt
  cases b <;> simp only [if_true, Bool.false_eq_true, if_false] <;> omega

theorem magnitude_ofMagnitude (b : Bool) {m : Nat} (h : m < pow2 63) :
    (ofMagnitude b m).magnitude = m := by
  unfold magnitude
  rw [ofMagnitude_toNat b h]
  cases b
  · exact Nat.mod_eq_of_lt h
  · show (pow2 63 + m) % pow2 63 = m
    rw [Nat.add_mod_left, Nat.mod_eq_of_lt h]

theorem negative_ofMagnitude (b : Bool) {m : Nat} (h : m < pow2 63) :
    (ofMagnitude b m).negative = b := by
  unfold negative
  rw [ofMagnitude_toNat b h]
  cases b
  · simpa using h
  · simp

theorem roundQuotient_bounds (num den : Nat) :
    num / den ≤ roundQuotient num den ∧ roundQuotient num den ≤ num / den + 1 := by
  unfold roundQuotient
  dsimp only
  split
  · exact ⟨Nat.le_succ _, Nat.le_refl _⟩
  · exact ⟨Nat.le_refl _, Nat.le_succ _⟩

theorem roundQuotient_mul (q den : Nat) (h : 0 < den) : roundQuotient (q * den) den = q := by
  unfold roundQuotient
  dsimp only
  rw [Nat.mul_mod_left, Nat.mul_div_cancel _ h, if_neg]
  have : ¬ 0 = den := by omega
  simp [this]

/-- The word of a positive integer: the significand that the rounding gives, and the shift. -/
theorem nearestWord_integer {a : Nat} (h0 : 0 < a) (h : a ≤ pow2 63) :
    ∃ q, pow2 52 ≤ q ∧ q ≤ pow2 53 ∧ q = roundQuotient (a * one) (pow2 (a.log2 + 1022)) ∧
      nearestWord (a * one) 1 = (a.log2 + 1022) * pow2 52 + q := by
  have ha : a ≠ 0 := Nat.pos_iff_ne_zero.mp h0
  have hlog : a.log2 ≤ 63 := by
    have h1 := Nat.log2_self_le ha
    by_contra hc
    have h2 : pow2 64 ≤ 2 ^ a.log2 := Nat.pow_le_pow_right (by decide) (by omega)
    have h3 : pow2 63 < pow2 64 := by decide
    omega
  have hlow : pow2 52 * pow2 (a.log2 + 1022) ≤ a * one := by
    rw [← pow2_add, show 52 + (a.log2 + 1022) = a.log2 + 1074 by omega, pow2_add]
    exact Nat.mul_le_mul_right _ (Nat.log2_self_le ha)
  have hup : a * one < pow2 53 * pow2 (a.log2 + 1022) := by
    rw [← pow2_add, show 53 + (a.log2 + 1022) = (a.log2 + 1) + 1074 by omega, pow2_add]
    exact Nat.mul_lt_mul_of_pos_right Nat.lt_log2_self (pow2_pos 1074)
  have hnum : (a * one).log2 = a.log2 + 1074 := by
    rw [Nat.log2_eq_iff (Nat.mul_ne_zero ha (Nat.pos_iff_ne_zero.mp one_pos))]
    constructor
    · show pow2 (a.log2 + 1074) ≤ a * one
      rw [pow2_add]
      exact Nat.mul_le_mul_right _ (Nat.log2_self_le ha)
    · show a * one < pow2 (a.log2 + 1074 + 1)
      rw [show a.log2 + 1074 + 1 = (a.log2 + 1) + 1074 by omega, pow2_add]
      exact Nat.mul_lt_mul_of_pos_right Nat.lt_log2_self one_pos
  obtain ⟨hb1, hb2⟩ := roundQuotient_bounds (a * one) (pow2 (a.log2 + 1022))
  have hq1 : pow2 52 ≤ (a * one) / pow2 (a.log2 + 1022) :=
    (Nat.le_div_iff_mul_le (pow2_pos _)).mpr hlow
  have hq2 : (a * one) / pow2 (a.log2 + 1022) < pow2 53 :=
    (Nat.div_lt_iff_lt_mul (pow2_pos _)).mpr hup
  refine ⟨_, Nat.le_trans hq1 hb1, by omega, rfl, ?_⟩
  unfold nearestWord
  dsimp only
  rw [Nat.div_one, hnum, Nat.one_mul, show a.log2 + 1074 + 1 - 53 = a.log2 + 1022 by omega]
  apply Nat.min_eq_left
  have h53 : pow2 53 = 2 * pow2 52 := rfl
  have hs : (a.log2 + 1022) * pow2 52 ≤ 1085 * pow2 52 := Nat.mul_le_mul_right _ (by omega)
  unfold infinityWord
  omega

/-- A positive integer of at most 63 bits rounds to an integer that has as many bits, or is the
power of two after them. -/
theorem wordUnits_integer {a : Nat} (h0 : 0 < a) (h : a ≤ pow2 63) :
    ∃ c, wordUnits (nearestWord (a * one) 1) = c * one ∧ c ≤ pow2 (a.log2 + 1) := by
  obtain ⟨q, hl, hu, hq, hw⟩ := nearestWord_integer h0 h
  rw [hw, wordUnits_significand _ q hl hu]
  rcases Nat.lt_or_ge a.log2 52 with hlog | hlog
  · -- no bit is lost
    have e : a * one = a * pow2 (52 - a.log2) * pow2 (a.log2 + 1022) := by
      rw [Nat.mul_assoc, ← pow2_add, show 52 - a.log2 + (a.log2 + 1022) = 1074 by omega]
      rfl
    rw [e, roundQuotient_mul _ _ (pow2_pos _)] at hq
    exact ⟨a, by rw [hq, ← e], Nat.le_of_lt Nat.lt_log2_self⟩
  · refine ⟨q * pow2 (a.log2 - 52), ?_, ?_⟩
    · rw [Nat.mul_assoc]
      show _ = q * (pow2 (a.log2 - 52) * pow2 1074)
      rw [← pow2_add, show a.log2 - 52 + 1074 = a.log2 + 1022 by omega]
    · rw [show a.log2 + 1 = 53 + (a.log2 - 52) by omega, pow2_add]
      exact Nat.mul_le_mul_right _ hu

/-- Below `2^63`, only the integers from `2^62` on may round to `2^63`. -/
theorem wordUnits_integer_lt {a : Nat} (h0 : 0 < a) (h : a < pow2 63) :
    ∃ c, wordUnits (nearestWord (a * one) 1) = c * one ∧ c ≤ pow2 63 ∧
      (c = pow2 63 → pow2 62 ≤ a) := by
  have ha : a ≠ 0 := Nat.pos_iff_ne_zero.mp h0
  have hlog : a.log2 < 63 := (Nat.log2_lt ha).mpr h
  obtain ⟨c, hc, hb⟩ := wordUnits_integer h0 (Nat.le_of_lt h)
  refine ⟨c, hc, Nat.le_trans hb (Nat.pow_le_pow_right (by decide) hlog), fun he => ?_⟩
  have hlow : 62 ≤ a.log2 := by
    by_contra hlt
    have h1 : pow2 (a.log2 + 1) ≤ pow2 62 := Nat.pow_le_pow_right (by decide) (by omega)
    have h2 : pow2 62 < pow2 63 := by decide
    omega
  exact Nat.le_trans (Nat.pow_le_pow_right (by decide) hlow) (Nat.log2_self_le ha)

theorem nearestWord_integer_lt {a : Nat} (h0 : 0 < a) (h : a ≤ pow2 63) :
    nearestWord (a * one) 1 < infinityWord := by
  obtain ⟨q, hl, hu, hq, hw⟩ := nearestWord_integer h0 h
  have hlog : a.log2 < 64 := (Nat.log2_lt (Nat.pos_iff_ne_zero.mp h0)).mpr
    (Nat.lt_of_le_of_lt h (by decide))
  have hs : (a.log2 + 1022) * pow2 52 ≤ 1085 * pow2 52 := Nat.mul_le_mul_right _ (by omega)
  have h53 : pow2 53 = 2 * pow2 52 := rfl
  have hp := pow2_pos 52
  rw [hw]
  unfold infinityWord
  omega

/-- The float `2^63`, the first integral one past the integers of 64 bits. -/
def twoPow63 : Double := ⟨0x43E0000000000000⟩

theorem wordUnits_twoPow63 : wordUnits twoPow63.magnitude = pow2 63 * one := by decide +kernel

/-- The integer that a float is, for one whose word and value are known. -/
theorem toInteger?_ofMagnitude (b : Bool) {m c : Nat} (hm : m < infinityWord)
    (hc : wordUnits m = c * one) :
    (ofMagnitude b m).toInteger? = exactInt64? (if b then -c else c) := by
  have h63 : m < pow2 63 := Nat.lt_trans hm (by decide)
  have hfin : (ofMagnitude b m).isFinite = true := by
    unfold isFinite field
    rw [magnitude_ofMagnitude b h63, bne_iff_ne]
    exact Nat.ne_of_lt ((Nat.div_lt_iff_lt_mul (pow2_pos 52)).mpr hm)
  unfold toInteger?
  rw [absUnits_eq, magnitude_ofMagnitude b h63, negative_ofMagnitude b h63, hc, hfin,
    Nat.mul_mod_left, Nat.mul_div_cancel _ one_pos]
  rfl

theorem toInteger?_zero (x : Double) (h : x.absUnits = 0) : x.toInteger? = some 0 := by
  have hf : x.isFinite = true := by
    unfold isFinite field
    rw [absUnits_eq_zero.mp h]
    decide
  unfold toInteger?
  rw [h, hf, Nat.zero_mod, Nat.zero_div]
  cases x.negative <;> rfl

theorem toInteger?_ofInt {n : Int} {c : Nat} (hw : nearestWord (n.natAbs * one) 1 < infinityWord)
    (hc : wordUnits (nearestWord (n.natAbs * one) 1) = c * one) :
    (ofInt n).toInteger? = exactInt64? (if n < 0 then -c else c) := by
  have h := toInteger?_ofMagnitude (decide (n < 0)) hw hc
  simp only [decide_eq_true_eq] at h
  exact h

theorem ofInt_eq_twoPow63 {n : Int} (hn : 0 ≤ n) (hw : nearestWord (n.natAbs * one) 1 < infinityWord)
    (hc : wordUnits (nearestWord (n.natAbs * one) 1) = pow2 63 * one) : ofInt n = twoPow63 := by
  have h63 : nearestWord (n.natAbs * one) 1 < pow2 63 := Nat.lt_trans hw (by decide)
  apply ext_magnitude
  · show (ofMagnitude _ _).negative = _
    rw [negative_ofMagnitude _ h63, decide_eq_false (Int.not_lt.mpr hn)]
    rfl
  · show (ofMagnitude _ _).magnitude = _
    rw [magnitude_ofMagnitude _ h63]
    apply wordUnits_strictMono.injective
    rw [hc, wordUnits_twoPow63]

/-- **An integer of 64 bits rounds to one**, except that large ones round to `2^63`. -/
theorem ofInt_integral (n : Int64) :
    (∃ m, (ofInt n.toInt).toInteger? = some m) ∨ (ofInt n.toInt = twoPow63 ∧ 2 ^ 62 ≤ n.toInt) := by
  have hlo : -2 ^ 63 ≤ n.toInt := Int64.le_toInt n
  have hup : n.toInt < 2 ^ 63 := Int64.toInt_lt n
  have h62 : pow2 62 = 2 ^ 62 := rfl
  have h63 : pow2 63 = 2 ^ 63 := rfl
  -- zero and the least integer, whose absolute value is not below `2^63`, by computation
  by_cases h0 : n.toInt = 0
  · exact .inl ⟨0, by rw [h0]; decide +kernel⟩
  by_cases hmin : n.toInt = -2 ^ 63
  · exact .inl ⟨Int64.minValue, by rw [hmin]; decide +kernel⟩
  have hpos : 0 < n.toInt.natAbs := Int.natAbs_pos.mpr h0
  have hlt : n.toInt.natAbs < pow2 63 := by omega
  obtain ⟨c, hc, hle, hlarge⟩ := wordUnits_integer_lt hpos hlt
  have hw := nearestWord_integer_lt hpos (Nat.le_of_lt hlt)
  rcases lt_or_ge n.toInt 0 with hn | hn
  · rw [toInteger?_ofInt hw hc, if_pos hn]
    exact .inl (exactInt64?_isSome (by omega) (by omega))
  · rcases Nat.lt_or_ge c (pow2 63) with hcl | hcl
    · rw [toInteger?_ofInt hw hc, if_neg (Int.not_lt.mpr hn)]
      exact .inl (exactInt64?_isSome (by omega) (by omega))
    · have he : c = pow2 63 := Nat.le_antisymm hle hcl
      have := hlarge he
      exact .inr ⟨ofInt_eq_twoPow63 hn hw (he ▸ hc), by omega⟩

end Double

end LuaMachine
