import Mathlib.Algebra.Order.Field.Basic
import Mathlib.Algebra.Order.Field.Rat
import Mathlib.Tactic.FieldSimp
import LuaMachine.Proofs.Double

/-!
# Integers and the floats next to them

An integer of 64 bits that is no float is rounded to one.  Here is which one it is, said without
the way in which it is found.

* `Double.rational`     the value of a finite float;
* `Double.NearestTo`    no finite float is nearer to an integer, and of two equally near ones the one
                        with an even fraction is taken;
* `nearestTo_ofInt`     rounding gives the nearest float;
* `nearestTo_iff`       and the nearest float is what rounding gives, zeros of both signs being one
                        value.

In the binade of an integer the floats are the multiples of a power of two (`wordUnits_dvd`), and
`roundQuotient` takes the nearest multiple; the floats below the binade are further away than its
first one.
-/

namespace LuaMachine

/-! ## the nearest multiple -/

/-- How far apart two integers are. -/
def apart (a b : Int) : Nat := (a - b).natAbs

theorem roundQuotient_nearest (num k : Nat) {den : Nat} (h : 0 < den) :
    apart (roundQuotient num den * den : Nat) num ≤ apart (k * den : Nat) num ∧
      (apart (k * den : Nat) num = apart (roundQuotient num den * den : Nat) num →
        k = roundQuotient num den ∨ roundQuotient num den % 2 = 0) := by
  have hnum := Nat.div_add_mod num den
  have hr := Nat.mod_lt num h
  rw [Nat.mul_comm] at hnum
  -- the multiple is one of the two around the number, or beyond them
  have hk : k * den + den ≤ num / den * den ∨ k = num / den ∨ k = num / den + 1 ∨
      num / den * den + 2 * den ≤ k * den := by
    rcases Nat.lt_or_ge k (num / den) with hlt | hge
    · refine .inl ?_
      rw [← Nat.succ_mul]
      exact Nat.mul_le_mul_right den hlt
    · rcases Nat.lt_or_ge k (num / den + 2) with hlt | hge'
      · omega
      · refine .inr (.inr (.inr ?_))
        rw [← Nat.add_mul]
        exact Nat.mul_le_mul_right den hge'
  have hsucc : (num / den + 1) * den = num / den * den + den := Nat.succ_mul _ _
  unfold roundQuotient apart
  simp only [Bool.or_eq_true, Bool.and_eq_true, decide_eq_true_eq, beq_iff_eq]
  split
  · rw [hsucc]
    rcases hk with hk | rfl | rfl | hk
    · omega
    · omega
    · rw [hsucc]
      omega
    · omega
  · rcases hk with hk | rfl | rfl | hk
    · omega
    · omega
    · rw [hsucc]
      omega
    · omega

namespace Double

variable {x y : Double}

/-! ## the nearest word -/

theorem wordUnits_dvd {s m : Nat} (hm : s * pow2 52 + pow2 52 ≤ m) :
    ∃ k, wordUnits m = k * pow2 s := by
  have hp := pow2_pos 52
  rcases word_cases m with h | ⟨s', q, hl, hu, rfl⟩
  · omega
  · have hs : s ≤ s' := by
      have h53 : pow2 53 = 2 * pow2 52 := rfl
      by_contra hlt
      have := Nat.mul_le_mul_right (pow2 52) (Nat.lt_of_not_le hlt)
      rw [Nat.succ_mul] at this
      omega
    refine ⟨q * pow2 (s' - s), ?_⟩
    rw [wordUnits_significand s' q hl (Nat.le_of_lt hu), Nat.mul_assoc, ← pow2_add,
      Nat.sub_add_cancel hs]

/-- **The word of an integer is the nearest one.** -/
theorem nearestWord_nearest {a : Nat} (h0 : 0 < a) (h : a ≤ pow2 63) (m : Nat) :
    apart (wordUnits (nearestWord (a * one) 1)) (a * one : Nat)
        ≤ apart (wordUnits m) (a * one : Nat) ∧
      (apart (wordUnits m) (a * one : Nat)
          = apart (wordUnits (nearestWord (a * one) 1)) (a * one : Nat) →
        wordUnits m = wordUnits (nearestWord (a * one) 1) ∨ nearestWord (a * one) 1 % 2 = 0) := by
  obtain ⟨q, hl, hu, hq, hw⟩ := nearestWord_integer h0 h
  have hlow : pow2 52 * pow2 (a.log2 + 1022) ≤ a * one := by
    rw [← pow2_add, show 52 + (a.log2 + 1022) = a.log2 + 1074 by omega, pow2_add]
    exact Nat.mul_le_mul_right _ (Nat.log2_self_le (Nat.pos_iff_ne_zero.mp h0))
  rw [hw, wordUnits_significand _ q hl hu]
  have hround := fun k => roundQuotient_nearest (a * one) k (pow2_pos (a.log2 + 1022))
  rw [← hq] at hround
  clear hq hw
  generalize a.log2 + 1022 = s at *
  generalize a * one = u at *
  rcases Nat.lt_or_ge m (s * pow2 52 + pow2 52) with hm | hm
  · -- below the binade: the first multiple is nearer
    have hlt := wordUnits_strictMono hm
    rw [wordUnits_significand s (pow2 52) (Nat.le_refl _) (by decide)] at hlt
    have hfirst := (hround (pow2 52)).1
    unfold apart at hfirst ⊢
    omega
  · obtain ⟨k, hk⟩ := wordUnits_dvd hm
    rw [hk]
    refine ⟨(hround k).1, fun e => ?_⟩
    rcases (hround k).2 e with rfl | heven
    · exact .inl rfl
    · have h52 : pow2 52 = 2 * pow2 51 := rfl
      refine .inr ?_
      rw [h52, Nat.mul_left_comm]
      omega

/-! ## the nearest float -/

def rational (x : Double) : ℚ := x.units / one

/-- No finite float is nearer to the integer, and only one with an even fraction has another one at
the same distance. -/
structure NearestTo (n : Int) (x : Double) : Prop where
  finite : x.isFinite = true
  closest : ∀ y : Double, y.isFinite = true → |x.rational - n| ≤ |y.rational - n|
  even : ∀ y : Double, y.isFinite = true → |y.rational - n| = |x.rational - n| →
    y.rational = x.rational ∨ x.fraction % 2 = 0

theorem one_ne_zero : (one : ℚ) ≠ 0 := Nat.cast_ne_zero.mpr (Nat.pos_iff_ne_zero.mp one_pos)

theorem rational_lt : x.rational < y.rational ↔ x.units < y.units := by
  have h1 : (0 : ℚ) < one := Nat.cast_pos.mpr one_pos
  unfold rational
  rw [div_lt_div_iff_of_pos_right h1, Int.cast_lt]

theorem rational_inj : x.rational = y.rational ↔ x.units = y.units := by
  unfold rational
  rw [div_left_inj' one_ne_zero, Int.cast_inj]

theorem abs_rational_sub (x : Double) (n : Int) :
    |x.rational - n| = (apart x.units (n * one) : ℚ) / one := by
  have h1 : (0 : ℚ) < one := Nat.cast_pos.mpr one_pos
  have e : x.rational - n = ((x.units - n * one : Int) : ℚ) / one := by
    unfold rational
    rw [Int.cast_sub, Int.cast_mul, Int.cast_natCast, sub_div, mul_div_cancel_right₀ _ (ne_of_gt h1)]
  rw [e, abs_div, abs_of_pos h1]
  unfold apart
  rw [Nat.cast_natAbs, Int.cast_abs]

theorem abs_rational_le (n : Int) : |x.rational - n| ≤ |y.rational - n| ↔
    apart x.units (n * one) ≤ apart y.units (n * one) := by
  have h1 : (0 : ℚ) < one := Nat.cast_pos.mpr one_pos
  rw [abs_rational_sub, abs_rational_sub, div_le_div_iff_of_pos_right h1, Nat.cast_le]

theorem abs_rational_inj (n : Int) : |x.rational - n| = |y.rational - n| ↔
    apart x.units (n * one) = apart y.units (n * one) := by
  rw [abs_rational_sub, abs_rational_sub, div_left_inj' one_ne_zero, Nat.cast_inj]

theorem nearestTo_units {n : Int} : NearestTo n x ↔ x.isFinite = true ∧
    ∀ y : Double, y.isFinite = true → apart x.units (n * one) ≤ apart y.units (n * one) ∧
      (apart y.units (n * one) = apart x.units (n * one) →
        y.units = x.units ∨ x.fraction % 2 = 0) := by
  constructor
  · intro h
    refine ⟨h.finite, fun y hy => ⟨(abs_rational_le n).mp (h.closest y hy), fun e => ?_⟩⟩
    exact (h.even y hy ((abs_rational_inj n).mpr e)).imp_left rational_inj.mp
  · rintro ⟨hf, h⟩
    refine ⟨hf, fun y hy => (abs_rational_le n).mpr (h y hy).1, fun y hy e => ?_⟩
    exact ((h y hy).2 ((abs_rational_inj n).mp e)).imp_left rational_inj.mpr

theorem isFinite_iff : x.isFinite = true ↔ x.magnitude < infinityWord := by
  have hm : x.magnitude < pow2 63 := Nat.mod_lt _ (pow2_pos 63)
  have h63 : pow2 63 = 2048 * pow2 52 := rfl
  unfold isFinite field infinityWord
  rw [bne_iff_ne, ne_eq, ← Nat.div_lt_iff_lt_mul (pow2_pos 52)]
  have : x.magnitude / pow2 52 < 2048 := (Nat.div_lt_iff_lt_mul (pow2_pos 52)).mpr (h63 ▸ hm)
  omega

theorem fraction_mod_two (x : Double) : x.fraction % 2 = x.magnitude % 2 :=
  Nat.mod_mod_of_dvd _ ⟨pow2 51, rfl⟩

theorem units_eq (x : Double) :
    x.units = if x.negative then -(wordUnits x.magnitude : Int) else wordUnits x.magnitude := by
  rw [units, absUnits_eq]

theorem wordUnits_zero : wordUnits 0 = 0 := rfl

/-- A word that is nearest among the words, with the sign of the number, is nearest among the floats:
a float on the other side of zero is no nearer than zero is. -/
theorem nearest_of_sign {u : Nat} (hnear : ∀ m, apart (wordUnits x.magnitude) u
      ≤ apart (wordUnits m) u ∧ (apart (wordUnits m) u = apart (wordUnits x.magnitude) u →
        wordUnits m = wordUnits x.magnitude ∨ x.magnitude % 2 = 0))
    {i : Int} (hi : i = if x.negative then -(u : Int) else u) (y : Double) :
    apart x.units i ≤ apart y.units i ∧
      (apart y.units i = apart x.units i → y.units = x.units ∨ x.fraction % 2 = 0) := by
  have hown := hnear y.magnitude
  have hzero := hnear 0
  rw [wordUnits_zero] at hzero
  rw [fraction_mod_two, units_eq, units_eq, hi]
  unfold apart at hown hzero ⊢
  cases x.negative <;> cases y.negative <;> simp only [Bool.false_eq_true, if_true, if_false] <;>
    omega

theorem mul_one_of_sign (n : Int) : n * one
    = if decide (n < 0) then -((n.natAbs * one : Nat) : Int) else (n.natAbs * one : Nat) := by
  generalize one = u
  by_cases hn : n < 0
  · rw [decide_eq_true hn, if_pos rfl, Int.natCast_mul, Int.ofNat_natAbs_of_nonpos (Int.le_of_lt hn),
      Int.neg_mul, Int.neg_neg]
  · rw [decide_eq_false hn, if_neg Bool.false_ne_true, Int.natCast_mul,
      Int.natAbs_of_nonneg (Int.not_lt.mp hn)]

/-- **Rounding gives the nearest float.** -/
theorem nearestTo_ofInt {n : Int} (h : n.natAbs ≤ pow2 63) : NearestTo n (ofInt n) := by
  rw [nearestTo_units]
  by_cases hn : n = 0
  · subst hn
    have hfin : (ofInt 0).isFinite = true := by decide +kernel
    have hunits : (ofInt 0).units = 0 := by decide +kernel
    have heven : (ofInt 0).fraction % 2 = 0 := by decide +kernel
    refine ⟨hfin, fun y _ => ⟨?_, fun _ => .inr heven⟩⟩
    rw [hunits, Int.zero_mul]
    exact Nat.zero_le _
  · have h0 : 0 < n.natAbs := Int.natAbs_pos.mpr hn
    have hinf := nearestWord_integer_lt h0 h
    have h63 : nearestWord (n.natAbs * one) 1 < pow2 63 := Nat.lt_trans hinf (by decide)
    have hneg : (ofInt n).negative = decide (n < 0) := negative_ofMagnitude _ h63
    have hmag : (ofInt n).magnitude = nearestWord (n.natAbs * one) 1 := magnitude_ofMagnitude _ h63
    refine ⟨isFinite_iff.mpr (by rw [hmag]; exact hinf), fun y _ => ?_⟩
    refine nearest_of_sign (u := n.natAbs * one) ?_ ?_ y
    · rw [hmag]
      exact nearestWord_nearest h0 h
    · rw [hneg]
      exact mul_one_of_sign n

/-! ## there is one nearest float -/

theorem units_of_nonneg (h : 0 ≤ x.units) : x.units = wordUnits x.magnitude := by
  rw [units_eq] at h ⊢
  split
  · rename_i hneg
    rw [if_pos hneg] at h
    omega
  · rfl

theorem units_of_nonpos (h : x.units ≤ 0) : x.units = -(wordUnits x.magnitude : Int) := by
  rw [units_eq] at h ⊢
  split
  · rfl
  · rename_i hneg
    rw [if_neg hneg] at h
    omega

theorem units_ofMagnitude (b : Bool) {m : Nat} (hm : m < infinityWord) :
    (ofMagnitude b m).isFinite = true ∧
      (ofMagnitude b m).units = if b then -(wordUnits m : Int) else wordUnits m := by
  have h63 : m < pow2 63 := Nat.lt_trans hm (by decide)
  have hmag := magnitude_ofMagnitude b h63
  refine ⟨isFinite_iff.mpr (by rw [hmag]; exact hm), ?_⟩
  rw [units_eq, hmag, negative_ofMagnitude b h63]

/-- Between two finite floats with even fractions there is another one. -/
theorem exists_between (hx : x.isFinite = true) (hy : y.isFinite = true)
    (hxe : x.fraction % 2 = 0) (hye : y.fraction % 2 = 0) (hlt : x.units < y.units) :
    ∃ z : Double, z.isFinite = true ∧ x.units < z.units ∧ z.units < y.units := by
  rw [isFinite_iff] at hx hy
  rw [fraction_mod_two] at hxe hye
  have hmono := wordUnits_strictMono
  rcases Int.lt_or_le x.units 0 with hneg | hpos
  · rcases Int.lt_or_le 0 y.units with hpos' | hneg'
    · obtain ⟨hf, hu⟩ := units_ofMagnitude false (m := 0) (by decide)
      refine ⟨_, hf, ?_, ?_⟩ <;> rw [hu, if_neg Bool.false_ne_true, wordUnits_zero] <;> omega
    · -- both are below: the word after that of the larger one
      have ex := units_of_nonpos (Int.le_of_lt hneg)
      have ey := units_of_nonpos hneg'
      have hm : y.magnitude < x.magnitude := hmono.lt_iff_lt.mp (by omega)
      have h1 : wordUnits y.magnitude < wordUnits (y.magnitude + 1) := hmono (Nat.lt_succ_self _)
      have h2 : wordUnits (y.magnitude + 1) < wordUnits x.magnitude := hmono (by omega)
      obtain ⟨hf, hu⟩ := units_ofMagnitude true (m := y.magnitude + 1) (by omega)
      refine ⟨_, hf, ?_, ?_⟩ <;> rw [hu, if_pos rfl] <;> omega
  · have ex := units_of_nonneg hpos
    have ey := units_of_nonneg (by omega : 0 ≤ y.units)
    have hm : x.magnitude < y.magnitude := hmono.lt_iff_lt.mp (by omega)
    have h1 : wordUnits x.magnitude < wordUnits (x.magnitude + 1) := hmono (Nat.lt_succ_self _)
    have h2 : wordUnits (x.magnitude + 1) < wordUnits y.magnitude := hmono (by omega)
    obtain ⟨hf, hu⟩ := units_ofMagnitude false (m := x.magnitude + 1) (by omega)
    refine ⟨_, hf, ?_, ?_⟩ <;> rw [hu, if_neg Bool.false_ne_true] <;> omega

/-- Two nearest floats are not apart: with even fractions, one between them would be nearer. -/
theorem NearestTo.not_lt {n : Int} (hx : NearestTo n x) (hy : NearestTo n y) :
    ¬ x.units < y.units := by
  rw [nearestTo_units] at hx hy
  intro hlt
  obtain ⟨hfx, hx⟩ := hx
  obtain ⟨hfy, hy⟩ := hy
  have he : apart x.units (n * one) = apart y.units (n * one) :=
    Nat.le_antisymm (hx y hfy).1 (hy x hfx).1
  have hxe : x.fraction % 2 = 0 := ((hx y hfy).2 he.symm).resolve_left (by omega)
  have hye : y.fraction % 2 = 0 := ((hy x hfx).2 he).resolve_left (by omega)
  obtain ⟨z, hz, h1, h2⟩ := exists_between hfx hfy hxe hye hlt
  have hnear := (hx z hz).1
  clear hx hy
  generalize n * one = i at *
  unfold apart at *
  omega

theorem NearestTo.unique {n : Int} (hx : NearestTo n x) (hy : NearestTo n y) : x.units = y.units :=
  Int.le_antisymm (Int.not_lt.mp (hy.not_lt hx)) (Int.not_lt.mp (hx.not_lt hy))

/-- Finite floats of the same value are nearest to the same integers. -/
theorem NearestTo.of_units {n : Int} (hx : NearestTo n x) (hy : y.isFinite = true)
    (he : y.units = x.units) : NearestTo n y := by
  have hmag : y.magnitude = x.magnitude := by
    apply wordUnits_strictMono.injective
    rcases Int.le_total 0 x.units with h | h
    · have ex := units_of_nonneg h
      have ey := units_of_nonneg (x := y) (by omega)
      omega
    · have ex := units_of_nonpos h
      have ey := units_of_nonpos (x := y) (by omega)
      omega
  rw [nearestTo_units] at hx ⊢
  refine ⟨hy, fun z hz => ?_⟩
  rw [he, fraction_mod_two, hmag, ← fraction_mod_two]
  exact hx.2 z hz

/-- **The nearest floats are those that rounding gives.** -/
theorem nearestTo_iff {n : Int} (h : n.natAbs ≤ pow2 63) :
    NearestTo n x ↔ x.isFinite = true ∧ x.units = (ofInt n).units :=
  ⟨fun hx => ⟨hx.finite, hx.unique (nearestTo_ofInt h)⟩,
    fun hx => (nearestTo_ofInt h).of_units hx.1 hx.2⟩

end Double

end LuaMachine
