import Mathlib.Algebra.Order.Monoid.WithTop
import Mathlib.Tactic.Linarith
import LuaMachine.Operation.Compare
import LuaMachine.Proofs.MergeSort
import LuaMachine.Proofs.Rounding

/-!
# How numbers compare

Two integers are compared by value, and so are two floats.  An integer and a float are compared
after the integer has been rounded to the nearest float, and this blurs the order: an integer
becomes equal to a float of another value.

* `Value.extended?`  the value of a number: a rational, or an infinity;
* `Value.Blurred`    an integer and its nearest float, if their values differ;
* `order?_exact`     numbers compare by value, but blurred ones as equal;
* `numbers_compare_blurred`   what this means for equality, less and at most, and when the numbers
                     of a list are in a strict weak order.

Only integers of more than 53 bits are blurred.
-/

namespace LuaMachine

abbrev Extended : Type := WithBot (WithTop ℚ)

/-! ## the value of a number -/

namespace Double

variable {x y : Double}

def exact (x : Double) : Extended :=
  if x.isFinite then ((x.rational : WithTop ℚ) : Extended) else if x.negative then ⊥ else ⊤

theorem natAbs_units_lt (h : x.isFinite = true) : x.units.natAbs < wordUnits infinityWord := by
  have hlt := wordUnits_strictMono (isFinite_iff.mp h)
  rw [units_eq]
  split <;> omega

/-- A float is finite, and its word is before that of infinity, or it is an infinity. -/
theorem exact_cases (h : x.isNaN = false) :
    (x.isFinite = true ∧ x.exact = ((x.rational : WithTop ℚ) : Extended) ∧
      x.units.natAbs < wordUnits infinityWord) ∨
    (x.exact = ⊤ ∧ x.units = wordUnits infinityWord) ∨
    (x.exact = ⊥ ∧ x.units = -(wordUnits infinityWord : Int)) := by
  by_cases hf : x.isFinite = true
  · exact .inl ⟨hf, if_pos hf, natAbs_units_lt hf⟩
  · have hfield : x.field = 2047 := by simpa [isFinite] using hf
    have hfraction : x.fraction = 0 := by simpa [isNaN, hfield] using h
    have hm : x.magnitude = infinityWord := by
      have := Nat.div_add_mod x.magnitude (pow2 52)
      rw [show x.magnitude / pow2 52 = 2047 from hfield,
        show x.magnitude % pow2 52 = 0 from hfraction] at this
      rw [← this, Nat.mul_comm]
      rfl
    rw [units_eq, hm]
    unfold exact
    rw [if_neg hf]
    cases x.negative
    · exact .inr (.inl ⟨rfl, rfl⟩)
    · exact .inr (.inr ⟨rfl, rfl⟩)

/-- **Floats are in the order of their units.** -/
theorem exact_lt (hx : x.isNaN = false) (hy : y.isNaN = false) :
    x.exact < y.exact ↔ x.units < y.units := by
  have hW : 0 < wordUnits infinityWord := wordUnits_strictMono (show 0 < infinityWord by decide)
  rcases exact_cases hx with ⟨_, ex, hx⟩ | ⟨ex, hx⟩ | ⟨ex, hx⟩ <;>
    rcases exact_cases hy with ⟨_, ey, hy⟩ | ⟨ey, hy⟩ | ⟨ey, hy⟩ <;> rw [ex, ey]
  · rw [WithBot.coe_lt_coe, WithTop.coe_lt_coe, rational_lt]
  · refine iff_of_true (WithBot.coe_lt_coe.mpr (WithTop.coe_lt_top _)) ?_
    omega
  · simp only [not_lt_bot, false_iff]
    omega
  · simp only [not_top_lt, false_iff]
    omega
  · simp only [lt_self_iff_false, false_iff]
    omega
  · simp only [not_lt_bot, false_iff]
    omega
  · simp only [WithBot.bot_lt_coe, true_iff]
    omega
  · simp only [bot_lt_top, true_iff]
    omega
  · simp only [lt_self_iff_false, false_iff]
    omega

theorem exact_inj (hx : x.isNaN = false) (hy : y.isNaN = false) :
    x.exact = y.exact ↔ x.units = y.units := by
  constructor
  · intro e
    have h1 := (exact_lt hx hy).not.mp (by rw [e]; exact lt_irrefl _)
    have h2 := (exact_lt hy hx).not.mp (by rw [e]; exact lt_irrefl _)
    omega
  · intro e
    refine le_antisymm (not_lt.mp ?_) (not_lt.mp ?_)
    · exact (exact_lt hy hx).not.mpr (by omega)
    · exact (exact_lt hx hy).not.mpr (by omega)

theorem isNaN_of_isFinite (h : x.isFinite = true) : x.isNaN = false := by
  have hfield : x.field ≠ 2047 := by simpa [isFinite] using h
  simp [isNaN, hfield]

theorem order_eq (hx : x.isNaN = false) (hy : y.isNaN = false) :
    x.order y = .ordered (compare x.units y.units) := by
  have hlt : x.lt y = decide (x.units < y.units) := by simp [lt, hx, hy]
  have hgt : y.lt x = decide (y.units < x.units) := by simp [lt, hx, hy]
  have heq : x.eq y = (x.units == y.units) := by simp [eq, hx, hy]
  unfold order
  rw [hlt, hgt, heq]
  rcases lt_trichotomy x.units y.units with h | h | h
  · rw [if_pos (decide_eq_true h), compare_lt_iff_lt.mpr h]
  · rw [if_neg (by simp [h]), if_neg (by simp [h]), if_pos (by simp [h]), compare_eq_iff_eq.mpr h]
  · rw [if_neg (by simp [h.le]), if_pos (decide_eq_true h), compare_gt_iff_gt.mpr h]

/-! ## an integer and a float -/

theorem natAbs_le (n : Int64) : n.toInt.natAbs ≤ pow2 63 := by
  have h1 := n.le_toInt
  have h2 := n.toInt_lt
  have h63 : pow2 63 = 2 ^ 63 := rfl
  omega

theorem isNaN_ofInt (n : Int64) : (ofInt n.toInt).isNaN = false :=
  isNaN_of_isFinite (nearestTo_ofInt (natAbs_le n)).finite

def ofInteger (n : Int64) : Extended := (((n.toInt : ℚ) : WithTop ℚ) : Extended)

theorem ofInteger_lt {m n : Int64} : ofInteger m < ofInteger n ↔ m.toInt < n.toInt := by
  unfold ofInteger
  rw [WithBot.coe_lt_coe, WithTop.coe_lt_coe, Int.cast_lt]

theorem ofInteger_inj {m n : Int64} : ofInteger m = ofInteger n ↔ m.toInt = n.toInt := by
  unfold ofInteger
  rw [WithBot.coe_inj, WithTop.coe_inj, Int.cast_inj]

/-- A float after the one that an integer is rounded to is after the integer. -/
theorem ofInteger_lt_exact {n : Int64} (hx : x.isNaN = false)
    (h : (ofInt n.toInt).units < x.units) : ofInteger n < x.exact := by
  have hnear := nearestTo_ofInt (natAbs_le n)
  rcases exact_cases hx with ⟨hf, e, _⟩ | ⟨e, _⟩ | ⟨_, hu⟩
  · have hle := hnear.closest x hf
    have hlt := rational_lt.mpr h
    rw [e, ofInteger, WithBot.coe_lt_coe, WithTop.coe_lt_coe]
    by_contra hge
    -- both floats would be below the integer, and the one that is further down nearer
    rw [not_lt] at hge
    rw [abs_of_nonpos (by linarith), abs_of_nonpos (by linarith)] at hle
    linarith
  · rw [e]
    exact WithBot.coe_lt_coe.mpr (WithTop.coe_lt_top _)
  · have := natAbs_units_lt hnear.finite
    omega

theorem exact_lt_ofInteger {n : Int64} (hx : x.isNaN = false)
    (h : x.units < (ofInt n.toInt).units) : x.exact < ofInteger n := by
  have hnear := nearestTo_ofInt (natAbs_le n)
  rcases exact_cases hx with ⟨hf, e, _⟩ | ⟨_, hu⟩ | ⟨e, _⟩
  · have hle := hnear.closest x hf
    have hlt := rational_lt.mpr h
    rw [e, ofInteger, WithBot.coe_lt_coe, WithTop.coe_lt_coe]
    by_contra hge
    rw [not_lt] at hge
    rw [abs_of_nonneg (by linarith), abs_of_nonneg (by linarith)] at hle
    linarith
  · have := natAbs_units_lt hnear.finite
    omega
  · rw [e]
    exact WithBot.bot_lt_coe _

/-- A number that is equal to the rounded integer is the nearest float. -/
theorem nearestTo_iff_units {n : Int64} (hx : x.isNaN = false) :
    NearestTo n.toInt x ↔ x.units = (ofInt n.toInt).units := by
  have hnear := nearestTo_ofInt (natAbs_le n)
  rw [nearestTo_iff (natAbs_le n), and_iff_right_iff_imp]
  intro e
  have hlt := natAbs_units_lt hnear.finite
  rcases exact_cases hx with ⟨hf, _⟩ | ⟨_, hu⟩ | ⟨_, hu⟩
  · exact hf
  · omega
  · omega

theorem units_ofInt_le {m n : Int64} (h : m.toInt ≤ n.toInt) :
    (ofInt m.toInt).units ≤ (ofInt n.toInt).units := by
  by_contra hlt
  have hm := nearestTo_units.mp (nearestTo_ofInt (natAbs_le m))
  have hn := nearestTo_units.mp (nearestTo_ofInt (natAbs_le n))
  -- the integer that is further up would be nearer to the float that is further down
  have h1 := (hm.2 _ hn.1).1
  have h2 := (hn.2 _ hm.1).1
  have hle : m.toInt * one ≤ n.toInt * one := Int.mul_le_mul_of_nonneg_right h (Int.natCast_nonneg _)
  rcases eq_or_lt_of_le h with e | hlt'
  · rw [e] at hlt
    exact hlt (le_refl _)
  · have hlt'' : m.toInt * one < n.toInt * one :=
      Int.mul_lt_mul_of_pos_right hlt' (Int.natCast_pos.mpr one_pos)
    clear hm hn
    generalize m.toInt * one = i at *
    generalize n.toInt * one = j at *
    unfold apart at h1 h2
    omega

theorem units_ofInt {n : Int} (h : n.natAbs ≤ pow2 53) : (ofInt n).units = n * one := by
  by_cases hn : n = 0
  · subst hn
    decide +kernel
  · have h0 : 0 < n.natAbs := Int.natAbs_pos.mpr hn
    have hle : n.natAbs ≤ pow2 63 := Nat.le_trans h (by decide)
    have h63 : nearestWord (n.natAbs * one) 1 < pow2 63 :=
      Nat.lt_trans (nearestWord_integer_lt h0 hle) (by decide)
    obtain ⟨q, hl, hu, hq, hw⟩ := nearestWord_integer h0 hle
    have hexact : ∃ c, n.natAbs * one = c * pow2 (n.natAbs.log2 + 1022) := by
      rcases Nat.lt_or_ge n.natAbs.log2 53 with hlog | hlog
      · refine ⟨n.natAbs * pow2 (52 - n.natAbs.log2), ?_⟩
        rw [Nat.mul_assoc, ← pow2_add, show 52 - n.natAbs.log2 + (n.natAbs.log2 + 1022) = 1074 by omega]
        rfl
      · -- the one integer with 54 bits is a power of two
        have e : n.natAbs = pow2 53 :=
          Nat.le_antisymm h (Nat.le_trans (Nat.pow_le_pow_right (by decide) hlog)
            (Nat.log2_self_le (Nat.pos_iff_ne_zero.mp h0)))
        refine ⟨pow2 52, ?_⟩
        rw [e]
        decide +kernel
    obtain ⟨c, hc⟩ := hexact
    rw [hc, roundQuotient_mul _ _ (pow2_pos _)] at hq
    have hunits : wordUnits (nearestWord (n.natAbs * one) 1) = n.natAbs * one := by
      rw [hw, wordUnits_significand _ q hl hu, hq, ← hc]
    have hmag : (ofInt n).magnitude = nearestWord (n.natAbs * one) 1 := magnitude_ofMagnitude _ h63
    have hneg : (ofInt n).negative = decide (n < 0) := negative_ofMagnitude _ h63
    rw [units_eq, hmag, hneg, hunits]
    exact (mul_one_of_sign n).symm

end Double

/-! ## values -/

namespace Value

open Double

variable {a b : Value} {p q : Extended}

/-- The value of a number; a NaN is none. -/
def extended? : Value → Option Extended
  | .integer n => some (ofInteger n)
  | .float x => if x.isNaN then none else some x.exact
  | _ => none

/-- An integer and its nearest float, if their values differ. -/
def Blurred (a b : Value) : Prop :=
  ∃ (n : Int64) (x : Double), (a = .integer n ∧ b = .float x ∨ a = .float x ∧ b = .integer n) ∧
    NearestTo n.toInt x ∧ x.rational ≠ n.toInt

theorem extended?_cases (h : a.extended? = some p) :
    (∃ n, a = .integer n ∧ p = ofInteger n) ∨
      ∃ x : Double, a = .float x ∧ x.isNaN = false ∧ p = x.exact := by
  cases a with
  | integer n => exact .inl ⟨n, rfl, (Option.some.inj h).symm⟩
  | float x =>
    change (if x.isNaN then none else some x.exact) = some p at h
    split at h
    · cases h
    · rename_i hx
      exact .inr ⟨x, rfl, Bool.eq_false_iff.mpr hx, (Option.some.inj h).symm⟩
  | _ => cases h

theorem not_blurred_integers {m n : Int64} : ¬ Blurred (.integer m) (.integer n) := by
  rintro ⟨_, _, ⟨_, e⟩ | ⟨e, _⟩, _⟩ <;> cases e

theorem not_blurred_floats {x y : Double} : ¬ Blurred (.float x) (.float y) := by
  rintro ⟨_, _, ⟨e, _⟩ | ⟨_, e⟩, _⟩ <;> cases e

theorem Blurred.symm (h : Blurred a b) : Blurred b a := by
  obtain ⟨n, x, h, hx⟩ := h
  exact ⟨n, x, h.symm.imp And.symm And.symm, hx⟩

/-- An integer and a float that it is rounded to have the same value, or are blurred. -/
theorem blurred_of_units {n : Int64} {x : Double} (hx : x.isNaN = false) :
    x.units = (ofInt n.toInt).units ↔ ofInteger n = x.exact ∨ Blurred (.integer n) (.float x) := by
  rw [← nearestTo_iff_units hx]
  constructor
  · intro hnear
    by_cases e : x.rational = n.toInt
    · refine .inl ?_
      rw [exact, if_pos hnear.finite, e]
      rfl
    · exact .inr ⟨n, x, .inl ⟨rfl, rfl⟩, hnear, e⟩
  · rintro (e | ⟨m, y, ⟨em, ey⟩ | ⟨em, _⟩, hnear, _⟩)
    · -- the value of a float is at least as near to itself as the nearest one
      rw [nearestTo_iff_units hx]
      rcases lt_trichotomy x.units (ofInt n.toInt).units with h | h | h
      · exact absurd e (exact_lt_ofInteger hx h).ne'
      · exact h
      · exact absurd e (ofInteger_lt_exact hx h).ne
    · cases em
      cases ey
      exact hnear
    · cases em

/-- An integer against a float: their values decide, unless the two are blurred. -/
theorem compare_ofInteger {n : Int64} {x : Double} (hx : x.isNaN = false) :
    (compare (ofInt n.toInt).units x.units = .lt ↔
      ofInteger n < x.exact ∧ ¬ Blurred (.integer n) (.float x)) ∧
    (compare (ofInt n.toInt).units x.units = .eq ↔
      ofInteger n = x.exact ∨ Blurred (.integer n) (.float x)) ∧
    (compare (ofInt n.toInt).units x.units = .gt ↔
      x.exact < ofInteger n ∧ ¬ Blurred (.integer n) (.float x)) := by
  have heq := blurred_of_units (n := n) hx
  rw [compare_lt_iff_lt, compare_eq_iff_eq, compare_gt_iff_gt]
  rcases lt_trichotomy (ofInt n.toInt).units x.units with h | h | h
  · have hlt := ofInteger_lt_exact hx h
    have hne : ¬ (ofInteger n = x.exact ∨ Blurred (.integer n) (.float x)) :=
      heq.not.mp (by omega)
    rw [not_or] at hne
    refine ⟨iff_of_true h ⟨hlt, hne.2⟩, iff_of_false (by omega) (not_or.mpr hne), ?_⟩
    exact iff_of_false (by omega) fun hc => lt_asymm hlt hc.1
  · have hor := heq.mp h.symm
    refine ⟨iff_of_false (by omega) ?_, iff_of_true h hor, iff_of_false (by omega) ?_⟩
    · rintro ⟨hlt, hb⟩
      exact hlt.ne (hor.resolve_right hb)
    · rintro ⟨hlt, hb⟩
      exact hlt.ne' (hor.resolve_right hb)
  · have hlt := exact_lt_ofInteger hx h
    have hne : ¬ (ofInteger n = x.exact ∨ Blurred (.integer n) (.float x)) :=
      heq.not.mp (by omega)
    rw [not_or] at hne
    refine ⟨iff_of_false (by omega) fun hc => lt_asymm hlt hc.1, ?_, iff_of_true h ⟨hlt, hne.2⟩⟩
    exact iff_of_false (by omega) (not_or.mpr hne)

/-- **Numbers compare by value, blurred ones as equal.** -/
theorem order?_exact (ha : a.extended? = some p) (hb : b.extended? = some q) :
    ∃ o, a.order? b = some (.ordered o) ∧ (a.rawEq b = true ↔ o = .eq) ∧
      (o = .lt ↔ p < q ∧ ¬ Blurred a b) ∧ (o = .eq ↔ p = q ∨ Blurred a b) := by
  rcases extended?_cases ha with ⟨m, rfl, rfl⟩ | ⟨x, rfl, hx, rfl⟩ <;>
    rcases extended?_cases hb with ⟨n, rfl, rfl⟩ | ⟨y, rfl, hy, rfl⟩
  · refine ⟨compare m.toInt n.toInt, rfl, ?_, ?_, ?_⟩
    · show (m == n) = true ↔ _
      rw [beq_iff_eq, compare_eq_iff_eq, Int64.toInt_inj]
    · rw [compare_lt_iff_lt, ofInteger_lt]
      exact (and_iff_left not_blurred_integers).symm
    · rw [compare_eq_iff_eq, ofInteger_inj]
      exact (or_iff_left not_blurred_integers).symm
  · obtain ⟨hlt, heq, _⟩ := compare_ofInteger (n := m) hy
    refine ⟨_, congrArg some (order_eq (isNaN_ofInt m) hy), ?_, hlt, heq⟩
    show (ofInt m.toInt).eq y = true ↔ _
    rw [compare_eq_iff_eq]
    simp [Double.eq, isNaN_ofInt m, hy]
  · obtain ⟨_, heq, hgt⟩ := compare_ofInteger (n := n) hx
    have hsym : Blurred (.integer n) (.float x) ↔ Blurred (.float x) (.integer n) :=
      ⟨Blurred.symm, Blurred.symm⟩
    refine ⟨_, congrArg some (order_eq hx (isNaN_ofInt n)), ?_, ?_, ?_⟩
    · show x.eq (ofInt n.toInt) = true ↔ _
      rw [compare_eq_iff_eq]
      simp [Double.eq, isNaN_ofInt n, hx]
    · rw [← hsym, ← hgt, compare_lt_iff_lt, compare_gt_iff_gt]
    · rw [← hsym, eq_comm (a := x.exact), ← heq, compare_eq_iff_eq, compare_eq_iff_eq, eq_comm]
  · refine ⟨_, congrArg some (order_eq hx hy), ?_, ?_, ?_⟩
    · show x.eq y = true ↔ _
      rw [compare_eq_iff_eq]
      simp [Double.eq, hx, hy]
    · rw [compare_lt_iff_lt, exact_lt hx hy]
      exact (and_iff_left not_blurred_floats).symm
    · rw [compare_eq_iff_eq, exact_inj hx hy]
      exact (or_iff_left not_blurred_floats).symm

/-! ## numbers in a list -/

def Less (a b : Value) : Prop := Action.less a b = .done true

theorem less_of_order? {o : Ordering} (h : a.order? b = some (.ordered o)) :
    Action.less a b = .done (PrimitiveOrder.ordered o).isLess ∧
      Action.lessEqual a b = .done (PrimitiveOrder.ordered o).isLessEqual := by
  unfold Action.less Action.lessEqual
  rw [h]
  exact ⟨rfl, rfl⟩

/-- The value of a number after it has been rounded, in units. -/
def level : Value → Int
  | .integer n => (ofInt n.toInt).units
  | .float x => x.units
  | _ => 0

/-- A number is less if it is so after rounding, and an integer also if it is a smaller integer. -/
theorem less_iff_level (ha : a.extended? ≠ none) (hb : b.extended? ≠ none) : Less a b ↔
    a.level < b.level ∨ ∃ m n : Int64, a = .integer m ∧ b = .integer n ∧ m.toInt < n.toInt := by
  obtain ⟨p, ha⟩ := Option.ne_none_iff_exists'.mp ha
  obtain ⟨q, hb⟩ := Option.ne_none_iff_exists'.mp hb
  have isLess : ∀ {o : Ordering}, a.order? b = some (.ordered o) → (Less a b ↔ o = .lt) := by
    intro o h
    unfold Less
    rw [(less_of_order? h).1]
    cases o <;> simp [PrimitiveOrder.isLess]
  rcases extended?_cases ha with ⟨m, rfl, rfl⟩ | ⟨x, rfl, hx, rfl⟩ <;>
    rcases extended?_cases hb with ⟨n, rfl, rfl⟩ | ⟨y, rfl, hy, rfl⟩
  · rw [isLess (o := compare m.toInt n.toInt) rfl, compare_lt_iff_lt]
    constructor
    · exact fun h => .inr ⟨m, n, rfl, rfl, h⟩
    · rintro (h | ⟨_, _, e, e', h⟩)
      · by_contra hge
        exact absurd h (not_lt.mpr (units_ofInt_le (not_lt.mp hge)))
      · cases e
        cases e'
        exact h
  · rw [isLess (congrArg some (order_eq (isNaN_ofInt m) hy)), compare_lt_iff_lt]
    simp [level]
  · rw [isLess (congrArg some (order_eq hx (isNaN_ofInt n))), compare_lt_iff_lt]
    simp [level]
  · rw [isLess (congrArg some (order_eq hx hy)), compare_lt_iff_lt]
    simp [level]

/-- **When the numbers of a list are in a strict weak order**: no two integers of the list have the
same nearest float in it. -/
theorem strictWeakOn_iff {vs : List Value} (hvs : ∀ v ∈ vs, v.extended? ≠ none) :
    StrictWeakOn Less vs ↔ ∀ (m n : Int64) (x : Double), .integer m ∈ vs → .integer n ∈ vs →
      .float x ∈ vs → NearestTo m.toInt x → NearestTo n.toInt x → m = n := by
  have level_integer : ∀ n : Int64, (Value.integer n).level = (ofInt n.toInt).units := fun _ => rfl
  have level_float : ∀ x : Double, (Value.float x).level = x.units := fun _ => rfl
  have number : ∀ {x : Double}, .float x ∈ vs → x.isNaN = false := by
    intro x hx
    have := hvs _ hx
    simpa [extended?] using this
  have less : ∀ {a b : Value}, a ∈ vs → b ∈ vs → (Less a b ↔ a.level < b.level ∨
      ∃ m n : Int64, a = .integer m ∧ b = .integer n ∧ m.toInt < n.toInt) :=
    fun ha hb => less_iff_level (hvs _ ha) (hvs _ hb)
  constructor
  · intro h m n x hm hn hx hmx hnx
    rw [nearestTo_iff_units (number hx)] at hmx hnx
    have hmid := h.incomparable _ hm _ hx _ hn
    rw [less hm hx, less hx hm, less hx hn, less hn hx, less hm hn, less hn hm] at hmid
    simp only [level_integer, level_float, ← hmx, ← hnx, lt_self_iff_false, false_or] at hmid
    obtain ⟨h1, h2⟩ := hmid (by simp) (by simp) (by simp) (by simp)
    apply Int64.toInt_inj.mp
    by_contra hne
    rcases lt_or_gt_of_ne hne with hlt | hlt
    · exact h1 ⟨m, n, rfl, rfl, hlt⟩
    · exact h2 ⟨n, m, rfl, rfl, hlt⟩
  · intro h
    -- what is not related is at the same level, and two integers there are one
    have same : ∀ {a b : Value}, a ∈ vs → b ∈ vs → ¬ Less a b → ¬ Less b a →
        a.level = b.level ∧ ∀ m n, a = .integer m → b = .integer n → m = n := by
      intro a b ha hb hab hba
      rw [less ha hb, not_or] at hab
      rw [less hb ha, not_or] at hba
      refine ⟨le_antisymm (not_lt.mp hba.1) (not_lt.mp hab.1), fun m n e e' => ?_⟩
      apply Int64.toInt_inj.mp
      by_contra hne
      rcases lt_or_gt_of_ne hne with hlt | hlt
      · exact hab.2 ⟨m, n, e, e', hlt⟩
      · exact hba.2 ⟨n, m, e', e, hlt⟩
    refine ⟨fun a ha => ?_, fun a ha b hb c hc hab hbc => ?_, fun a ha b hb c hc h1 h2 h3 h4 => ?_⟩
    · rw [less ha ha]
      rintro (hlt | ⟨m, n, e, e', hlt⟩)
      · exact lt_irrefl _ hlt
      · rw [e] at e'
        cases e'
        exact lt_irrefl _ hlt
    · rw [less ha hb] at hab
      rw [less hb hc] at hbc
      rw [less ha hc]
      rcases hab with hab | ⟨m, n, rfl, rfl, hab⟩
      · rcases hbc with hbc | ⟨n, k, rfl, rfl, hbc⟩
        · exact .inl (lt_trans hab hbc)
        · exact .inl (lt_of_lt_of_le hab (units_ofInt_le (le_of_lt hbc)))
      · rcases hbc with hbc | ⟨n, k, e, rfl, hbc⟩
        · exact .inl (lt_of_le_of_lt (units_ofInt_le (le_of_lt hab)) hbc)
        · cases e
          exact .inr ⟨m, k, rfl, rfl, lt_trans hab hbc⟩
    · obtain ⟨hab, hab'⟩ := same ha hb h1 h2
      obtain ⟨hbc, hbc'⟩ := same hb hc h3 h4
      have hlevel : a.level = c.level := hab.trans hbc
      -- the value between two integers is an integer, or a float that is nearest to both
      have hint : ∀ m n : Int64, a = .integer m → c = .integer n → m = n := by
        rintro m n rfl rfl
        obtain ⟨q, hq⟩ := Option.ne_none_iff_exists'.mp (hvs b hb)
        rcases extended?_cases hq with ⟨k, rfl, _⟩ | ⟨x, rfl, hx, _⟩
        · rw [hab' m k rfl rfl, hbc' k n rfl rfl]
        · refine h m n x ha hc hb ?_ ?_
          · exact (nearestTo_iff_units hx).mpr hab.symm
          · exact (nearestTo_iff_units hx).mpr hbc
      rw [less ha hc, less hc ha]
      constructor
      · rintro (hlt | ⟨m, n, e, e', hlt⟩)
        · omega
        · rw [hint m n e e'] at hlt
          exact lt_irrefl _ hlt
      · rintro (hlt | ⟨m, n, e, e', hlt⟩)
        · omega
        · rw [hint n m e' e] at hlt
          exact lt_irrefl _ hlt

/-- **Numbers compare by value, except that an integer is equal to its nearest float.**  Without
metamethods and without failing, for all numbers: they are equal if their values are, or they are
blurred; the first is less if its value is and they are not blurred, and at most the second if its
value is or they are blurred.  Integers of at most 53 bits are never blurred.  The numbers of a list
are in a strict weak order exactly if no two integers of it have the same nearest float in it. -/
theorem numbers_compare_blurred {a b : Value} {p q : Extended} (ha : a.extended? = some p)
    (hb : b.extended? = some q) :
    (a.rawEq b = true ↔ p = q ∨ Blurred a b) ∧
    (∃ r, Action.less a b = .done r ∧ (r = true ↔ p < q ∧ ¬ Blurred a b)) ∧
    (∃ r, Action.lessEqual a b = .done r ∧ (r = true ↔ p ≤ q ∨ Blurred a b)) ∧
    (∀ n x, Blurred (.integer n) (.float x) → 2 ^ 53 < n.toInt.natAbs) ∧
    ∀ vs : List Value, (∀ v ∈ vs, v.extended? ≠ none) →
      (StrictWeakOn Less vs ↔ ∀ (m n : Int64) (x : Double), .integer m ∈ vs → .integer n ∈ vs →
        .float x ∈ vs → NearestTo m.toInt x → NearestTo n.toInt x → m = n) := by
  obtain ⟨o, ho, hraw, hlt, heq⟩ := order?_exact ha hb
  obtain ⟨hless, hle⟩ := less_of_order? ho
  refine ⟨hraw.trans heq, ⟨_, hless, ?_⟩, ⟨_, hle, ?_⟩, ?_, fun vs => strictWeakOn_iff⟩
  · rw [← hlt]
    cases o <;> simp [PrimitiveOrder.isLess]
  · rw [le_iff_lt_or_eq, or_assoc, ← heq]
    have : p < q ∨ o = .eq ↔ o = .lt ∨ o = .eq := by
      rw [hlt, heq]
      tauto
    rw [this]
    cases o <;> simp [PrimitiveOrder.isLessEqual]
  · rintro n x ⟨m, y, ⟨e, e'⟩ | ⟨e, _⟩, hnear, hne⟩
    · cases e
      cases e'
      by_contra hle
      refine hne ?_
      rw [nearestTo_iff (natAbs_le n), units_ofInt (Nat.le_of_not_lt hle)] at hnear
      unfold rational
      rw [hnear.2, Int.cast_mul, Int.cast_natCast, mul_div_cancel_right₀ _ one_ne_zero]
    · cases e

def twoPow53 : Double := ⟨0x4340000000000000⟩

theorem exact_twoPow53_lt : twoPow53.exact < ofInteger 9007199254740993 := by
  have hunits : twoPow53.units = 9007199254740992 * one := by decide +kernel
  have hfin : twoPow53.isFinite = true := by decide
  have hr : twoPow53.rational = 9007199254740992 := by
    unfold rational
    rw [hunits, Int.cast_mul, Int.cast_natCast, mul_div_cancel_right₀ _ Double.one_ne_zero,
      Int.cast_ofNat]
  have hint : (9007199254740993 : Int64).toInt = 9007199254740993 := rfl
  rw [exact, if_pos hfin, ofInteger, WithBot.coe_lt_coe, WithTop.coe_lt_coe, hr, hint]
  norm_num

/-- The integer after `2^53` and the float `2^53` are equal, so they are blurred. -/
theorem numbers_compare_past_53_bits :
    (Value.integer 9007199254740993).extended? = some (ofInteger 9007199254740993) ∧
    (Value.float twoPow53).extended? = some twoPow53.exact ∧
    Blurred (.integer 9007199254740993) (.float twoPow53) := by
  have h := numbers_compare_blurred (a := .integer 9007199254740993) (b := .float twoPow53) rfl rfl
  exact ⟨rfl, rfl, (h.1.mp (by decide +kernel)).resolve_left exact_twoPow53_lt.ne'⟩

/-- **Numbers do not compare by value**: the float `2^53` has a smaller value than the integer after
it, but it is equal to it, not less, and not to be told from it by an order in which the integer
`2^53` is less. -/
theorem value_order_fails_past_53_bits :
    twoPow53.exact < ofInteger 9007199254740993 ∧
    (Value.integer 9007199254740993).rawEq (.float twoPow53) = true ∧
    Action.less (.float twoPow53) (.integer 9007199254740993) = .done false ∧
    Action.lessEqual (.integer 9007199254740993) (.float twoPow53) = .done true ∧
    ¬ StrictWeakOn Less
      [.integer 9007199254740992, .float twoPow53, .integer 9007199254740993] := by
  have mid : (Value.float twoPow53).order? (.integer 9007199254740993) = some (.ordered .eq) := by
    decide +kernel
  have mid' : (Value.integer 9007199254740993).order? (.float twoPow53) = some (.ordered .eq) := by
    decide +kernel
  have low : (Value.integer 9007199254740992).order? (.float twoPow53) = some (.ordered .eq) := by
    decide +kernel
  have low' : (Value.float twoPow53).order? (.integer 9007199254740992) = some (.ordered .eq) := by
    decide +kernel
  have ends : (Value.integer 9007199254740992).order? (.integer 9007199254740993)
      = some (.ordered .lt) := by decide +kernel
  have notLess : ∀ {a b : Value}, a.order? b = some (.ordered .eq) → ¬ Less a b := by
    intro a b h
    unfold Less
    rw [(less_of_order? h).1]
    nofun
  refine ⟨exact_twoPow53_lt, by decide +kernel, (less_of_order? mid).1, (less_of_order? mid').2,
    fun h => ?_⟩
  have hout := (h.incomparable _ (by simp) (.float twoPow53) (by simp)
    (.integer 9007199254740993) (by simp) (notLess low) (notLess low') (notLess mid)
    (notLess mid')).1
  exact hout (less_of_order? ends).1

end Value

end LuaMachine
