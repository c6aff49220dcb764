import LuaMachine.Proofs.Double
import LuaMachine.Value

/-!
# Keys

The values under which a table stores its entries, and when two of them are raw-equal.

* `IsKey`        a value that is its own key: not nil, not NaN, not a float that is an integer;
* `rawEq_cases`  raw-equal keys are the same, except that `2^63` as a float is raw-equal to the
                 integers that round to it;
* `count_inj`    the integers of different counts are different keys.
-/

namespace LuaMachine.Value

@[simp] theorem isNil_iff {v : Value} : v.isNil = true ↔ v = nil := by
  cases v <;> simp [isNil]

theorem isNil_eq_false {v : Value} : v.isNil = false ↔ v ≠ nil := by
  rw [Bool.eq_false_iff, ne_eq, isNil_iff]

/-! ## integers as keys -/

theorem toInt_ofNat {n : Nat} (h : n < 2 ^ 63) : (Int64.ofNat n).toInt = n :=
  Int64.toInt_ofNat_of_lt h

theorem count_inj {a b : Nat} (ha : a < 2 ^ 63) (hb : b < 2 ^ 63) : count a = count b ↔ a = b := by
  constructor
  · intro h
    have e := congrArg Int64.toInt (integer.inj h)
    rw [toInt_ofNat ha, toInt_ofNat hb] at e
    exact Int.ofNat_inj.mp e
  · exact congrArg count

theorem integer_eq_count {k : Int64} {n : Nat} (h : k.toInt = n) : integer k = count n := by
  have hn : n < 2 ^ 63 := by
    have := k.toInt_lt
    omega
  exact congrArg integer (Int64.toInt_inj.mp (h.trans (toInt_ofNat hn).symm))

/-! ## normalised values -/

/-- A value that is the key it stands for. -/
def IsKey (k : Value) : Prop := k.key? = some k

instance (k : Value) : Decidable k.IsKey := inferInstanceAs (Decidable (_ = _))

theorem isKey_integer (n : Int64) : (integer n).IsKey := rfl

theorem isKey_count (n : Nat) : (count n).IsKey := rfl

theorem isKey_string (s : Bytes) : (string s).IsKey := rfl

theorem IsKey.ne_nil {k : Value} (h : k.IsKey) : k ≠ nil := by
  rintro rfl
  cases h

theorem key?_integral {x : Double} {n : Int64} (h : x.toInteger? = some n) :
    (float x).key? = some (integer n) := by
  simp only [key?, h]

theorem key?_fractional {x : Double} (h : x.toInteger? = none) :
    (float x).key? = if x.isNaN then none else some (float x) := by
  simp only [key?, h]

theorem isKey_float {x : Double} : (float x).IsKey ↔ x.toInteger? = none ∧ x.isNaN = false := by
  unfold IsKey
  cases h : x.toInteger? with
  | some n => simp [key?_integral h]
  | none => cases hn : x.isNaN <;> simp [key?_fractional h, hn]

theorem isKey_of_key? {v k : Value} (h : v.key? = some k) : k.IsKey := by
  cases v with
  | nil => cases h
  | float x =>
    cases hx : x.toInteger? with
    | some n =>
      rw [key?_integral hx] at h
      rw [← Option.some.inj h]
      exact isKey_integer n
    | none =>
      rw [key?_fractional hx] at h
      cases hn : x.isNaN with
      | true =>
        rw [hn] at h
        cases h
      | false =>
        rw [hn] at h
        rw [← Option.some.inj h]
        exact isKey_float.mpr ⟨hx, hn⟩
  | boolean _ => exact Option.some.inj h ▸ rfl
  | integer _ => exact Option.some.inj h ▸ rfl
  | string _ => exact Option.some.inj h ▸ rfl
  | table _ => exact Option.some.inj h ▸ rfl
  | function _ => exact Option.some.inj h ▸ rfl
  | thread _ => exact Option.some.inj h ▸ rfl

theorem key?_eq_none {v : Value} : v.key? = none ↔ v = nil ∨ ∃ x, v = float x ∧ x.isNaN = true := by
  cases v with
  | float x =>
    cases hx : x.toInteger? with
    | some n =>
      have hn : x.isNaN = false := by
        unfold Double.toInteger? Double.isFinite at hx
        unfold Double.isNaN
        cases hf : x.field == 2047
        · rfl
        · simp [bne, hf] at hx
      simp [key?_integral hx, hn]
    | none => cases hn : x.isNaN <;> simp [key?_fractional hx, hn]
  | _ => simp [key?]

/-! ## raw equality of keys -/

theorem IsKey.rawEq_self {k : Value} (h : k.IsKey) : k.rawEq k = true := by
  cases k with
  | nil => rfl
  | float x => exact Double.eq_refl (isKey_float.mp h).2
  | _ => simp [rawEq]

theorem rawEq_symm {a b : Value} (h : a.rawEq b = true) : b.rawEq a = true := by
  cases a <;> cases b <;> simp only [rawEq, Bool.false_eq_true, beq_iff_eq] at h ⊢ <;>
    first | exact h.symm | exact Double.eq_symm h

theorem eq_of_rawEq_integer {n m : Int64} (h : (integer n).rawEq (integer m) = true) : n = m :=
  beq_iff_eq.mp h

theorem rawEq_nil {k : Value} (h : k ≠ nil) : k.rawEq nil = false := by
  cases k <;> first | exact absurd rfl h | rfl

theorem IsKey.absUnits_ne_zero {x : Double} (h : (float x).IsKey) : x.absUnits ≠ 0 := by
  intro h0
  have := (isKey_float.mp h).1
  rw [Double.toInteger?_zero x h0] at this
  cases this

theorem eq_twoPow63_of_rawEq {n : Int64} {x : Double} (hx : (float x).IsKey)
    (h : (Double.ofInt n.toInt).eq x = true) : x = Double.twoPow63 ∧ 2 ^ 62 ≤ n.toInt := by
  have e := Double.eq_of_eq_true h hx.absUnits_ne_zero
  rcases Double.ofInt_integral n with ⟨m, hm⟩ | ⟨h63, hn⟩
  · rw [e, (isKey_float.mp hx).1] at hm
    cases hm
  · exact ⟨e.symm.trans h63, hn⟩

/-- **Raw-equal keys are the same, `2^63` apart.** -/
theorem rawEq_cases {a b : Value} (ha : a.IsKey) (hb : b.IsKey) (h : a.rawEq b = true) :
    a = b ∨ (∃ n, a = integer n ∧ b = float Double.twoPow63 ∧ 2 ^ 62 ≤ n.toInt) ∨
      ∃ n, a = float Double.twoPow63 ∧ b = integer n ∧ 2 ^ 62 ≤ n.toInt := by
  cases a with
  | integer n =>
    cases b with
    | integer m => exact .inl (congrArg integer (eq_of_rawEq_integer h))
    | float x =>
      obtain ⟨rfl, hn⟩ := eq_twoPow63_of_rawEq hb h
      exact .inr (.inl ⟨n, rfl, rfl, hn⟩)
    | _ => cases h
  | float x =>
    cases b with
    | integer n =>
      obtain ⟨rfl, hn⟩ := eq_twoPow63_of_rawEq ha (Double.eq_symm h)
      exact .inr (.inr ⟨n, rfl, rfl, hn⟩)
    | float y => exact .inl (congrArg float (Double.eq_of_eq_true h hb.absUnits_ne_zero))
    | _ => cases h
  | nil => cases b <;> first | exact .inl rfl | cases h
  | boolean _ => cases b <;> first | exact .inl (congrArg boolean (beq_iff_eq.mp h)) | cases h
  | string _ => cases b <;> first | exact .inl (congrArg string (beq_iff_eq.mp h)) | cases h
  | table _ => cases b <;> first | exact .inl (congrArg table (beq_iff_eq.mp h)) | cases h
  | function _ => cases b <;> first | exact .inl (congrArg function (beq_iff_eq.mp h)) | cases h
  | thread _ => cases b <;> first | exact .inl (congrArg thread (beq_iff_eq.mp h)) | cases h

end LuaMachine.Value
