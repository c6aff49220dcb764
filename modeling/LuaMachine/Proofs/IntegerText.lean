import LuaMachine.Value
import LuaMachine.Proofs.Grammar

/-!
# Integers and their texts

An integer is read back from its text, in decimal and in every base up to 36.

* `spells_toDigits`   the decimal text of a number spells its digits;
* `Renders`       the texts of an integer in a base: a sign, zeros, the digits in either case;
* `takenIn`       digits taken in one by one, modulo `2^64`;
* `integer_texts` what is read from them.
-/

namespace LuaMachine.Numeral

variable {base n : Nat} {i : Int64} {minus : Bool} {text : Bytes} {ds : List Nat}

/-! ## decimal texts -/

theorem digit_code {c : Char} (hc : c.isDigit = true) :
    Bytes.isDigit (Bytes.code c) = true ∧ (Bytes.code c).toNat - 0x30 = c.toNat - '0'.toNat := by
  obtain ⟨hl, hu⟩ := Char.isDigit_iff_toNat.mp hc
  have hcode : (Bytes.code c).toNat = c.toNat := by
    show c.toNat % 256 = c.toNat
    exact Nat.mod_eq_of_lt (Nat.lt_of_le_of_lt hu (by decide))
  rw [Bytes.isDigit_iff, hcode]
  exact ⟨⟨hl, hu⟩, rfl⟩

theorem spells_toDigits (n : Nat) : ∃ ds, Spells 10 ds ((Nat.toDigits 10 n).map Bytes.code) ∧
    Nat.ofDigits 10 ds.reverse = n := by
  have hdigit : ∀ c ∈ Nat.toDigits 10 n, c.isDigit = true :=
    fun c hc => Nat.isDigit_of_mem_toDigits (by decide) (by decide) hc
  refine ⟨_, spells_iff_all.mpr ⟨?_, rfl⟩, ?_⟩
  · rw [List.all_map, List.all_eq_true]
    exact fun c hc => (digit_code (hdigit c hc)).1
  · have hvalues : ((Nat.toDigits 10 n).map Bytes.code).map (fun b => b.toNat - 0x30)
        = (Nat.toDigits 10 n).map fun c => c.toNat - '0'.toNat := by
      rw [List.map_map]
      exact List.map_congr_left fun c hc => (digit_code (hdigit c hc)).2
    calc Nat.ofDigits 10 (((Nat.toDigits 10 n).map Bytes.code).map fun b => b.toNat - 0x30).reverse
        = ((Nat.toDigits 10 n).map fun c => c.toNat - '0'.toNat).foldl
            (fun n d => n * 10 + d) 0 := by
          rw [foldl_eq_ofDigits, hvalues, Nat.zero_mul, Nat.zero_add]
      _ = Nat.ofDigitChars 10 (Nat.toDigits 10 n) 0 := by
          rw [List.foldl_map, Nat.ofDigitChars_eq_foldl]
          simp only [Nat.mul_comm]
      _ = n := Nat.ofDigitChars_ten_toDigits

theorem numerical_ofInt (i : Int64) : ∃ minus, signed minus i.toInt.natAbs = i.toInt ∧
    Numerical (Bytes.ofInt i.toInt).toList minus (.decimal i.toInt.natAbs) := by
  obtain ⟨ds, hds, hn⟩ := spells_toDigits i.toInt.natAbs
  have hne : (Nat.toDigits 10 i.toInt.natAbs).map Bytes.code ≠ [] :=
    mt List.map_eq_nil_iff.mp Nat.toDigits_ne_nil
  have hbody := Body.decimal hne hds
  rw [hn] at hbody
  unfold Bytes.ofInt
  split
  · rename_i hneg
    refine ⟨true, ?_, [0x2d], _, Framed.refl _, rfl, hbody⟩
    show -(i.toInt.natAbs : Int) = i.toInt
    omega
  · refine ⟨false, ?_, [], _, Framed.refl _, .inl rfl, hbody⟩
    show (i.toInt.natAbs : Int) = i.toInt
    omega

theorem read_text (i : Int64) : read (Bytes.ofInt i.toInt) = some (.integer i) := by
  obtain ⟨minus, hi, hs⟩ := numerical_ofInt i
  obtain ⟨hvalid, body, hsplit, hbody⟩ := hs.splits
  obtain ⟨v, hv, hgives⟩ := hbody.read_eq_some hvalid hsplit
  simp only [Kind.Gives, hi] at hgives
  rw [if_pos ⟨i.le_toInt, i.toInt_lt⟩] at hgives
  obtain ⟨j, rfl, hj⟩ := hgives
  rw [hv, Int64.toInt_inj.mp hj]

/-! ## texts in a base -/

/-- The texts of an integer in a base, between blanks: a sign, any number of zeros, and the digits
of the magnitude, where letters are small or capital. -/
def Renders (base : Nat) (i : Int64) (text : Bytes) : Prop :=
  ∃ minus zeros, signed minus i.toInt.natAbs = i.toInt ∧
    Written base text minus (List.replicate zeros 0 ++ (Nat.digits base i.toInt.natAbs).reverse)

theorem ofDigits_zeros (zeros n : Nat) :
    Nat.ofDigits base (List.replicate zeros 0 ++ (Nat.digits base n).reverse).reverse = n := by
  rw [List.reverse_append, List.reverse_reverse, List.reverse_replicate,
    Nat.ofDigits_append_replicate_zero, Nat.ofDigits_digits]

/-- **Integers are read back from their texts.**  In decimal this is the text that the machine
writes, in a base any text of the integer.  Digits of any number give their value modulo `2^64`, the
same as when each of them is taken in modulo `2^64`. -/
theorem integer_texts :
    (∀ i : Int64, ∃ text, (Value.integer i).text? = some text ∧ read text = some (.integer i)) ∧
    ∀ base, 2 ≤ base → base ≤ 36 →
      (∀ i text, Renders base i text → readBase text base = some i) ∧
      ∀ text minus ds, Written base text minus ds →
        readBase text base = some (takenIn base minus ds) ∧
        (takenIn base minus ds).toInt
          = (signed minus (Nat.ofDigits base ds.reverse)).bmod (2 ^ 64) := by
  refine ⟨fun i => ⟨_, rfl, read_text i⟩, ?_⟩
  intro base _ hbase
  refine ⟨?_, ?_⟩
  · intro i text h
    obtain ⟨minus, zeros, hi, hw⟩ := h
    refine (readBase_eq_some hbase).mpr ⟨minus, _, hw, ?_⟩
    rw [takenIn_eq, ofDigits_zeros, hi, Int64.ofInt_toInt]
  · intro text minus ds hw
    refine ⟨(readBase_eq_some hbase).mpr ⟨minus, ds, hw, rfl⟩, ?_⟩
    rw [takenIn_eq]
    exact Int64.toInt_ofInt

/-- The least integer, with a zero in front and letters of both cases, between blanks; and
seventeen hexadecimal digits. -/
theorem integer_texts_least :
    (∃ text : Bytes, text.toList = [0x0c, 0x2d, 0x30, 0x31, 0x59, 0x32, 0x70, 0x30, 0x69, 0x6a,
        0x33, 0x32, 0x65, 0x38, 0x65, 0x38, 0x20] ∧
      Renders 36 Int64.minValue text ∧ readBase text 36 = some Int64.minValue) ∧
    ∃ text : Bytes, text.toList = 0x31 :: (List.replicate 15 0x30 ++ [0x35]) ∧
      Written 16 text false (1 :: (List.replicate 15 0 ++ [5])) ∧ readBase text 16 = some 5 := by
  have hdigits : Nat.digits 36 Int64.minValue.toInt.natAbs
      = [8, 14, 8, 14, 2, 3, 19, 18, 0, 25, 2, 34, 1] := by
    show Nat.digits 36 9223372036854775808 = _
    norm_num
  have hleast : Renders 36 Int64.minValue #[0x0c, 0x2d, 0x30, 0x31, 0x59, 0x32, 0x70, 0x30, 0x69,
      0x6a, 0x33, 0x32, 0x65, 0x38, 0x65, 0x38, 0x20] := by
    refine ⟨true, 1, by decide, [0x2d], [0x30, 0x31, 0x59, 0x32, 0x70, 0x30, 0x69, 0x6a, 0x33, 0x32,
      0x65, 0x38, 0x65, 0x38], ⟨[0x0c], [0x20], by simp [Blank], by simp [Blank], rfl⟩, rfl,
      by decide, ?_⟩
    rw [hdigits]
    exact (mapM_digitIn? (by decide)).mp (by decide)
  have hlong : Written 16 (0x31 :: (List.replicate 15 0x30 ++ [0x35])).toArray false
      (1 :: (List.replicate 15 0 ++ [5])) :=
    ⟨[], 0x31 :: (List.replicate 15 0x30 ++ [0x35]), Framed.refl _, .inl rfl, by decide,
      (mapM_digitIn? (by decide)).mp (by decide)⟩
  exact ⟨⟨_, rfl, hleast, (integer_texts.2 36 (by decide) (by decide)).1 _ _ hleast⟩,
    _, rfl, hlong, ((integer_texts.2 16 (by decide) (by decide)).2 _ _ _ hlong).1⟩

end LuaMachine.Numeral
