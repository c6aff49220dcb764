import LuaMachine.Proofs.InRange
import LuaMachine.Proofs.Unpacking

/-!
# Positions in a string

The two ends of a range are brought into a string by rules of their own, and what is cut out between
them is what the positions say when nothing is brought into range at all: the bytes whose position
is not before the one index and not after the other, a negative index counting from the end.

* `indexPlace`        the position that an index stands for, wherever it is;
* `startPlace_le_iff`, `le_endPlace_iff`   the ends of a range agree with it inside the string;
* `substring?`        cutting out with that arithmetic, in range of the string;
* `substring_eq_filter`   the bytes of a substring;
* `sub_byte_char_agree`   the library functions, at all indices.
-/

namespace LuaMachine

/-! ## arguments that are given -/

namespace Arguments

variable {vs : List Value} {v : Value} {s : Bytes} {i : Int64} {n : Nat}

theorem isOmitted_eq_false (hv : get? vs n = some v) (hne : v ≠ .nil) : isOmitted vs n = false := by
  unfold isOmitted
  rw [hv]
  exact Bool.eq_false_iff.mpr (mt Value.isNil_iff.mp hne)

theorem bytes_eq (hv : get? vs n = some v) (ht : v.text? = some s) (f : String) :
    bytes vs n f = .ok s := by
  unfold bytes
  rw [hv, Option.bind_some, ht]

theorem integerOr_given (hv : get? vs n = some v) (hi : v.StandsFor i) (f : String) (d : Int64) :
    integerOr vs n f d = .ok i := by
  unfold integerOr integer
  rw [isOmitted_eq_false hv hi.ne_nil, hv]
  exact hi.integerOf n f

end Arguments

namespace Library.Text

open Checked

variable {s : Bytes} {i j : Int64} {length p : Nat}

/-! ## the ends of a range -/

/-- The position that an index stands for: a negative one counts from the end. -/
def indexPlace (length : Nat) (i : Int64) : Int :=
  if i.toInt < 0 then length + i.toInt + 1 else i.toInt

theorem eq_zero_iff : i = 0 ↔ i.toInt = 0 := Int64.toInt_inj.symm

/-- For a position of a string it makes no difference that the start is at least one. -/
theorem startPlace_le_iff (hp : 1 ≤ p) : startPlace i length ≤ p ↔ indexPlace length i ≤ p := by
  simp only [startPlace, indexPlace, eq_zero_iff]
  split_ifs <;> omega

/-- For a position of a string it makes no difference that the end is at most the length. -/
theorem le_endPlace_iff (hp : 1 ≤ p) (hl : p ≤ length) :
    p ≤ endPlace j length ↔ (p : Int) ≤ indexPlace length j := by
  unfold endPlace indexPlace
  split_ifs <;> omega

theorem one_le_startPlace (i : Int64) (length : Nat) : 1 ≤ startPlace i length := by
  simp only [startPlace, eq_zero_iff]
  split_ifs <;> omega

theorem endPlace_le (j : Int64) (length : Nat) : endPlace j length ≤ length := by
  unfold endPlace
  split_ifs <;> omega

/-! ## the bytes between them -/

theorem toList_substring (s : Bytes) (i j : Int64) : (substring s i j).toList =
    (s.toList.take (endPlace j s.size)).drop (startPlace i s.size - 1) := by
  unfold substring
  dsimp only
  rw [List.drop_take]
  split
  · rename_i hlt
    rw [Nat.sub_eq_zero_of_le (by omega), List.take_zero]
  · rw [Bytes.toList_slice]

theorem map_filter_zipIdx {α : Type} (lo hi : Nat) (l : List α) (n : Nat) :
    ((l.zipIdx n).filter fun x => decide (lo ≤ x.2 ∧ x.2 ≤ hi)).map Prod.fst =
      (l.take (hi + 1 - n)).drop (lo - n) := by
  induction l generalizing n with
  | nil => simp
  | cons a l ih =>
    have hrest := ih (n + 1)
    rw [List.zipIdx_cons, List.filter_cons]
    -- once the lower bound is reached nothing is dropped any more
    by_cases hlo : lo ≤ n
    · by_cases hhi : n ≤ hi
      · rw [if_pos (decide_eq_true ⟨hlo, hhi⟩), List.map_cons, hrest,
          show hi + 1 - n = hi + 1 - (n + 1) + 1 by omega, List.take_succ_cons,
          Nat.sub_eq_zero_of_le hlo, Nat.sub_eq_zero_of_le (by omega), List.drop_zero,
          List.drop_zero]
      · rw [if_neg (by simp [hhi]), hrest, Nat.sub_eq_zero_of_le (by omega : hi + 1 ≤ n),
          Nat.sub_eq_zero_of_le (by omega : hi + 1 ≤ n + 1)]
        simp
    · rw [if_neg (by simp [hlo]), hrest, show lo - n = lo - (n + 1) + 1 by omega]
      cases hk : hi + 1 - n with
      | zero =>
        rw [Nat.sub_eq_zero_of_le (by omega : hi + 1 ≤ n + 1)]
        simp
      | succ k =>
        rw [show hi + 1 - (n + 1) = k by omega, List.take_succ_cons, List.drop_succ_cons]

/-- **The bytes of a substring** are those at the positions between the two indices. -/
theorem substring_eq_filter (s : Bytes) (i j : Int64) : (substring s i j).toList =
    ((s.toList.zipIdx 1).filter fun x =>
      decide (indexPlace s.size i ≤ x.2 ∧ x.2 ≤ indexPlace s.size j)).map Prod.fst := by
  rw [toList_substring]
  have h := map_filter_zipIdx (startPlace i s.size) (endPlace j s.size) s.toList 1
  rw [Nat.add_sub_cancel] at h
  rw [← h]
  congr 1
  apply List.filter_congr
  intro x hx
  have hlo : 1 ≤ x.2 := List.le_snd_of_mem_zipIdx hx
  have hhi : x.2 ≤ s.size := by
    have hlt := List.snd_lt_of_mem_zipIdx hx
    rw [Array.length_toList] at hlt
    omega
  rw [decide_eq_decide, startPlace_le_iff hlo, le_endPlace_iff hlo hhi]

/-! ## cutting out without overflow -/

def startPlace? (i : Int64) (length : Nat) : Option Nat := do
  let n := Int64.ofNat length
  if 0 < i then count? i
  else if i = 0 then return 1
  else if i < (← minus? n) then return 1
  else count? (← plus? (← plus? n i) 1)

def endPlace? (j : Int64) (length : Nat) : Option Nat := do
  let n := Int64.ofNat length
  if n < j then return length
  else if 0 ≤ j then count? j
  else if j < (← minus? n) then return 0
  else count? (← plus? (← plus? n j) 1)

/-- The bytes at the positions from `i` to `j`, where nothing may overflow and the slice must lie in
the string. -/
def substring? (s : Bytes) (i j : Int64) : Option Bytes := do
  let first ← startPlace? i s.size
  let last ← endPlace? j s.size
  if last < first then return #[] else Bytewise.slice? s (← Bytewise.minus? first 1) last

/-- The position that a negative index stands for is computed without overflow. -/
theorem count?_plus? (hl : length < 2 ^ 63) (hi : i.toInt < 0) (hn : -(length : Int) ≤ i.toInt) :
    (do count? (← plus? (← plus? (Int64.ofNat length) i) 1)) =
      some (length + i.toInt + 1).toNat := by
  have hlen := Value.toInt_ofNat hl
  obtain ⟨c, hc, ec⟩ := exists_plus? (a := Int64.ofNat length) (b := i) (by omega) (by omega)
  have h1 : (1 : Int64).toInt = 1 := rfl
  obtain ⟨d, hd, ed⟩ := exists_plus? (a := c) (b := 1) (by omega) (by omega)
  rw [hc]
  show (plus? c 1).bind count? = _
  rw [hd]
  show count? d = _
  rw [count?_eq (by omega), ed, ec, hlen, h1]

theorem startPlace?_eq (hl : length < 2 ^ 63) :
    startPlace? i length = some (startPlace i length) := by
  have hlen := Value.toInt_ofNat hl
  have h0 : (0 : Int64).toInt = 0 := rfl
  obtain ⟨m, hm, em⟩ := exists_minus? (a := Int64.ofNat length) (by omega)
  rw [hlen] at em
  unfold startPlace? startPlace
  by_cases hpos : 0 < i.toInt
  · rw [if_pos (Int64.lt_iff_toInt_lt.2 (h0 ▸ hpos)), if_pos hpos, count?_eq (by omega)]
  rw [if_neg (mt Int64.lt_iff_toInt_lt.1 (h0 ▸ hpos)), if_neg hpos]
  by_cases hzero : i = 0
  · rw [if_pos hzero, if_pos (.inl hzero)]
    rfl
  rw [if_neg hzero, hm, Option.bind_eq_bind, Option.bind_some]
  by_cases hlow : i.toInt < -(length : Int)
  · rw [if_pos (Int64.lt_iff_toInt_lt.2 (em ▸ hlow)), if_pos (.inr hlow)]
    rfl
  rw [if_neg (mt Int64.lt_iff_toInt_lt.1 (em ▸ hlow)), if_neg (by simp [hzero, hlow])]
  have hne := mt eq_zero_iff.2 hzero
  exact count?_plus? hl (by omega) (by omega)

theorem endPlace?_eq (hl : length < 2 ^ 63) :
    endPlace? j length = some (endPlace j length) := by
  have hlen := Value.toInt_ofNat hl
  have h0 : (0 : Int64).toInt = 0 := rfl
  obtain ⟨m, hm, em⟩ := exists_minus? (a := Int64.ofNat length) (by omega)
  rw [hlen] at em
  unfold endPlace? endPlace
  by_cases hhigh : (length : Int) < j.toInt
  · rw [if_pos (Int64.lt_iff_toInt_lt.2 (hlen ▸ hhigh)), if_pos hhigh]
    rfl
  rw [if_neg (mt Int64.lt_iff_toInt_lt.1 (hlen ▸ hhigh)), if_neg hhigh]
  by_cases hpos : 0 ≤ j.toInt
  · rw [if_pos (Int64.le_iff_toInt_le.2 (h0 ▸ hpos)), if_pos hpos, count?_eq hpos]
  rw [if_neg (mt Int64.le_iff_toInt_le.1 (h0 ▸ hpos)), if_neg hpos, hm, Option.bind_eq_bind,
    Option.bind_some]
  by_cases hlow : j.toInt < -(length : Int)
  · rw [if_pos (Int64.lt_iff_toInt_lt.2 (em ▸ hlow)), if_pos hlow]
    rfl
  rw [if_neg (mt Int64.lt_iff_toInt_lt.1 (em ▸ hlow)), if_neg hlow]
  exact count?_plus? hl (by omega) (by omega)

theorem substring?_eq (hs : s.size < 2 ^ 63) (i j : Int64) :
    substring? s i j = some (substring s i j) := by
  have hfirst := one_le_startPlace i s.size
  have hlast := endPlace_le j s.size
  unfold substring? substring
  rw [startPlace?_eq hs, endPlace?_eq hs]
  simp only [Option.bind_eq_bind, Option.bind_some]
  split
  · rfl
  · rw [Bytewise.minus?_of_le hfirst, Option.bind_some, Bytewise.slice?_of_le (by omega) hlast]

/-! ## the library functions -/

section
variable {v x y : Value}

theorem sub_eq (hv : v.text? = some s) (hx : x.StandsFor i) (hy : y.StandsFor j) :
    sub [v, x, y] = .ok [.string (substring s i j)] := by
  unfold sub
  rw [Arguments.bytes_eq rfl hv, Arguments.integerOr_given rfl hx, Arguments.integerOr_given rfl hy]
  rfl

theorem byte_eq (hv : v.text? = some s) (hx : x.StandsFor i) (hy : y.StandsFor j) :
    byte [v, x, y] = .ok ((substring s i j).toList.map fun b => .count b.toNat) := by
  unfold byte
  rw [Arguments.bytes_eq rfl hv, Arguments.integerOr_given rfl hx]
  show (Arguments.integerOr [v, x, y] 3 "byte" i).bind _ = _
  rw [Arguments.integerOr_given rfl hy]
  rfl

end

theorem charOf_count (b : UInt8) (k : Nat) : charOf (.count b.toNat) k = .ok b := by
  have hb := b.toNat_lt
  have hn := Value.toInt_ofNat (show b.toNat < 2 ^ 63 by omega)
  have h0 : (0 : Int64).toInt = 0 := rfl
  have h255 : (255 : Int64).toInt = 255 := rfl
  have hlow : ¬Int64.ofNat b.toNat < 0 := by
    rw [Int64.lt_iff_toInt_lt]
    omega
  have hhigh : ¬255 < Int64.ofNat b.toNat := by
    rw [Int64.lt_iff_toInt_lt]
    omega
  show (if Int64.ofNat b.toNat < 0 || 255 < Int64.ofNat b.toNat then _
    else Except.ok (Int64.ofNat b.toNat).toInt.toNat.toUInt8) = _
  rw [if_neg (by simp [hlow, hhigh]), hn]
  simp

/-- The characters of a list of bytes are these bytes, wherever the counting starts. -/
theorem mapM_charOf (bs : List UInt8) (k : Nat) :
    ((bs.map fun b => Value.count b.toNat).zipIdx k).mapM (fun x => charOf x.1 x.2) = .ok bs := by
  induction bs generalizing k with
  | nil => rfl
  | cons b bs ih =>
    rw [List.map_cons, List.zipIdx_cons, List.mapM_cons, charOf_count, ih]
    rfl

theorem char_eq (bs : List UInt8) :
    char (bs.map fun b => .count b.toNat) = .ok [.string bs.toArray] := by
  show ((((bs.map fun b => Value.count b.toNat).zipIdx 1).mapM
    fun x => charOf x.1 x.2).bind _) = _
  rw [mapM_charOf]
  rfl

/-- **Positions in a string.**  For a string or the text of a number and any two 64-bit integers,
cutting out neither overflows nor leaves the string; what is cut out has the bytes whose position,
counted from one, lies between the positions that the integers stand for, a negative one counting
from the end; and it is also the string of the characters whose numbers are its bytes. -/
theorem sub_byte_char_agree (s : Bytes) (i j : Int64) :
    (s.size < 2 ^ 63 → substring? s i j = some (substring s i j)) ∧
    (substring s i j).toList = ((s.toList.zipIdx 1).filter fun x =>
      decide (indexPlace s.size i ≤ x.2 ∧ x.2 ≤ indexPlace s.size j)).map Prod.fst ∧
    ∀ v x y : Value, v.text? = some s → x.StandsFor i → y.StandsFor j →
      sub [v, x, y] = .ok [.string (substring s i j)] ∧
      ∃ vs, byte [v, x, y] = .ok vs ∧
        vs = (substring s i j).toList.map (fun b => .count b.toNat) ∧
        char vs = .ok [.string (substring s i j)] :=
  ⟨fun hs => substring?_eq hs i j, substring_eq_filter s i j, fun _ _ _ hv hx hy =>
    ⟨sub_eq hv hx hy, _, byte_eq hv hx hy, rfl, char_eq _⟩⟩

/-- From the least integer to the last but one. -/
theorem sub_byte_char_agree_least :
    substring? (Bytes.ofString "abc") Int64.minValue (-2) = some (Bytes.ofString "ab") ∧
    sub [.text "abc", .integer Int64.minValue, .integer (-2)] = .ok [.text "ab"] ∧
    byte [.text "abc", .integer Int64.minValue, .integer (-2)] = .ok [.integer 97, .integer 98] ∧
    char [.integer 97, .integer 98] = .ok [.text "ab"] := by
  obtain ⟨hin, -, hlib⟩ := sub_byte_char_agree (Bytes.ofString "abc") Int64.minValue (-2)
  have hstands : ∀ n : Int64, (Value.integer n).StandsFor n := fun _ _ => rfl
  obtain ⟨hsub, vs, hbyte, rfl, hchar⟩ := hlib (.text "abc") _ _ rfl (hstands _) (hstands _)
  have hcut : substring (Bytes.ofString "abc") Int64.minValue (-2) = Bytes.ofString "ab" := by
    decide +kernel
  rw [hcut] at hin hsub hbyte hchar
  exact ⟨hin (by decide), hsub, hbyte, hchar⟩

end Library.Text

end LuaMachine
