import Mathlib.Data.Bool.AllAny
import Mathlib.Data.Nat.Digits.Defs
import Mathlib.Data.List.Forall2
import Mathlib.Data.List.TakeWhile
import LuaMachine.Numeral

/-!
# Digits, signs and blanks

The parts that numerals are made of, each as a relation between a text and what it stands for, and
what the readers make of it.

* `Spells`        bytes stand for digits of a base, the letters among them small or capital;
* `IsSign`, `signed`   the sign in front of digits, and what it does to their value;
* `Framed`        bytes between blanks;
* `positional_eq_ofDigits`, `takenIn_eq`   the value of digits, however it is computed, and the same
                  modulo `2^64`;
* `Written`, `readBase_eq_some`   the texts that are read as an integer in a base, and as which one.
-/

namespace LuaMachine

namespace Bytes

variable {b : UInt8}

theorem isDigit_iff : isDigit b = true ↔ 0x30 ≤ b.toNat ∧ b.toNat ≤ 0x39 := by
  simp [isDigit, UInt8.le_iff_toNat_le]

theorem isLower_iff : isLower b = true ↔ 0x61 ≤ b.toNat ∧ b.toNat ≤ 0x7a := by
  simp [isLower, UInt8.le_iff_toNat_le]

theorem isUpper_iff : isUpper b = true ↔ 0x41 ≤ b.toNat ∧ b.toNat ≤ 0x5a := by
  simp [isUpper, UInt8.le_iff_toNat_le]

end Bytes

theorem Utf8.validList_of_ascii {s : List UInt8} (h : ∀ b ∈ s, b < 0x80) :
    validList s = true := by
  induction s with
  | nil => rw [validList]
  | cons b s ih =>
    have hb : sequenceAt b s = (0, true) := by
      unfold sequenceAt follow
      rw [if_pos (h b List.mem_cons_self)]
      rfl
    rw [validList, hb]
    exact ih fun c hc => h c (List.mem_cons_of_mem _ hc)

namespace Numeral

variable {base d n : Nat} {b : UInt8} {ds ds' : List Nat} {bs bs' s : List UInt8} {minus : Bool}

/-! ## digits -/

/-- The byte that stands for a digit, where a letter may be small or capital. -/
def digitByte (capital : Bool) (d : Nat) : UInt8 :=
  UInt8.ofNat (if d < 10 then 0x30 + d else if capital then 0x41 + (d - 10) else 0x61 + (d - 10))

def Stands (base d : Nat) (b : UInt8) : Prop := d < base ∧ ∃ capital, b = digitByte capital d

/-- Bytes stand for digits of the base, the highest one first. -/
def Spells (base : Nat) : List Nat → List UInt8 → Prop := List.Forall₂ (Stands base)

theorem digitValue?_digitByte (capital : Bool) (hd : d < 36) :
    digitValue? (digitByte capital d) = some d := by
  have key : ∀ c : Bool, ∀ d < 36, digitValue? (digitByte c d) = some d := by decide
  exact key capital d hd

theorem digitValue?_eq_some :
    digitValue? b = some d ↔ d < 36 ∧ ∃ capital, b = digitByte capital d := by
  constructor
  · intro h
    unfold digitValue? at h
    split at h
    · rename_i hb
      obtain ⟨hl, hu⟩ := Bytes.isDigit_iff.mp hb
      cases h
      refine ⟨by omega, false, ?_⟩
      rw [digitByte, if_pos (by omega), Nat.add_sub_cancel' hl, UInt8.ofNat_toNat]
    · split at h
      · rename_i hb
        obtain ⟨hl, hu⟩ := Bytes.isLower_iff.mp hb
        cases h
        refine ⟨by omega, false, ?_⟩
        rw [digitByte, if_neg (by omega), Nat.add_sub_cancel, if_neg Bool.false_ne_true,
          Nat.add_sub_cancel' hl, UInt8.ofNat_toNat]
      · split at h
        · rename_i hb
          obtain ⟨hl, hu⟩ := Bytes.isUpper_iff.mp hb
          cases h
          refine ⟨by omega, true, ?_⟩
          rw [digitByte, if_neg (by omega), Nat.add_sub_cancel, if_pos rfl,
            Nat.add_sub_cancel' hl, UInt8.ofNat_toNat]
        · cases h
  · rintro ⟨hd, capital, rfl⟩
    exact digitValue?_digitByte capital hd

theorem digitIn?_eq_some (hbase : base ≤ 36) : digitIn? base b = some d ↔ Stands base d b := by
  unfold digitIn? Stands
  rw [Option.filter_eq_some_iff, digitValue?_eq_some, decide_eq_true_eq]
  constructor
  · rintro ⟨⟨_, h⟩, hd⟩
    exact ⟨hd, h⟩
  · rintro ⟨hd, h⟩
    exact ⟨⟨Nat.lt_of_lt_of_le hd hbase, h⟩, hd⟩

theorem mapM_digitIn? (hbase : base ≤ 36) :
    bs.mapM (digitIn? base) = some ds ↔ Spells base ds bs := by
  induction bs generalizing ds with
  | nil =>
    rw [List.mapM_nil]
    constructor
    · rintro ⟨⟩
      exact .nil
    · rintro ⟨⟩
      rfl
  | cons b bs ih =>
    rw [List.mapM_cons]
    constructor
    · intro h
      obtain ⟨d, hd, h⟩ := Option.bind_eq_some_iff.mp h
      obtain ⟨ds', hds, h⟩ := Option.bind_eq_some_iff.mp h
      cases h
      exact .cons ((digitIn?_eq_some hbase).mp hd) (ih.mp hds)
    · intro h
      cases h with
      | cons hd hds =>
        rw [(digitIn?_eq_some hbase).mpr hd, ih.mpr hds]
        rfl

theorem foldl_eq_ofDigits (base : Nat) (ds : List Nat) (n : Nat) :
    ds.foldl (fun n d => n * base + d) n
      = n * base ^ ds.length + Nat.ofDigits base ds.reverse := by
  induction ds generalizing n with
  | nil => simp
  | cons d ds ih =>
    rw [List.foldl_cons, ih, Nat.ofDigits_reverse_cons, List.length_cons]
    ring

/-- **The value of digits** is the same whether they are taken in one by one or in halves. -/
theorem positional_eq_ofDigits (base : Nat) (ds : List Nat) :
    positional base ds = Nat.ofDigits base ds.reverse := by
  fun_induction positional base ds with
  | case1 ds h => rw [foldl_eq_ofDigits, Nat.zero_mul, Nat.zero_add]
  | case2 ds h k ih1 ih2 =>
    have hsplit : ds.reverse = (ds.drop k).reverse ++ (ds.take k).reverse := by
      rw [← List.reverse_append, List.take_append_drop]
    rw [ih1, ih2, hsplit, Nat.ofDigits_append, List.length_reverse, List.length_drop, Nat.add_comm,
      Nat.mul_comm]
    rfl

theorem digits?_eq_some (hbase : base ≤ 36) :
    digits? base bs = some ds ↔ bs ≠ [] ∧ Spells base ds bs := by
  cases bs with
  | nil => simp [digits?]
  | cons b bs =>
    show (b :: bs).mapM (digitIn? base) = some ds ↔ _
    rw [mapM_digitIn? hbase]
    exact ⟨fun h => ⟨List.cons_ne_nil _ _, h⟩, fun h => h.2⟩

/-! ## decimal digits -/

theorem isDigit_digitByte (capital : Bool) (hd : d < 10) :
    Bytes.isDigit (digitByte capital d) = true ∧ (digitByte capital d).toNat - 0x30 = d := by
  have key : ∀ c : Bool, ∀ d < 10, Bytes.isDigit (digitByte c d) = true ∧
      (digitByte c d).toNat - 0x30 = d := by decide
  exact key capital d hd

theorem stands_of_isDigit (hb : Bytes.isDigit b = true) : Stands 10 (b.toNat - 0x30) b := by
  obtain ⟨hl, hu⟩ := Bytes.isDigit_iff.mp hb
  refine ⟨by omega, false, ?_⟩
  rw [digitByte, if_pos (by omega), Nat.add_sub_cancel' hl, UInt8.ofNat_toNat]

theorem spells_iff_all : Spells 10 ds bs ↔
    bs.all Bytes.isDigit = true ∧ ds = bs.map fun b => b.toNat - 0x30 := by
  constructor
  · intro h
    induction h with
    | nil => exact ⟨rfl, rfl⟩
    | cons hd _ ih =>
      obtain ⟨hd, capital, rfl⟩ := hd
      obtain ⟨hdigit, hvalue⟩ := isDigit_digitByte capital hd
      rw [List.all_cons, hdigit, ih.1, List.map_cons, hvalue, ← ih.2]
      exact ⟨rfl, rfl⟩
  · rintro ⟨h, rfl⟩
    induction bs with
    | nil => exact .nil
    | cons b bs ih =>
      rw [List.all_cons, Bool.and_eq_true] at h
      exact .cons (stands_of_isDigit h.1) (ih h.2)

theorem decimalValue_eq (h : Spells 10 ds bs) : decimalValue bs = Nat.ofDigits 10 ds.reverse := by
  rw [decimalValue, positional_eq_ofDigits, (spells_iff_all.mp h).2]

/-! ## signs -/

/-- The sign that may stand in front of digits. -/
def IsSign (minus : Bool) (sign : List UInt8) : Prop :=
  if minus then sign = [0x2d] else sign = [] ∨ sign = [0x2b]

def signed (minus : Bool) (n : Nat) : Int := if minus then -n else n

def Unsigned (s : List UInt8) : Prop := s.head? ≠ some 0x2d ∧ s.head? ≠ some 0x2b

theorem unsigned_cons (hminus : b ≠ 0x2d) (hplus : b ≠ 0x2b) : Unsigned (b :: s) :=
  ⟨fun e => hminus (Option.some.inj e), fun e => hplus (Option.some.inj e)⟩

theorem splitSign_append {sign : List UInt8} (hs : IsSign minus sign) (hu : Unsigned s) :
    splitSign (sign ++ s) = (minus, s) := by
  cases minus with
  | true =>
    cases hs
    rfl
  | false =>
    rcases hs with rfl | rfl
    · show splitSign s = (false, s)
      unfold splitSign
      split
      · exact absurd rfl hu.1
      · exact absurd rfl hu.2
      · rfl
    · rfl

theorem splitSign_spec (s : List UInt8) :
    ∃ sign, IsSign (splitSign s).1 sign ∧ s = sign ++ (splitSign s).2 := by
  unfold splitSign
  split
  · exact ⟨[0x2d], rfl, rfl⟩
  · exact ⟨[0x2b], .inr rfl, rfl⟩
  · exact ⟨[], .inl rfl, rfl⟩

/-- **Digits taken in one by one** give their value modulo `2^64`. -/
theorem takenIn_eq (base : Nat) (minus : Bool) (ds : List Nat) :
    takenIn base minus ds = Int64.ofInt (signed minus (Nat.ofDigits base ds.reverse)) := by
  have hfold : ∀ n : Nat, ds.foldl (fun a d => a * Int64.ofNat base + Int64.ofNat d) (Int64.ofNat n)
      = Int64.ofNat (ds.foldl (fun n d => n * base + d) n) := by
    induction ds with
    | nil => exact fun _ => rfl
    | cons d ds ih =>
      intro n
      rw [List.foldl_cons, List.foldl_cons, ← ih, Int64.ofNat_add, Int64.ofNat_mul]
  have hsum := hfold 0
  rw [foldl_eq_ofDigits, Nat.zero_mul, Nat.zero_add] at hsum
  show (if minus then -(ds.foldl _ (Int64.ofNat 0)) else ds.foldl _ (Int64.ofNat 0)) = _
  rw [hsum]
  cases minus with
  | true =>
    show -(Int64.ofNat _) = Int64.ofInt (-_)
    rw [Int64.ofInt_neg, Int64.ofInt_eq_ofNat]
  | false => exact Int64.ofInt_eq_ofNat.symm

/-! ## blanks -/

/-- Space, tab, newline, carriage return, vertical tab and form feed. -/
def Blank (b : UInt8) : Prop := b ∈ [0x20, 0x09, 0x0a, 0x0d, 0x0b, 0x0c]

instance (b : UInt8) : Decidable (Blank b) := inferInstanceAs (Decidable (b ∈ _))

theorem isBlank_iff (b : UInt8) : Bytes.isBlank b = true ↔ Blank b := by
  have key : ∀ n < 256, Bytes.isBlank (UInt8.ofNat n) = true ↔ Blank (UInt8.ofNat n) := by
    decide +kernel
  have hb := key b.toNat b.toNat_lt
  rwa [UInt8.ofNat_toNat] at hb

/-- The bytes that a numeral may have between the blanks around it: no blanks, and ASCII. -/
def Plain (b : UInt8) : Prop := ¬ Blank b ∧ b < 0x80

instance (b : UInt8) : Decidable (Plain b) := inferInstanceAs (Decidable (_ ∧ _))

/-- Bytes between blanks. -/
def Framed (s core : List UInt8) : Prop :=
  ∃ lead trail, (∀ b ∈ lead, Blank b) ∧ (∀ b ∈ trail, Blank b) ∧ s = lead ++ (core ++ trail)

theorem Framed.refl (s : List UInt8) : Framed s s := ⟨[], [], by simp, by simp, by simp⟩

theorem framed_trim (s : List UInt8) : Framed s (trim s) := by
  have hblank : ∀ l : List UInt8, ∀ b ∈ l.takeWhile Bytes.isBlank, Blank b :=
    fun l b hb => (isBlank_iff b).mp (List.all_eq_true.mp List.all_takeWhile b hb)
  refine ⟨s.takeWhile Bytes.isBlank,
    ((s.dropWhile Bytes.isBlank).reverse.takeWhile Bytes.isBlank).reverse, hblank s, ?_, ?_⟩
  · intro b hb
    exact hblank _ b (List.mem_reverse.mp hb)
  · rw [trim, ← List.reverse_append, List.takeWhile_append_dropWhile, List.reverse_reverse,
      List.takeWhile_append_dropWhile]

theorem dropWhile_isBlank (h : ∀ b ∈ s, ¬ Blank b) : s.dropWhile Bytes.isBlank = s := by
  cases s with
  | nil => rfl
  | cons b s =>
    exact List.dropWhile_cons_of_neg (mt (isBlank_iff b).mp (h b List.mem_cons_self))

theorem Framed.trim_eq {core : List UInt8} (h : Framed s core) (hc : ∀ b ∈ core, Plain b) :
    trim s = core := by
  obtain ⟨lead, trail, hlead, htrail, rfl⟩ := h
  have hl : ∀ b ∈ lead, Bytes.isBlank b = true := fun b hb => (isBlank_iff b).mpr (hlead b hb)
  have ht : ∀ b ∈ trail, Bytes.isBlank b = true := fun b hb => (isBlank_iff b).mpr (htrail b hb)
  rw [trim, List.dropWhile_append_of_pos hl]
  cases core with
  | nil =>
    rw [List.nil_append, List.dropWhile_eq_nil_iff.mpr ht]
    rfl
  | cons c core =>
    have hfirst : ¬ Bytes.isBlank c = true := mt (isBlank_iff c).mp (hc c List.mem_cons_self).1
    rw [List.cons_append, List.dropWhile_cons_of_neg hfirst, ← List.cons_append,
      List.reverse_append, List.dropWhile_append_of_pos fun b hb => ht b (List.mem_reverse.mp hb),
      dropWhile_isBlank fun b hb => (hc b (List.mem_reverse.mp hb)).1, List.reverse_reverse]

theorem Framed.valid {core : List UInt8} {text : Bytes} (h : Framed text.toList core)
    (hc : ∀ b ∈ core, Plain b) : Utf8.valid text = true := by
  have hblank : ∀ b ∈ ([0x20, 0x09, 0x0a, 0x0d, 0x0b, 0x0c] : List UInt8), b < 0x80 :=
    List.all_iff_forall_prop.mp (by decide)
  obtain ⟨lead, trail, hlead, htrail, e⟩ := h
  refine Utf8.validList_of_ascii fun b hb => ?_
  rw [e, List.mem_append, List.mem_append] at hb
  rcases hb with hb | hb | hb
  · exact hblank b (hlead b hb)
  · exact (hc b hb).2
  · exact hblank b (htrail b hb)

/-! ## integers in a base -/

theorem digitByte_plain (capital : Bool) (hd : d < 36) : Plain (digitByte capital d) ∧
    digitByte capital d ≠ 0x2d ∧ digitByte capital d ≠ 0x2b := by
  have key : ∀ c : Bool, ∀ d < 36, Plain (digitByte c d) ∧ digitByte c d ≠ 0x2d ∧
      digitByte c d ≠ 0x2b := by decide
  exact key capital d hd

theorem IsSign.mem {sign : List UInt8} (h : IsSign minus sign) (hb : b ∈ sign) :
    b ∈ [0x2d, 0x2b] := by
  cases minus with
  | true =>
    cases h
    exact List.mem_append_left [0x2b] hb
  | false =>
    rcases h with rfl | rfl
    · cases hb
    · exact List.mem_cons_of_mem _ hb

theorem IsSign.plain {sign : List UInt8} (h : IsSign minus sign) : ∀ b ∈ sign, Plain b := by
  have key : ∀ b ∈ ([0x2d, 0x2b] : List UInt8), Plain b := List.all_iff_forall_prop.mp (by decide)
  exact fun b hb => key b (h.mem hb)

theorem Spells.mem (h : Spells base ds bs) (hb : b ∈ bs) : ∃ d, Stands base d b := by
  induction h with
  | nil => cases hb
  | cons hd _ ih =>
    rcases List.mem_cons.mp hb with rfl | hb
    · exact ⟨_, hd⟩
    · exact ih hb

theorem Spells.plain (hbase : base ≤ 36) (h : Spells base ds bs) : ∀ b ∈ bs, Plain b := by
  intro b hb
  obtain ⟨d, hd, capital, rfl⟩ := h.mem hb
  exact (digitByte_plain capital (Nat.lt_of_lt_of_le hd hbase)).1

theorem Spells.unsigned (hbase : base ≤ 36) (h : Spells base ds bs) : Unsigned bs := by
  cases h with
  | nil => exact ⟨nofun, nofun⟩
  | cons hd _ =>
    obtain ⟨hd, capital, rfl⟩ := hd
    obtain ⟨-, hminus, hplus⟩ := digitByte_plain capital (Nat.lt_of_lt_of_le hd hbase)
    exact unsigned_cons hminus hplus

/-- A text between blanks: a sign, and digits of the base. -/
def Written (base : Nat) (text : Bytes) (minus : Bool) (ds : List Nat) : Prop :=
  ∃ sign body, Framed text.toList (sign ++ body) ∧ IsSign minus sign ∧ body ≠ [] ∧
    Spells base ds body

theorem readBase_eq_some (hbase : base ≤ 36) {text : Bytes} {v : Int64} :
    readBase text base = some v ↔
      ∃ minus ds, Written base text minus ds ∧ v = takenIn base minus ds := by
  have hread : readBase text base = if !Utf8.valid text then none
      else (digits? base (splitSign (trim text.toList)).2).map
        (takenIn base (splitSign (trim text.toList)).1) := rfl
  rw [hread]
  constructor
  · intro h
    split at h
    · cases h
    · obtain ⟨ds, hds, rfl⟩ := Option.map_eq_some_iff.mp h
      obtain ⟨hne, hds⟩ := (digits?_eq_some hbase).mp hds
      obtain ⟨sign, hsign, htrim⟩ := splitSign_spec (trim text.toList)
      refine ⟨_, ds, ⟨sign, _, ?_, hsign, hne, hds⟩, rfl⟩
      rw [← htrim]
      exact framed_trim _
  · intro h
    obtain ⟨minus, ds, ⟨sign, body, hframed, hsign, hne, hds⟩, rfl⟩ := h
    have hplain : ∀ b ∈ sign ++ body, Plain b := fun b hb =>
      (List.mem_append.mp hb).elim (hsign.plain b) (hds.plain hbase b)
    rw [hframed.valid hplain, hframed.trim_eq hplain, splitSign_append hsign (hds.unsigned hbase),
      (digits?_eq_some hbase).mpr ⟨hne, hds⟩]
    rfl

end Numeral

end LuaMachine
