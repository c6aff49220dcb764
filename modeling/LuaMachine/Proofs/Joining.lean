import LuaMachine.Proofs.Positions

/-!
# Joining the fields of a table

Joining reads the fields between two integers in order and writes their texts one after the other, a
separator between them.  The integers may be any: the last one may be the largest there is, so that
the loop cannot count past it.

* `Texts`, `Refuses`   what the fields between two bounds are for a join;
* `joinUpTo`           the loop with a 64-bit counter;
* `joinUpTo_cases`     it writes all the texts, or stops at the first field that has none;
* `joinFrom_gives`     the action runs as the loop does;
* `concat_joins_range` the library function, for all bounds.
-/

namespace LuaMachine

def Value.Joinable (v : Value) : Prop := v.ty = .string ∨ v.ty = .number

instance (v : Value) : Decidable v.Joinable :=
  inferInstanceAs (Decidable (v.ty = .string ∨ v.ty = .number))

theorem Value.joinable_iff {v : Value} : v.Joinable ↔ v.text? ≠ none := by
  unfold Joinable
  cases v <;> simp [ty, text?]

def Bytes.joined (sep : Bytes) (ts : List Bytes) : Bytes :=
  (sep.toList.intercalate (ts.map Array.toList)).toArray

namespace Bytes

variable {sep s : Bytes} {ts : List Bytes}

theorem joined_nil : joined sep [] = #[] := rfl

theorem joined_singleton : joined sep [s] = s := by
  unfold joined
  rw [List.map_singleton, List.intercalate_singleton]

theorem joined_cons (h : ts ≠ []) : joined sep (s :: ts) = s ++ sep ++ joined sep ts := by
  unfold joined
  rw [List.map_cons, List.intercalate_cons_of_ne_nil (mt List.map_eq_nil_iff.mp h)]
  apply Array.toList_inj.mp
  simp

end Bytes

namespace Table

open Checked

variable {t : Table} {i j k l : Int64} {sep s : Bytes} {ts us : List Bytes}

/-! ## the fields between two bounds -/

/-- The texts of the values under the integers from `i` to `j`, in order: each value has one. -/
structure Texts (t : Table) (i j : Int64) (ts : List Bytes) : Prop where
  length : ts.length = (j.toInt - i.toInt + 1).toNat
  text : ∀ k : Int64, i.toInt ≤ k.toInt → k.toInt ≤ j.toInt →
    (t.rawGet (.integer k)).text? = ts[(k.toInt - i.toInt).toNat]?

/-- The least integer from `i` to `j` whose value cannot be joined. -/
structure Refuses (t : Table) (i j k : Int64) : Prop where
  first : i.toInt ≤ k.toInt
  last : k.toInt ≤ j.toInt
  value : ¬(t.rawGet (.integer k)).Joinable
  least : ∀ l : Int64, i.toInt ≤ l.toInt → l.toInt < k.toInt → (t.rawGet (.integer l)).Joinable

theorem texts_nil (h : j.toInt < i.toInt) : Texts t i j [] :=
  ⟨by rw [Int.toNat_of_nonpos (by omega)]; rfl, fun _ _ _ => by omega⟩

theorem texts_singleton (hs : (t.rawGet (.integer i)).text? = some s) : Texts t i i [s] := by
  refine ⟨?_, fun k hik hki => ?_⟩
  · rw [Int.sub_self]
    rfl
  · obtain rfl : k = i := Int64.toInt_inj.mp (by omega)
    rw [hs, Int.sub_self]
    rfl

theorem Texts.cons (h : Texts t l j ts) (hl : l.toInt = k.toInt + 1) (hk : k.toInt ≤ j.toInt)
    (hs : (t.rawGet (.integer k)).text? = some s) : Texts t k j (s :: ts) := by
  have hlen := h.length
  refine ⟨by rw [List.length_cons]; omega, fun n hkn hnj => ?_⟩
  by_cases hn : n = k
  · subst hn
    rw [hs, Int.sub_self]
    rfl
  · have hne := mt Int64.toInt_inj.mp hn
    rw [h.text n (by omega) hnj,
      show (n.toInt - k.toInt).toNat = (n.toInt - l.toInt).toNat + 1 by omega,
      List.getElem?_cons_succ]

theorem Refuses.cons (h : Refuses t l j i) (hl : l.toInt = k.toInt + 1)
    (hs : (t.rawGet (.integer k)).text? = some s) : Refuses t k j i := by
  have hfirst := h.first
  refine ⟨by omega, h.last, h.value, fun n hkn hni => ?_⟩
  by_cases hn : n = k
  · subst hn
    exact Value.joinable_iff.mpr (by rw [hs]; simp)
  · have hne := mt Int64.toInt_inj.mp hn
    exact h.least n (by omega) hni

theorem Texts.joinable (h : Texts t i j ts) (hik : i.toInt ≤ k.toInt) (hkj : k.toInt ≤ j.toInt) :
    (t.rawGet (.integer k)).Joinable := by
  have hlen := h.length
  rw [Value.joinable_iff, h.text k hik hkj, List.getElem?_eq_getElem (by omega)]
  simp

theorem Texts.unique (h : Texts t i j ts) (h' : Texts t i j us) : us = ts := by
  have hlen : us.length = ts.length := h'.length.trans h.length.symm
  apply List.ext_getElem?
  intro p
  by_cases hp : p < ts.length
  · have hts := h.length
    have hi := i.le_toInt
    have hj := j.toInt_lt
    have hk : (Int64.ofInt (i.toInt + p)).toInt = i.toInt + p :=
      Int64.toInt_ofInt_of_le (by omega) (by omega)
    have e := h.text (Int64.ofInt (i.toInt + p)) (by omega) (by omega)
    have e' := h'.text (Int64.ofInt (i.toInt + p)) (by omega) (by omega)
    rw [hk, show (i.toInt + p - i.toInt).toNat = p by omega] at e e'
    exact e'.symm.trans e
  · rw [List.getElem?_eq_none (by omega), List.getElem?_eq_none (by omega)]

theorem Refuses.unique (h : Refuses t i j k) (h' : Refuses t i j l) : l = k := by
  apply Int64.toInt_inj.mp
  by_contra hne
  rcases Int.lt_or_gt_of_ne hne with hlt | hgt
  · exact h'.value (h.least l h'.first hlt)
  · exact h.value (h'.least k h.first hgt)

/-! ## the loop -/

def spacer (sep : Bytes) (k j : Int64) : Bytes := if k < j then sep else #[]

/-- The texts of the fields from `k` to `j`, written after what is already there, or the first index
whose value has no text.  Where an index has no successor the loop ends. -/
def joinUpTo (t : Table) (sep : Bytes) (j k : Int64) (written : Bytes) : Except Int64 Bytes :=
  if k ≤ j then
    match (t.rawGet (.integer k)).text? with
    | none => .error k
    | some s =>
      match _h : plus? k 1 with
      | some l => joinUpTo t sep j l (written ++ s ++ spacer sep k j)
      | none => .ok (written ++ s ++ spacer sep k j)
  else .ok written
termination_by (j.toInt - k.toInt + 1).toNat
decreasing_by
  have hl : l.toInt = k.toInt + 1 := toInt_of_plus? _h
  have hk := Int64.le_iff_toInt_le.mp ‹k ≤ j›
  omega

theorem spacer_of_lt (h : k.toInt < j.toInt) : spacer sep k j = sep :=
  if_pos (Int64.lt_iff_toInt_lt.mpr h)

theorem spacer_of_le (h : j.toInt ≤ k.toInt) : spacer sep k j = #[] :=
  if_neg (mt Int64.lt_iff_toInt_lt.mp (by omega))

theorem le_of_plus?_eq_none (h : plus? k 1 = none) (j : Int64) : j.toInt ≤ k.toInt := by
  have h1 : (1 : Int64).toInt = 1 := rfl
  have hj := j.toInt_lt
  have hk := k.le_toInt
  by_contra hlt
  obtain ⟨l, hl, -⟩ := exists_plus? (a := k) (b := 1) (by omega) (by omega)
  rw [h] at hl
  cases hl

/-- **The loop** writes the texts of all the fields, or stops at the first one that has none. -/
theorem joinUpTo_cases (t : Table) (sep : Bytes) (j k : Int64) (written : Bytes) :
    (∃ ts, Texts t k j ts ∧ joinUpTo t sep j k written = .ok (written ++ sep.joined ts)) ∨
      ∃ l, Refuses t k j l ∧ joinUpTo t sep j k written = .error l := by
  fun_induction joinUpTo t sep j k written with
  | case1 k written hk hs =>
    have hkj := Int64.le_iff_toInt_le.mp hk
    refine .inr ⟨k, ⟨Int.le_refl _, hkj, ?_, fun l _ _ => by omega⟩, rfl⟩
    exact fun h => Value.joinable_iff.mp h hs
  | case2 k written hk s hs l h ih =>
    have hkj := Int64.le_iff_toInt_le.mp hk
    have hl : l.toInt = k.toInt + 1 := toInt_of_plus? h
    obtain ⟨ts, hts, e⟩ | ⟨i, hi, e⟩ := ih
    · refine .inl ⟨s :: ts, hts.cons hl hkj hs, ?_⟩
      have hlen := hts.length
      rw [e]
      -- the separator is written exactly if there are texts left
      by_cases hlt : k.toInt < j.toInt
      · have hne : ts ≠ [] := List.ne_nil_of_length_pos (by omega)
        rw [spacer_of_lt hlt, Bytes.joined_cons hne]
        simp only [Array.append_assoc]
      · obtain rfl : ts = [] := List.length_eq_zero_iff.mp (by omega)
        rw [spacer_of_le (by omega), Bytes.joined_singleton, Bytes.joined_nil, Array.append_empty,
          Array.append_empty]
    · exact .inr ⟨i, hi.cons hl hs, e⟩
  | case3 k written hk s hs h =>
    have hkj := Int64.le_iff_toInt_le.mp hk
    -- only the largest integer has no successor, so this is the last field
    obtain rfl : k = j := Int64.toInt_inj.mp (Int.le_antisymm hkj (le_of_plus?_eq_none h j))
    refine .inl ⟨[s], texts_singleton hs, ?_⟩
    rw [spacer_of_le (Int.le_refl _), Bytes.joined_singleton, Array.append_empty]
  | case4 k written hk =>
    have hkj := mt Int64.le_iff_toInt_le.mpr hk
    refine .inl ⟨[], texts_nil (by omega), ?_⟩
    rw [Bytes.joined_nil, Array.append_empty]

end Table

/-! ## the arguments -/

namespace Library.Sequence

open Arguments

variable {T : Table} {t : TableId} {vs : List Value} {sep : Bytes} {i j : Int64}

/-- What the arguments of a join say: the table, the separator, and the bounds.  Left out or nil,
the separator is empty and the bounds are one and the length of the table. -/
structure ConcatArguments (T : Table) (vs : List Value) (t : TableId) (sep : Bytes) (i j : Int64) :
    Prop where
  table : get? vs 1 = some (.table t)
  separator : isOmitted vs 2 = true ∧ sep = #[] ∨ ∃ v, get? vs 2 = some v ∧ v.text? = some sep
  first : isOmitted vs 3 = true ∧ i = 1 ∨ ∃ v, get? vs 3 = some v ∧ v.StandsFor i
  last : isOmitted vs 4 = true ∧ j = Int64.ofNat T.length ∨ ∃ v, get? vs 4 = some v ∧ v.StandsFor j

theorem ConcatArguments.table_eq (h : ConcatArguments T vs t sep i j) (f : String) :
    Arguments.table vs 1 f = .ok t := by
  unfold Arguments.table
  rw [h.table]

theorem ConcatArguments.bytesOrEmpty_eq (h : ConcatArguments T vs t sep i j) (f : String) :
    bytesOrEmpty vs 2 f = .ok sep := by
  unfold bytesOrEmpty
  obtain ⟨ho, rfl⟩ | ⟨v, hv, hs⟩ := h.separator
  · rw [if_pos ho]
  · have hne : v ≠ .nil := by
      rintro rfl
      cases hs
    rw [isOmitted_eq_false hv hne]
    exact bytes_eq hv hs f

theorem ConcatArguments.integerOr_eq (h : ConcatArguments T vs t sep i j) (f : String) :
    integerOr vs 3 f 1 = .ok i := by
  obtain ⟨ho, rfl⟩ | ⟨v, hv, hi⟩ := h.first
  · exact if_pos ho
  · exact integerOr_given hv hi f 1

end Library.Sequence

/-! ## the action -/

namespace Machine

open Table Library.Sequence

variable {m : Machine} {t : TableId} {vs : List Value} {sep s written : Bytes} {i j k : Int64}

theorem rangeSize_of_le (h : k.toInt ≤ j.toInt) :
    rangeSize k j = (j.toInt - k.toInt).toNat + 1 := by
  unfold rangeSize
  omega

theorem Gives.bind_error {α β : Type} {body : Job → Action Turn} {a : Action α} {n : Machine}
    {e : Exit} (hg : Gives body a m (.error e) n) (g : α → Action β) :
    Gives body (a.bind g) m (.error e) n := by
  intro q l
  rw [Machine.performs_bind]
  constructor
  · rintro (⟨y, m', ha, -⟩ | ⟨e', ha, rfl⟩)
    · cases ((hg _ _).mp ha).1
    · obtain ⟨he, rfl⟩ := (hg _ _).mp ha
      cases he
      exact ⟨rfl, rfl⟩
  · rintro ⟨rfl, rfl⟩
    exact .inr ⟨e, (hg _ _).mpr ⟨rfl, rfl⟩, rfl⟩

section
variable (ht : (m.heap.table t).metatable = none)
include ht

theorem lengthOf_gives (f : String) :
    Gives Job.body (lengthOf t f) m (.ok (Int64.ofNat (m.heap.table t).length)) m := by
  have hnone : m.heap.metamethod? (.table t) .length = none := by
    show (m.heap.table t).metatable.bind _ = none
    rw [ht]
    rfl
  have hlen : Gives Job.body (Action.length (.table t)) m
      (.ok (.count (m.heap.table t).length)) m := by
    have hno : Gives Job.body (Action.metamethod? (.table t) .length) m (.ok none) m := by
      rw [← hnone]
      exact fun _ _ => Iff.rfl
    exact hno.bind fun _ _ => Iff.rfl
  exact hlen.bind fun _ _ => Iff.rfl

theorem joinFrom_step (hkj : k.toInt ≤ j.toInt)
    (hs : ((m.heap.table t).rawGet (.integer k)).text? = some s) {q : Except Exit Bytes}
    (hrest : Gives Job.body (joinFrom (.table t) sep (k.toInt + 1) (written ++ s ++ spacer sep k j)
      (j.toInt - k.toInt).toNat) m q m) :
    Gives Job.body (joinFrom (.table t) sep k.toInt written (rangeSize k j)) m q m := by
  rw [rangeSize_of_le hkj]
  refine (gives_index_of_value (m.heap.lookup_of_metatable_none ht _)).bind ?_
  rw [Int64.ofInt_toInt, hs]
  have hspace : (if (j.toInt - k.toInt).toNat == 0 then written ++ s else written ++ s ++ sep) =
      written ++ s ++ spacer sep k j := by
    by_cases hlt : k.toInt < j.toInt
    · rw [spacer_of_lt hlt, if_neg (by simp; omega)]
    · rw [spacer_of_le (by omega), Array.append_empty, if_pos (by simp; omega)]
  show Gives Job.body (joinFrom (.table t) sep (k.toInt + 1) (if _ then _ else _) _) m q m
  rw [hspace]
  exact hrest

def joinEnd : Except Int64 Bytes → Except Exit Bytes
  | .ok s => .ok s
  | .error k => .error (.failed (.complaint (.concatValue k)))

/-- **Joining a run of fields** goes as the loop does, and nothing changes. -/
theorem joinFrom_gives (sep : Bytes) (j k : Int64) (written : Bytes) :
    Gives Job.body (joinFrom (.table t) sep k.toInt written (rangeSize k j)) m
      (joinEnd (joinUpTo (m.heap.table t) sep j k written)) m := by
  fun_induction joinUpTo (m.heap.table t) sep j k written with
  | case1 k written hk hs =>
    rw [rangeSize_of_le (Int64.le_iff_toInt_le.mp hk)]
    refine (gives_index_of_value (m.heap.lookup_of_metatable_none ht _)).bind ?_
    rw [Int64.ofInt_toInt, hs]
    exact gives_exit _
  | case2 k written hk s hs l h ih =>
    have hkj := Int64.le_iff_toInt_le.mp hk
    have hl : l.toInt = k.toInt + 1 := Checked.toInt_of_plus? h
    refine joinFrom_step ht hkj hs ?_
    have hsize : rangeSize l j = (j.toInt - k.toInt).toNat := by
      unfold rangeSize
      omega
    rw [← hl, ← hsize]
    exact ih
  | case3 k written hk s hs h =>
    have hkj := Int64.le_iff_toInt_le.mp hk
    have hjk := le_of_plus?_eq_none h j
    refine joinFrom_step ht hkj hs ?_
    rw [Int.toNat_of_nonpos (by omega)]
    exact fun _ _ => Iff.rfl
  | case4 k written hk =>
    have hkj := mt Int64.le_iff_toInt_le.mpr hk
    rw [rangeSize, Int.toNat_of_nonpos (by omega)]
    exact fun _ _ => Iff.rfl

theorem integerOrLength_gives (h : ConcatArguments (m.heap.table t) vs t sep i j) (f : String) :
    Gives Job.body (integerOrLength vs 4 t f) m (.ok j) m := by
  unfold integerOrLength
  obtain ⟨ho, rfl⟩ | ⟨v, hv, hj⟩ := h.last
  · rw [if_pos ho]
    exact lengthOf_gives ht f
  · rw [Arguments.isOmitted_eq_false hv hj.ne_nil]
    show Gives Job.body (Action.ofExcept (Arguments.integerOf (Arguments.get? vs 4) 4 f)) m _ m
    rw [hv, hj.integerOf]
    exact fun _ _ => Iff.rfl

theorem concat_gives (h : ConcatArguments (m.heap.table t) vs t sep i j) :
    Gives Job.body (concat vs) m
      ((joinEnd (joinUpTo (m.heap.table t) sep j i #[])).map fun s => [.string s]) m := by
  have hjoin := joinFrom_gives ht sep j i #[]
  unfold concat
  rw [h.table_eq, h.bytesOrEmpty_eq, h.integerOr_eq]
  refine (integerOrLength_gives ht h "concat").bind ?_
  cases hr : joinUpTo (m.heap.table t) sep j i #[] with
  | ok out =>
    rw [hr] at hjoin
    exact hjoin.bind fun _ _ => Iff.rfl
  | error k =>
    rw [hr] at hjoin
    exact hjoin.bind_error _

end

/-! ## all tables and all bounds -/

section
variable {heap : Heap} {first now : Action Turn}

/-- **Joining a range.**  For a table without a metatable, any separator and any two bounds, every
call replies, as the loop with a 64-bit counter does, and changes nothing.  If each value between
the bounds is a string or a number, the result is their texts in order with the separator between
them, which is empty if the bounds are out of order; otherwise the call fails and names the least
index whose value is neither. -/
theorem concat_joins_range (hr : Run Job.body (initial heap, first) (m, now))
    (hroom : m.current.depth < Strand.maxDepth) (ht : (m.heap.table t).metatable = none)
    (hargs : ConcatArguments (m.heap.table t) vs t sep i j) :
    ∃ r, LibraryGives m .concat vs r m ∧
      r = ((joinEnd (joinUpTo (m.heap.table t) sep j i #[])).map fun s => [.string s]) ∧
      ((∀ k : Int64, i.toInt ≤ k.toInt → k.toInt ≤ j.toInt →
          ((m.heap.table t).rawGet (.integer k)).Joinable) →
        ∃ ts, Texts (m.heap.table t) i j ts ∧ r = .ok [.string (sep.joined ts)]) ∧
      (j.toInt < i.toInt → r = .ok [.string #[]]) ∧
      (¬(∀ k : Int64, i.toInt ≤ k.toInt → k.toInt ≤ j.toInt →
          ((m.heap.table t).rawGet (.integer k)).Joinable) →
        ∃ k, Refuses (m.heap.table t) i j k ∧
          r = .error (.failed (.complaint (.concatValue k))) ∧
          (Failure.complaint (.concatValue k)).message =
            Bytes.ofString "invalid value (at index " ++ Bytes.ofInt k.toInt ++
              Bytes.ofString ") in table for 'concat'") := by
  have h : m.Valid := (valid_initial heap).run hr
  have hg := concat_gives (m := m.calling) ht hargs
  change Gives _ _ _ ((joinEnd (joinUpTo (m.heap.table t) sep j i #[])).map _) _ at hg
  obtain ⟨ts, hts, e⟩ | ⟨k, hk, e⟩ := joinUpTo_cases (m.heap.table t) sep j i #[]
  · rw [Array.empty_append] at e
    rw [e] at hg ⊢
    refine ⟨_, h.libraryGives hroom hg rfl rfl, rfl, fun _ => ⟨ts, hts, rfl⟩, fun hji => ?_,
      fun hnot => absurd (fun k hik hkj => hts.joinable hik hkj) hnot⟩
    have hlen := hts.length
    obtain rfl : ts = [] := List.length_eq_zero_iff.mp (by omega)
    rfl
  · rw [e] at hg ⊢
    have hfirst := hk.first
    have hlast := hk.last
    exact ⟨_, h.libraryGives hroom hg rfl rfl, rfl,
      fun hall => absurd (hall k hfirst hlast) hk.value, fun hji => by omega,
      fun _ => ⟨k, hk, rfl, rfl⟩⟩

end

def spread : Table :=
  (ofList [.text "a", .integer 7]).edit (.setInt Int64.maxValue (.text "z"))

def spreadHeap : Heap :=
  { tables := #[spread], functions := #[.builtin .concat], shared := [], locals := #[], log := [] }

def spreadMachine : Machine := initial spreadHeap

/-- With the default bounds the two values are joined; up to the largest integer, its value is read,
and the first gap before it is named. -/
theorem concat_joins_range_spread :
    LibraryGives spreadMachine .concat [.table ⟨0⟩, .text ", "] (.ok [.text "a, 7"])
      spreadMachine ∧
    LibraryGives spreadMachine .concat
      [.table ⟨0⟩, .text ", ", .integer Int64.maxValue, .integer Int64.maxValue]
      (.ok [.text "z"]) spreadMachine ∧
    LibraryGives spreadMachine .concat [.table ⟨0⟩, .nil, .integer 2, .integer Int64.maxValue]
      (.error (.failed (.complaint (.concatValue 3)))) spreadMachine := by
  have hr : Run Job.body (initial spreadHeap, answer (.ok [])) (spreadMachine, answer (.ok [])) :=
    .refl
  have hbare : (spreadMachine.heap.table ⟨0⟩).metatable = none := by decide +kernel
  have hstands : ∀ n : Int64, (Value.integer n).StandsFor n := fun _ _ => rfl
  have h1 : (spread.rawGet (.integer 1)).text? = some (Bytes.ofString "a") := by decide +kernel
  have h2 : (spread.rawGet (.integer 2)).text? = some (Bytes.ofString "7") := by decide +kernel
  have h3 : ¬(spread.rawGet (.integer 3)).Joinable := by decide +kernel
  have hz : (spread.rawGet (.integer Int64.maxValue)).text? = some (Bytes.ofString "z") := by
    decide +kernel
  refine ⟨?_, ?_, ?_⟩
  · have hargs : ConcatArguments spread [.table ⟨0⟩, .text ", "] ⟨0⟩ (Bytes.ofString ", ") 1 2 :=
      ⟨rfl, .inr ⟨_, rfl, rfl⟩, .inl ⟨rfl, rfl⟩, .inl ⟨rfl, by decide +kernel⟩⟩
    obtain ⟨r, hlib, -, hjoin, -⟩ := concat_joins_range hr (by decide) hbare hargs
    have htexts : Texts spread 1 2 [Bytes.ofString "a", Bytes.ofString "7"] :=
      (texts_singleton h2).cons rfl (by decide) h1
    obtain ⟨ts, hts, rfl⟩ := hjoin fun k hik hkj => htexts.joinable hik hkj
    rw [htexts.unique hts] at hlib
    exact hlib
  · have hargs : ConcatArguments spread
        [.table ⟨0⟩, .text ", ", .integer Int64.maxValue, .integer Int64.maxValue] ⟨0⟩
        (Bytes.ofString ", ") Int64.maxValue Int64.maxValue :=
      ⟨rfl, .inr ⟨_, rfl, rfl⟩, .inr ⟨_, rfl, hstands _⟩, .inr ⟨_, rfl, hstands _⟩⟩
    obtain ⟨r, hlib, -, hjoin, -⟩ := concat_joins_range hr (by decide) hbare hargs
    have htexts : Texts spread Int64.maxValue Int64.maxValue [Bytes.ofString "z"] :=
      texts_singleton hz
    obtain ⟨ts, hts, rfl⟩ := hjoin fun k hik hkj => htexts.joinable hik hkj
    rw [htexts.unique hts] at hlib
    exact hlib
  · have hargs : ConcatArguments spread
        [.table ⟨0⟩, .nil, .integer 2, .integer Int64.maxValue] ⟨0⟩ #[] 2 Int64.maxValue :=
      ⟨rfl, .inl ⟨rfl, rfl⟩, .inr ⟨_, rfl, hstands _⟩, .inr ⟨_, rfl, hstands _⟩⟩
    obtain ⟨r, hlib, -, -, -, hfail⟩ := concat_joins_range hr (by decide) hbare hargs
    have hthree : Refuses spread 3 Int64.maxValue 3 :=
      ⟨Int.le_refl _, by decide, h3, fun _ _ _ => by omega⟩
    have hrefuses : Refuses spread 2 Int64.maxValue 3 := hthree.cons rfl h2
    obtain ⟨k, hk, rfl, -⟩ := hfail fun hall => h3 (hall 3 (by decide) (by decide))
    rw [hrefuses.unique hk] at hlib
    exact hlib

end Machine

end LuaMachine
