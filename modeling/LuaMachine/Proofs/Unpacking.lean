import LuaMachine.Proofs.Chains
import LuaMachine.Proofs.Shifting

/-!
# Packing and unpacking

Packing puts values into a new table, nils left out, and their number under `n`; unpacking reads the
fields between two integers.  The one undoes the other, wherever the nils are, and between any two
integers unpacking reads each key between them once, or refuses if there are too many.

* `Checked`          sums and opposites of 64-bit integers that may not overflow, and the integers
                     between two of them made with such sums;
* `Spans`            the values under the integers between two bounds, in order;
* `getKey_ofList`    what is read from the table of a list;
* `spans_packed`     a packed table has the values;
* `maxUnpacked_le_iff`    the test of the number of fields, also where the difference does not fit;
* `fieldsThrough_gives`   reading a run of fields, one step for each;
* `pack_unpack`      the library functions, for all bounds.
-/

namespace LuaMachine

/-! ## 64-bit arithmetic -/

namespace Checked

variable {a b c k last : Int64}

def plus? (a b : Int64) : Option Int64 :=
  if -2 ^ 63 ≤ a.toInt + b.toInt ∧ a.toInt + b.toInt < 2 ^ 63 then some (a + b) else none

def minus? (a : Int64) : Option Int64 := if a = Int64.minValue then none else some (-a)

def count? (a : Int64) : Option Nat := if 0 ≤ a.toInt then some a.toInt.toNat else none

theorem toInt_of_plus? (h : plus? a b = some c) : c.toInt = a.toInt + b.toInt := by
  unfold plus? at h
  split at h
  · obtain rfl := Option.some.inj h
    rw [Int64.toInt_add, Int.bmod_eq_of_le]
    all_goals omega
  · cases h

theorem exists_plus? (h1 : -2 ^ 63 ≤ a.toInt + b.toInt) (h2 : a.toInt + b.toInt < 2 ^ 63) :
    ∃ c, plus? a b = some c ∧ c.toInt = a.toInt + b.toInt :=
  ⟨a + b, if_pos ⟨h1, h2⟩, toInt_of_plus? (if_pos ⟨h1, h2⟩)⟩

theorem exists_minus? (h : 0 ≤ a.toInt) : ∃ c, minus? a = some c ∧ c.toInt = -a.toInt := by
  have hne : a ≠ Int64.minValue := by
    rintro rfl
    exact absurd h (by decide)
  have hlt := Int64.toInt_lt a
  refine ⟨-a, if_neg hne, ?_⟩
  rw [Int64.toInt_neg, Int.bmod_eq_of_le]
  all_goals omega

theorem count?_eq (h : 0 ≤ a.toInt) : count? a = some a.toInt.toNat := if_pos h

/-- The integers from `k` to `last` in order, each made from the one before it by adding one, if no
sum overflows. -/
def range? (last k : Int64) : Option (List Int64) :=
  if k < last then
    match _h : plus? k 1 with
    | some next => (range? last next).map (k :: ·)
    | none => none
  else if k = last then some [k]
  else some []
termination_by (last.toInt - k.toInt).toNat
decreasing_by
  have hnext : next.toInt = k.toInt + 1 := toInt_of_plus? _h
  have hk := Int64.lt_iff_toInt_lt.mp ‹k < last›
  omega

theorem range?_of_lt {next : Int64} (hk : k < last) (hnext : plus? k 1 = some next) :
    range? last k = (range? last next).map (k :: ·) := by
  rw [range?, if_pos hk]
  split
  · rename_i n hn
    rw [Option.some.inj (hn.symm.trans hnext)]
  · rename_i hn
    cases hn.symm.trans hnext

/-- **No sum overflows between two integers**, wherever they are: the last one is not counted on. -/
theorem range?_eq_some (last k : Int64) : ∃ ks, range? last k = some ks ∧
    ks.map Int64.toInt
      = (List.range (last.toInt - k.toInt + 1).toNat).map fun p : Nat => k.toInt + p := by
  have hone : (1 : Int64).toInt = 1 := rfl
  have hlast := last.toInt_lt
  fun_induction range? last k with
  | case1 k hk next hnext ih =>
    have hlt := Int64.lt_iff_toInt_lt.mp hk
    have hint := toInt_of_plus? hnext
    obtain ⟨ks, hks, hmap⟩ := ih
    refine ⟨k :: ks, by rw [hks]; rfl, ?_⟩
    have hsize : (last.toInt - k.toInt + 1).toNat = (last.toInt - next.toInt + 1).toNat + 1 := by
      omega
    rw [List.map_cons, hmap, hsize, List.range_succ_eq_map, List.map_cons, List.map_map]
    refine congrArg₂ List.cons (by omega) (List.map_congr_left fun p _ => ?_)
    show next.toInt + (p : Int) = k.toInt + ((p + 1 : Nat) : Int)
    omega
  | case2 k hk hnone =>
    have hlt := Int64.lt_iff_toInt_lt.mp hk
    have hlow := k.le_toInt
    obtain ⟨next, hnext, _⟩ := exists_plus? (a := k) (b := 1) (by omega) (by omega)
    cases hnone.symm.trans hnext
  | case3 hk =>
    refine ⟨[last], rfl, ?_⟩
    rw [Int.sub_self]
    show [last.toInt] = [last.toInt + ((0 : Nat) : Int)]
    rw [Int.natCast_zero, Int.add_zero]
  | case4 k hk he =>
    have hle := mt Int64.lt_iff_toInt_lt.mpr hk
    have hne := mt Int64.toInt_inj.mp he
    refine ⟨[], rfl, ?_⟩
    rw [Int.toNat_of_nonpos (by omega)]
    rfl

end Checked

namespace Table

variable {t : Table} {i j : Int64} {vs ws : List Value} {v : Value} {p : Nat}

/-! ## the values between two bounds -/

/-- The values under the integers from `i` to `j`, in order. -/
structure Spans (t : Table) (i j : Int64) (vs : List Value) : Prop where
  length : (vs.length : Int) = j.toInt - i.toInt + 1
  value : ∀ k : Int64, i.toInt ≤ k.toInt → k.toInt ≤ j.toInt →
    vs[(k.toInt - i.toInt).toNat]? = some (t.rawGet (.integer k))

/-- Each position of the values is that of an integer between the bounds. -/
theorem Spans.position (h : Spans t i j vs) (hp : p < vs.length) :
    ∃ k : Int64, k.toInt = i.toInt + p ∧ vs[p]? = some (t.rawGet (.integer k)) := by
  have hlen := h.length
  have hi := i.le_toInt
  have hj := j.toInt_lt
  have hk : (Int64.ofInt (i.toInt + p)).toInt = i.toInt + p :=
    Int64.toInt_ofInt_of_le (by omega) (by omega)
  refine ⟨Int64.ofInt (i.toInt + p), hk, ?_⟩
  have e := h.value (Int64.ofInt (i.toInt + p)) (by omega) (by omega)
  rw [hk, show (i.toInt + p - i.toInt).toNat = p by omega] at e
  exact e

theorem Spans.unique (h : Spans t i j vs) (h' : Spans t i j ws) : ws = vs := by
  have hlen : ws.length = vs.length := by
    have := h.length
    have := h'.length
    omega
  apply List.ext_getElem?
  intro p
  by_cases hp : p < vs.length
  · obtain ⟨k, hk, e⟩ := h.position hp
    obtain ⟨k', hk', e'⟩ := h'.position (p := p) (by omega)
    rw [e, e', Int64.toInt_inj.mp (hk'.trans hk.symm)]
  · rw [List.getElem?_eq_none (by omega), List.getElem?_eq_none (by omega)]

/-! ## the table of a list -/

theorem ofList_concat (vs : List Value) (v : Value) : ofList (vs ++ [v])
    = if v.isNil then ofList vs else (ofList vs).setInt (Int64.ofNat (vs.length + 1)) v := by
  unfold ofList
  rw [List.zipIdx_append, List.foldl_append, Nat.add_comm]
  rfl

theorem getKey_empty (k : Int64) : (empty 0).getKey (.integer k) = .nil := by
  by_contra hne
  have hh := ((inv_empty lastKey 0).holds_iff (.integer k)).mpr ⟨hne, rfl⟩
  cases hh.2

theorem getD_concat (vs : List Value) (v : Value) (p : Nat) :
    (vs ++ [v]).getD p .nil = if p = vs.length then v else vs.getD p .nil := by
  rw [List.getD_eq_getElem?_getD, List.getD_eq_getElem?_getD]
  rcases Nat.lt_trichotomy p vs.length with hp | hp | hp
  · rw [if_neg (by omega), List.getElem?_append_left hp]
  · rw [if_pos hp, hp, List.getElem?_concat_length]
    rfl
  · rw [if_neg (by omega), List.getElem?_eq_none (by rw [List.length_append]; exact hp),
      List.getElem?_eq_none (by omega)]

/-- **What is read from the table of a list**: each value under its position, and nil past them. -/
theorem getKey_ofList (hl : vs.length < 2 ^ 63) (hp : p + 1 < 2 ^ 63) :
    (ofList vs).getKey (.count (p + 1)) = vs.getD p .nil := by
  induction vs using List.reverseRecOn with
  | nil => exact getKey_empty _
  | append_singleton vs v ih =>
    rw [List.length_append, List.length_singleton] at hl
    have hbefore := ih (by omega)
    rw [ofList_concat, getD_concat]
    split
    · -- a nil is not stored, and its key was absent
      rename_i hv
      rw [hbefore, Value.isNil_iff.mp hv]
      split
      · rename_i hp
        rw [hp, List.getD_eq_getElem?_getD, List.getElem?_eq_none (Nat.le_refl _)]
        rfl
      · rfl
    · have hinv : (ofList vs).Inv lastKey := Made.inv (.ofList vs)
      refine (hinv.getKey_setKey (.count _) (.count _) v).trans ?_
      rw [hbefore]
      exact if_congr ((Value.count_inj hp hl).trans Nat.succ_inj) rfl rfl

def packed (vs : List Value) : Table := (ofList vs).setKey (.text "n") (.count vs.length)

theorem metatable_packed (vs : List Value) : (packed vs).metatable = none := by
  refine (metatable_setKey _ _ _).trans ?_
  exact ofList_induction (Q := (·.metatable = none)) rfl
    (fun t k v ht => (metatable_setInt t k v).trans ht) vs

theorem rawGet_packed_n (vs : List Value) :
    (packed vs).rawGet (.text "n") = .count vs.length := by
  have hinv : (ofList vs).Inv lastKey := Made.inv (.ofList vs)
  have hn : (Value.text "n").Plain := by decide
  exact (hinv.getKey_setKey hn hn _).trans (if_pos rfl)

theorem spans_packed (hl : vs.length < 2 ^ 63) :
    Spans (packed vs) 1 (Int64.ofNat vs.length) vs := by
  have hinv : (ofList vs).Inv lastKey := Made.inv (.ofList vs)
  have hn : (Value.text "n").Plain := by decide
  have hj := Value.toInt_ofNat hl
  have h1 : (1 : Int64).toInt = 1 := rfl
  refine ⟨by omega, fun k hik hkj => ?_⟩
  obtain ⟨p, hp⟩ : ∃ p : Nat, k.toInt = (p + 1 : Nat) := ⟨(k.toInt - 1).toNat, by omega⟩
  have hkey : Value.integer k = .count (p + 1) := Value.integer_eq_count hp
  have hread : (packed vs).rawGet (.integer k) = vs.getD p .nil := by
    refine (hinv.getKey_setKey hn (.integer k) _).trans ?_
    rw [if_neg nofun, hkey]
    exact getKey_ofList hl (by omega)
  rw [hread, show (k.toInt - (1 : Int64).toInt).toNat = p by omega, List.getD_eq_getElem?_getD,
    List.getElem?_eq_getElem (by omega)]
  rfl

end Table

/-! ## the library functions -/

theorem Heap.table_addTable (h : Heap) (T : Table) : (h.addTable T).table h.nextTable = T := by
  unfold addTable table nextTable
  rw [Array.getD_eq_getD_getElem?, Array.getElem?_push_size]
  rfl

theorem Heap.lookup_of_metatable_none {h : Heap} {t : TableId} (ht : (h.table t).metatable = none)
    (key : Value) : h.lookup (.table t) key = .value ((h.table t).rawGet key) := by
  by_cases hc : (h.table t).contains key = true
  · exact lookupWithin_present hc
  · have hnil : (h.table t).rawGet key = .nil := by
      by_contra hne
      exact hc (Table.contains_iff.mpr hne)
    rw [hnil]
    refine lookupWithin_bare hc ?_
    show (h.table t).metatable.bind _ = none
    rw [ht]
    rfl

theorem Value.StandsFor.integerOf {x : Value} {n : Int64} (h : x.StandsFor n) (i : Nat)
    (f : String) : Arguments.integerOf (some x) i f = .ok n := by
  have hf := h f
  unfold Arguments.integerOf at hf ⊢
  cases x with
  | integer k => exact hf
  | float x =>
    dsimp only at hf ⊢
    cases hx : x.toInteger? with
    | none => rw [hx] at hf; cases hf
    | some k => rw [hx] at hf; exact hf
  | string s =>
    dsimp only at hf ⊢
    cases hs : (Numeral.read s).bind (·.toValue.integer?) with
    | none => rw [hs] at hf; cases hf
    | some k => rw [hs] at hf; exact hf
  | _ => cases hf

theorem Value.StandsFor.ne_nil {x : Value} {n : Int64} (h : x.StandsFor n) : x ≠ .nil := by
  intro e
  subst e
  cases h ""

namespace Library.Sequence

variable {t : TableId} {i j : Int64} {x y : Value}

theorem unpack_eq (hx : x.StandsFor i) (hy : y.StandsFor j) : unpack [.table t, x, y]
    = if j < i then .done []
      else if maxUnpacked ≤ saturatingSub j i then .exit (.failed (.complaint .tooManyResults))
      else fieldsThrough (.table t) j i [] := by
  have hi : Arguments.integerOr [.table t, x, y] 2 "unpack" 1 = .ok i :=
    (if_neg (mt Value.isNil_iff.mp hx.ne_nil)).trans (hx.integerOf 2 "unpack")
  have hj : integerOrLength [.table t, x, y] 3 t "unpack" = .done j := by
    refine (if_neg (mt Value.isNil_iff.mp hy.ne_nil)).trans ?_
    show Action.ofExcept (Arguments.integerOf (some y) 3 "unpack") = _
    rw [hy.integerOf]
    rfl
  unfold unpack
  rw [hi]
  show (integerOrLength [.table t, x, y] 3 t "unpack").bind _ = _
  rw [hj]
  show ite _ _ (ite _ _ _) = ite _ _ (ite _ _ _)
  split
  · rfl
  · split <;> rfl

theorem maxUnpacked_le_iff :
    maxUnpacked ≤ saturatingSub j i ↔ 2 ^ 20 < j.toInt - i.toInt + 1 := by
  have hmax : maxUnpacked.toInt = 2 ^ 20 := rfl
  have hleast : Int64.minValue.toInt = -2 ^ 63 := rfl
  have hgreatest : Int64.maxValue.toInt = 2 ^ 63 - 1 := rfl
  rw [Int64.le_iff_toInt_le, hmax]
  unfold saturatingSub
  dsimp only
  split
  · omega
  · split
    · omega
    · rw [Int64.toInt_sub, Int.bmod_eq_of_le (by omega) (by omega)]
      omega

end Library.Sequence

namespace Machine

open Table Library.Sequence

variable {m : Machine} {t : TableId} {i j : Int64} {x y : Value} {vs : List Value}

/-- **Reading a run of fields**: one step for each key of the range, and nothing changes. -/
theorem fieldsThrough_gives (ht : (m.heap.table t).metatable = none) (last k : Int64)
    (before : List Value) {ks : List Int64} (hks : Checked.range? last k = some ks) :
    Gives Job.body (fieldsThrough (.table t) last k before) m
      (.ok (before.reverse ++ ks.map fun k => (m.heap.table t).rawGet (.integer k))) m := by
  have hread := fun k : Int64 =>
    gives_index_of_value (m.heap.lookup_of_metatable_none ht (.integer k))
  fun_induction fieldsThrough (.table t) last k before generalizing ks with
  | case1 k before hk ih =>
    have hlast := last.toInt_lt
    have hlt := Int64.lt_iff_toInt_lt.mp hk
    have hlow := k.le_toInt
    have hone : (1 : Int64).toInt = 1 := rfl
    have hnext : Checked.plus? k 1 = some (k + 1) := if_pos ⟨by omega, by omega⟩
    rw [Checked.range?_of_lt hk hnext] at hks
    obtain ⟨ls, hls, rfl⟩ := Option.map_eq_some_iff.mp hks
    refine (hread k).bind ?_
    have hrest := ih ((m.heap.table t).rawGet (.integer k)) hls
    rwa [List.reverse_cons, List.append_assoc, List.singleton_append] at hrest
  | case2 before hk =>
    rw [Checked.range?, if_neg hk, if_pos rfl] at hks
    obtain rfl := Option.some.inj hks
    refine (hread last).bind ?_
    rw [List.map_singleton, ← List.reverse_cons]
    exact fun _ _ => Iff.rfl
  | case3 k before hk he =>
    rw [Checked.range?, if_neg hk, if_neg he] at hks
    obtain rfl := Option.some.inj hks
    rw [List.map_nil, List.append_nil]
    exact fun _ _ => Iff.rfl

theorem spans_range (T : Table) (hij : i.toInt ≤ j.toInt) {ks : List Int64}
    (hks : Checked.range? j i = some ks) : Spans T i j (ks.map fun k => T.rawGet (.integer k)) := by
  obtain ⟨_, hks', hmap⟩ := Checked.range?_eq_some j i
  obtain rfl := Option.some.inj (hks'.symm.trans hks)
  have hlen := congrArg List.length hmap
  rw [List.length_map, List.length_map, List.length_range] at hlen
  refine ⟨by rw [List.length_map]; omega, fun k hik hkj => ?_⟩
  have hget := congrArg (·[(k.toInt - i.toInt).toNat]?) hmap
  rw [List.getElem?_map, List.getElem?_map, List.getElem?_range (by omega), Option.map_some,
    Option.map_eq_some_iff] at hget
  obtain ⟨k', hk', hint⟩ := hget
  obtain rfl : k' = k := Int64.toInt_inj.mp (by omega)
  rw [List.getElem?_map, hk']
  rfl

section
variable (h : m.Valid) (hroom : m.current.depth < Strand.maxDepth)
include h hroom

theorem Valid.libraryGives_pack (vs : List Value) :
    LibraryGives m .pack vs (.ok [.table m.heap.nextTable])
      { m with heap := m.heap.addTable (packed vs) } := by
  have hg : Gives Job.body (Builtin.run .pack vs) m.calling (.ok [.table m.heap.nextTable])
      { m.calling with heap := m.heap.addTable (packed vs) } := fun _ _ => Iff.rfl
  exact h.libraryGives hroom hg rfl rfl

variable (ht : (m.heap.table t).metatable = none) (hx : x.StandsFor i) (hy : y.StandsFor j)
include hx hy

theorem Valid.libraryGives_unpack_refused (hsize : 2 ^ 20 < j.toInt - i.toInt + 1) :
    LibraryGives m .unpack [.table t, x, y] (.error (.failed (.complaint .tooManyResults))) m := by
  have hg : Gives Job.body (unpack [.table t, x, y]) m.calling
      (.error (.failed (.complaint .tooManyResults))) m.calling := by
    have horder : ¬ j < i := by
      rw [Int64.lt_iff_toInt_lt]
      omega
    rw [unpack_eq hx hy, if_neg horder, if_pos (maxUnpacked_le_iff.mpr hsize)]
    exact gives_exit _
  exact h.libraryGives hroom hg rfl rfl

include ht

theorem Valid.libraryGives_unpack (hsize : j.toInt - i.toInt + 1 ≤ 2 ^ 20) {ks : List Int64}
    (hks : Checked.range? j i = some ks) : LibraryGives m .unpack [.table t, x, y]
      (.ok (ks.map fun k => (m.heap.table t).rawGet (.integer k))) m := by
  have hg : Gives Job.body (unpack [.table t, x, y]) m.calling
      (.ok (ks.map fun k => (m.heap.table t).rawGet (.integer k))) m.calling := by
    rw [unpack_eq hx hy]
    by_cases horder : j < i
    · have hlt := Int64.lt_iff_toInt_lt.mp horder
      rw [Checked.range?, if_neg (mt Int64.lt_iff_toInt_lt.mp (by omega)),
        if_neg (mt Int64.toInt_inj.mpr (by omega))] at hks
      obtain rfl := Option.some.inj hks
      rw [if_pos horder]
      exact fun _ _ => Iff.rfl
    · rw [if_neg horder, if_neg (mt maxUnpacked_le_iff.mp (by omega))]
      exact fieldsThrough_gives (m := m.calling) ht j i [] hks
  exact h.libraryGives hroom hg rfl rfl

end

/-! ## all values and all bounds -/

section
variable {heap : Heap} {first now : Action Turn}

/-- **Packing and unpacking.**  Up to `2^20` values, nils anywhere among them, are given back when
the table they were packed into is unpacked from one to their number, which the table has under `n`.
From a table without a metatable, unpacking between any two integers gives nothing if they are out
of order, fails exactly if there are more than `2^20` integers from one to the other, and otherwise
gives the raw value under each of these integers in order.  The integers are counted up without an
overflow, the largest one included.  It never changes anything. -/
theorem pack_unpack (hr : Run Job.body (initial heap, first) (m, now))
    (hroom : m.current.depth < Strand.maxDepth) :
    (∀ vs : List Value, vs.length ≤ 2 ^ 20 → ∃ table : Table,
      table.rawGet (.text "n") = .count vs.length ∧
      LibraryGives m .pack vs (.ok [.table m.heap.nextTable])
        { m with heap := m.heap.addTable table } ∧
      ∀ x y : Value, x.StandsFor 1 → y.StandsFor (Int64.ofNat vs.length) →
        LibraryGives { m with heap := m.heap.addTable table } .unpack
          [.table m.heap.nextTable, x, y] (.ok vs) { m with heap := m.heap.addTable table }) ∧
    (Failure.complaint .tooManyResults).message = Bytes.ofString "too many results to unpack" ∧
    ∀ (t : TableId) (i j : Int64) (x y : Value), (m.heap.table t).metatable = none →
      x.StandsFor i → y.StandsFor j → ∃ r, LibraryGives m .unpack [.table t, x, y] r m ∧
        (j.toInt < i.toInt → r = .ok []) ∧
        (r = .error (.failed (.complaint .tooManyResults)) ↔ 2 ^ 20 < j.toInt - i.toInt + 1) ∧
        (i.toInt ≤ j.toInt → j.toInt - i.toInt + 1 ≤ 2 ^ 20 →
          ∃ vs, Spans (m.heap.table t) i j vs ∧ r = .ok vs ∧
            ∃ ks, Checked.range? j i = some ks ∧
              vs = ks.map fun k => (m.heap.table t).rawGet (.integer k)) := by
  have h : m.Valid := (valid_initial heap).run hr
  refine ⟨fun vs hl => ?_, rfl, fun t i j x y ht hx hy => ?_⟩
  · refine ⟨packed vs, rawGet_packed_n vs, h.libraryGives_pack hroom vs, fun x y hx hy => ?_⟩
    have hstep : m.step Job.body (.write (·.addTable (packed vs)) (.exit (.left [])))
        = .next { m with heap := m.heap.addTable (packed vs) } (.exit (.left [])) := rfl
    have hafter := h.step hstep
    have htable := m.heap.table_addTable (packed vs)
    have hn := Value.toInt_ofNat (show vs.length < 2 ^ 63 by omega)
    have h1 : (1 : Int64).toInt = 1 := rfl
    obtain ⟨ks, hks, hmap⟩ := Checked.range?_eq_some (Int64.ofNat vs.length) 1
    have hlib := hafter.libraryGives_unpack hroom (t := m.heap.nextTable)
      (by rw [htable]; exact metatable_packed vs) hx hy (by omega) hks
    rw [htable] at hlib
    by_cases hempty : vs = []
    · subst hempty
      obtain rfl : ks = [] := List.map_eq_nil_iff.mp hmap
      exact hlib
    · have hpos := List.length_pos_of_ne_nil hempty
      rw [(spans_packed (by omega)).unique (spans_range _ (by omega) hks)] at hlib
      exact hlib
  · by_cases hsize : 2 ^ 20 < j.toInt - i.toInt + 1
    · refine ⟨_, h.libraryGives_unpack_refused hroom hx hy hsize, fun hji => ?_, ?_,
        fun _ hle => ?_⟩
      · omega
      · exact ⟨fun _ => hsize, fun _ => rfl⟩
      · omega
    · obtain ⟨ks, hks, hmap⟩ := Checked.range?_eq_some j i
      refine ⟨_, h.libraryGives_unpack hroom ht hx hy (by omega) hks, fun hji => ?_, ?_,
        fun hij _ => ?_⟩
      · rw [Int.toNat_of_nonpos (by omega)] at hmap
        rw [List.map_eq_nil_iff.mp hmap]
        rfl
      · exact ⟨nofun, fun hgt => absurd hgt hsize⟩
      · exact ⟨_, spans_range _ hij hks, rfl, ks, hks, rfl⟩

end

def parcelHeap : Heap :=
  { tables := #[gapped], functions := #[.builtin .pack, .builtin .unpack], shared := [],
    locals := #[], log := [] }

def parcels : Machine := initial parcelHeap

/-- Values between nils come back; the whole range of integers is refused, and its last two keys are
read. -/
theorem pack_unpack_parcels :
    (∃ table : Table, table.rawGet (.text "n") = .integer 3 ∧
      LibraryGives parcels .pack [.nil, .integer 7, .nil] (.ok [.table ⟨1⟩])
        { parcels with heap := parcelHeap.addTable table } ∧
      LibraryGives { parcels with heap := parcelHeap.addTable table } .unpack
        [.table ⟨1⟩, .integer 1, .integer 3] (.ok [.nil, .integer 7, .nil])
        { parcels with heap := parcelHeap.addTable table }) ∧
    LibraryGives parcels .unpack [.table ⟨0⟩, .integer Int64.minValue, .integer Int64.maxValue]
      (.error (.failed (.complaint .tooManyResults))) parcels ∧
    ∃ vs, Spans gapped (Int64.maxValue - 1) Int64.maxValue vs ∧
      LibraryGives parcels .unpack [.table ⟨0⟩, .integer (Int64.maxValue - 1),
        .integer Int64.maxValue] (.ok vs) parcels := by
  have hr : Run Job.body (initial parcelHeap, answer (.ok [])) (parcels, answer (.ok [])) := .refl
  obtain ⟨hpack, -, hunpack⟩ := pack_unpack hr (by decide)
  have hstands : ∀ n : Int64, (Value.integer n).StandsFor n := fun _ _ => rfl
  obtain ⟨table, hn, hlib, hback⟩ := hpack [.nil, .integer 7, .nil] (by decide)
  obtain ⟨r, hwide, -, hrefused, -⟩ :=
    hunpack ⟨0⟩ Int64.minValue Int64.maxValue _ _ (by decide +kernel) (hstands _) (hstands _)
  obtain ⟨r', hlast, -, -, hread⟩ :=
    hunpack ⟨0⟩ (Int64.maxValue - 1) Int64.maxValue _ _ (by decide +kernel) (hstands _) (hstands _)
  obtain ⟨vs, hspans, rfl, -⟩ := hread (by decide) (by decide)
  rw [hrefused.mpr (by decide)] at hwide
  exact ⟨⟨table, hn, hlib, hback _ _ (hstands 1) (hstands 3)⟩, hwide, vs, hspans, hlast⟩

end Machine

end LuaMachine
