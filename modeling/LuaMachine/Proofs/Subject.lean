import LuaMachine.Proofs.Choice

/-!
# Places in the subject

The scans of the matcher find what the meaning of a pattern asks for.

* `stretch_iff_le_run`      a run is the longest stretch of bytes that pass a test;
* `balance?_eq_some_iff`    a balance ends at the first place where the bytes are level;
* `frontier_iff`            a frontier is a place where a set is entered, with zeros around the
  subject;
* `Bytes.agree_iff`         stretches agree if their slices are equal.
-/

namespace LuaMachine

/-! ## slices -/

theorem Bytes.toList_slice (s : Bytes) (i j : Nat) :
    (s.slice i j).toList = (s.toList.drop i).take (j - i) := by
  unfold slice
  rw [Array.toList_extract, List.extract_eq_take_drop]

theorem Bytes.drop_eq_slices (s : Bytes) {i j k : Nat} (hij : i ≤ j) (hjk : j ≤ k) :
    s.toList.drop i = (s.slice i j).toList ++ ((s.slice j k).toList ++ s.toList.drop k) := by
  rw [toList_slice, toList_slice]
  conv_lhs => rw [← List.take_append_drop (j - i) (s.toList.drop i)]
  rw [List.drop_drop, Nat.add_sub_cancel' hij]
  conv_lhs => rw [← List.take_append_drop (k - j) (s.toList.drop j)]
  rw [List.drop_drop, Nat.add_sub_cancel' hjk]

theorem Bytes.length_slice (s : Bytes) {i j : Nat} (hj : j ≤ s.size) :
    (s.slice i j).toList.length = j - i := by
  rw [toList_slice, List.length_take, List.length_drop, Array.length_toList]
  omega

theorem Bytes.toList_slice_cons {s : Bytes} {i j : Nat} (hij : i < j) (hi : i < s.size) :
    (s.slice i j).toList = s[i] :: (s.slice (i + 1) j).toList := by
  have hi' : i < s.toList.length := by simpa using hi
  unfold Bytes.slice
  rw [Array.toList_extract, Array.toList_extract, List.extract_eq_drop_take',
    List.extract_eq_drop_take', List.drop_take, List.drop_take, List.drop_eq_getElem_cons hi',
    show j - i = j - (i + 1) + 1 by omega, List.take_succ_cons, Array.getElem_toList]

theorem Bytes.toList_slice_self (s : Bytes) (i : Nat) : (s.slice i i).toList = [] := by
  unfold Bytes.slice
  simp

theorem Bytes.agree_iff {s t : Bytes} {i j n : Nat} (hi : i + n ≤ s.size) (hj : j + n ≤ t.size) :
    s.agree i t j n = true ↔ s.slice i (i + n) = t.slice j (j + n) := by
  rw [← Array.toList_inj]
  induction n generalizing i j with
  | zero =>
    rw [Nat.add_zero, Nat.add_zero, toList_slice_self, toList_slice_self]
    exact ⟨fun _ => rfl, fun _ => rfl⟩
  | succ n ih =>
    have hs : i < s.size := by omega
    have ht : j < t.size := by omega
    rw [toList_slice_cons (by omega) hs, toList_slice_cons (by omega) ht, List.cons_eq_cons,
      show i + (n + 1) = i + 1 + n by omega, show j + (n + 1) = j + 1 + n by omega,
      ← ih (by omega) (by omega)]
    show (s.getD i 0 == t.getD j 0 && s.agree (i + 1) t (j + 1) n) = true ↔ _
    rw [Bool.and_eq_true, beq_iff_eq, Array.getD_eq_getD_getElem?, Array.getD_eq_getD_getElem?,
      Array.getElem?_eq_getElem hs, Array.getElem?_eq_getElem ht]
    rfl

/-! ## runs -/

namespace Subject

variable {s : Bytes} {p : UInt8 → Bool} {i k n : Nat}

theorem at?_eq_true_iff : at? s p i = true ↔ ∃ b, s[i]? = some b ∧ p b = true := by
  unfold at?
  cases s[i]? with
  | none => simp
  | some b => simp

theorem lt_size_of_at? (h : at? s p i = true) : i < s.size := by
  obtain ⟨b, hb, _⟩ := at?_eq_true_iff.mp h
  exact (Array.getElem?_eq_some_iff.mp hb).1

theorem stretch_zero : Stretch s p i 0 := fun m hm => absurd hm (Nat.not_lt_zero m)

theorem stretch_succ_iff : Stretch s p i (k + 1) ↔ at? s p i = true ∧ Stretch s p (i + 1) k := by
  rw [at?_eq_true_iff]
  constructor
  · intro h
    refine ⟨h 0 (Nat.succ_pos k), fun m hm => ?_⟩
    rw [Nat.add_right_comm]
    exact h (m + 1) (Nat.succ_lt_succ hm)
  · rintro ⟨h0, h⟩ m hm
    cases m with
    | zero => exact h0
    | succ m =>
      rw [← Nat.add_assoc, Nat.add_right_comm]
      exact h m (Nat.lt_of_succ_lt_succ hm)

theorem Stretch.le_size (h : Stretch s p i k) (hi : i ≤ s.size) : i + k ≤ s.size := by
  cases k with
  | zero => exact hi
  | succ k =>
    obtain ⟨b, hb, _⟩ := h k (Nat.lt_succ_self k)
    exact (Array.getElem?_eq_some_iff.mp hb).1

theorem runEnd_spec (hn : i + n = s.size) :
    i ≤ runEnd s p i n ∧ ∀ k, Stretch s p i k ↔ i + k ≤ runEnd s p i n := by
  induction n generalizing i with
  | zero =>
    refine ⟨Nat.le_refl i, fun k => ⟨fun h => ?_, fun h => ?_⟩⟩
    · have hk : i + k ≤ s.size := h.le_size (by omega)
      show i + k ≤ i
      omega
    · have hk : k = 0 := by
        have : i + k ≤ i := h
        omega
      exact hk ▸ stretch_zero
  | succ n ih =>
    unfold runEnd
    by_cases hat : at? s p i = true
    · rw [if_pos hat]
      obtain ⟨hle, hiff⟩ := ih (i := i + 1) (by omega)
      refine ⟨by omega, fun k => ?_⟩
      cases k with
      | zero => exact ⟨fun _ => by omega, fun _ => stretch_zero⟩
      | succ k =>
        rw [stretch_succ_iff, hiff, show i + (k + 1) = i + 1 + k by omega]
        exact ⟨And.right, fun h => ⟨hat, h⟩⟩
    · rw [if_neg hat]
      refine ⟨Nat.le_refl i, fun k => ?_⟩
      cases k with
      | zero => exact ⟨fun _ => Nat.le_refl i, fun _ => stretch_zero⟩
      | succ k =>
        rw [stretch_succ_iff]
        exact ⟨fun h => absurd h.1 hat, fun h => absurd h (by omega)⟩

theorem stretch_iff_le_run (hi : i ≤ s.size) : Stretch s p i k ↔ k ≤ run s p i := by
  obtain ⟨hle, hiff⟩ := runEnd_spec (p := p) (show i + (s.size - i) = s.size by omega)
  rw [hiff]
  unfold run
  omega

theorem run_of_at? (hat : at? s p i = true) : run s p i = run s p (i + 1) + 1 := by
  have hi : i < s.size := lt_size_of_at? hat
  apply Nat.le_antisymm
  · cases hk : run s p i with
    | zero => exact Nat.zero_le _
    | succ k =>
      have hst : Stretch s p i (k + 1) := (stretch_iff_le_run (by omega)).mpr (Nat.le_of_eq hk.symm)
      exact Nat.succ_le_succ ((stretch_iff_le_run hi).mp (stretch_succ_iff.mp hst).2)
  · have hst : Stretch s p (i + 1) (run s p (i + 1)) :=
      (stretch_iff_le_run hi).mpr (Nat.le_refl _)
    exact (stretch_iff_le_run (by omega)).mp (stretch_succ_iff.mpr ⟨hat, hst⟩)

theorem run_of_not_at? (hi : i ≤ s.size) (hat : ¬ at? s p i = true) : run s p i = 0 := by
  cases hk : run s p i with
  | zero => rfl
  | succ k =>
    have hst : Stretch s p i (k + 1) := (stretch_iff_le_run hi).mpr (Nat.le_of_eq hk.symm)
    exact absurd (stretch_succ_iff.mp hst).1 hat

/-! ## balanced stretches -/

variable {x y : UInt8} {opened : Nat}

theorem level_self_iff : Level s x y opened i i ↔ opened = 0 := by
  unfold Level
  rw [Bytes.toList_slice_self]
  simp [eq_comm]

section
variable {j : Nat} (hij : i < j) (hi : i < s.size)
include hij

theorem level_closing_iff (hy : s[i] = y) (ho : 1 ≤ opened) :
    Level s x y opened i j ↔ Level s x y (opened - 1) (i + 1) j := by
  unfold Level
  rw [Bytes.toList_slice_cons hij hi, hy, List.count_cons_self]
  by_cases hxy : x = y
  · rw [if_pos hxy, if_pos hxy]
    omega
  · rw [if_neg hxy, if_neg hxy, List.count_cons_of_ne (Ne.symm hxy)]
    omega

theorem level_opening_iff (hx : s[i] = x) (hxy : x ≠ y) :
    Level s x y opened i j ↔ Level s x y (opened + 1) (i + 1) j := by
  unfold Level
  rw [Bytes.toList_slice_cons hij hi, hx, List.count_cons_of_ne hxy, List.count_cons_self,
    if_neg hxy, if_neg hxy]
  omega

theorem level_other_iff (hx : s[i] ≠ x) (hy : s[i] ≠ y) :
    Level s x y opened i j ↔ Level s x y opened (i + 1) j := by
  unfold Level
  rw [Bytes.toList_slice_cons hij hi, List.count_cons_of_ne hx, List.count_cons_of_ne hy]

end

theorem firstLevel_succ_iff {o : Nat} (ho : 1 ≤ o)
    (hstep : ∀ j, i < j → (Level s x y opened i j ↔ Level s x y o (i + 1) j)) (j : Nat) :
    FirstLevel s x y opened i j ↔ FirstLevel s x y o (i + 1) j := by
  have hopen : ¬ Level s x y opened i (i + 1) := by
    rw [hstep _ (Nat.lt_succ_self i), level_self_iff]
    omega
  constructor
  · rintro ⟨hij, hj, hl, hno⟩
    have hne : j ≠ i + 1 := fun e => hopen (e ▸ hl)
    refine ⟨by omega, hj, (hstep j hij).mp hl, fun m h1 h2 hm => ?_⟩
    exact hno m (by omega) h2 ((hstep m (by omega)).mpr hm)
  · rintro ⟨hij, hj, hl, hno⟩
    refine ⟨by omega, hj, (hstep j (by omega)).mpr hl, fun m h1 h2 hm => ?_⟩
    rcases Nat.eq_or_lt_of_le (Nat.succ_le_of_lt h1) with he | hlt
    · subst he
      exact hopen hm
    · exact hno m hlt h2 ((hstep m h1).mp hm)

theorem balanced?_eq_some_iff (ho : 1 ≤ opened) (j : Nat) :
    balanced? s x y i opened = some j ↔ FirstLevel s x y opened i j := by
  fun_induction balanced? s x y i opened with
  | case1 i opened hi hy hle =>
    have hl : Level s x y opened i (i + 1) := by
      rw [level_closing_iff (Nat.lt_succ_self i) hi (beq_iff_eq.mp hy) ho, level_self_iff]
      omega
    have hfirst : FirstLevel s x y opened i (i + 1) :=
      ⟨Nat.lt_succ_self i, hi, hl, fun m h1 h2 => absurd h1 (by omega)⟩
    rw [Option.some.injEq]
    exact ⟨fun e => e ▸ hfirst, fun h => h.unique hfirst⟩
  | case2 i opened hi hy hle ih =>
    rw [ih (by omega)]
    exact (firstLevel_succ_iff (by omega)
      (fun j hij => level_closing_iff hij hi (beq_iff_eq.mp hy) ho) j).symm
  | case3 i opened hi hy hx ih =>
    have hx' : s[i] = x := beq_iff_eq.mp hx
    have hxy : x ≠ y := fun e => hy (beq_iff_eq.mpr (hx'.trans e))
    rw [ih (by omega)]
    exact (firstLevel_succ_iff (by omega) (fun j hij => level_opening_iff hij hi hx' hxy) j).symm
  | case4 i opened hi hy hx ih =>
    rw [ih ho]
    exact (firstLevel_succ_iff ho (fun j hij => level_other_iff hij hi
      (fun e => hx (beq_iff_eq.mpr e)) (fun e => hy (beq_iff_eq.mpr e))) j).symm
  | case5 i opened hi =>
    refine ⟨nofun, fun h => ?_⟩
    obtain ⟨hij, hj, _⟩ := h
    omega

theorem balance?_eq_some_iff {j : Nat} :
    balance? s x y i = some j ↔ s[i]? = some x ∧ FirstLevel s x y 1 (i + 1) j := by
  unfold balance?
  by_cases hat : at? s (· == x) i = true
  · rw [if_pos hat, balanced?_eq_some_iff (Nat.le_refl 1)]
    obtain ⟨b, hb, hbx⟩ := at?_eq_true_iff.mp hat
    rw [hb, beq_iff_eq.mp hbx]
    exact ⟨fun h => ⟨rfl, h⟩, And.right⟩
  · rw [if_neg hat]
    refine ⟨nofun, fun h => absurd ?_ hat⟩
    exact at?_eq_true_iff.mpr ⟨x, h.1, beq_self_eq_true x⟩

/-! ## frontiers -/

theorem framed_before (hi : i ≤ s.size) : (framed s)[i]? = some (before s i) := by
  unfold framed before
  cases i with
  | zero => rfl
  | succ i =>
    have hs : i < s.toList.length := by simpa using Nat.lt_of_succ_le hi
    rw [List.cons_append, List.getElem?_cons_succ, List.getElem?_append_left hs,
      List.getElem?_eq_getElem hs, Array.getElem_toList]
    simp [Array.getD_eq_getD_getElem?, Array.getElem?_eq_getElem (Nat.lt_of_succ_le hi)]

theorem framed_after (hi : i ≤ s.size) : (framed s)[i + 1]? = some (after s i) := by
  unfold framed after
  rw [List.cons_append, List.getElem?_cons_succ, Array.getD_eq_getD_getElem?]
  rcases Nat.lt_or_eq_of_le hi with hlt | rfl
  · rw [List.getElem?_append_left (by simpa using hlt), Array.getElem?_toList,
      Array.getElem?_eq_getElem hlt]
    rfl
  · simp

theorem frontier_iff (hi : i ≤ s.size) {set : Charset} :
    frontier s set i = true ↔ Enters s set i := by
  unfold frontier Enters
  rw [framed_before hi, framed_after hi, Bool.and_eq_true, Bool.not_eq_true']
  constructor
  · intro h
    exact ⟨_, _, rfl, rfl, h⟩
  · rintro ⟨a, b, ha, hb, h⟩
    cases ha
    cases hb
    exact h

end Subject

end LuaMachine
