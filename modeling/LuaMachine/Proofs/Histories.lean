import LuaMachine.Proofs.Capacity

/-!
# Tables and their histories

Every table is made by raw operations: it is created empty or from a list of values, entries are
stored and cleared, values are inserted and removed in the sequence, and it is given a metatable.

* `Made`             tables made by edits of some kind, and by metatables;
* `Made.solid`       the array part has no nil, whatever the edits are;
* `Made.inv`         the invariant of `LuaMachine.Proofs.Table`, if no edit names the float `2^63`;
* `Inv.holds_iff`    the tape holds what is read;
* `Inv.getKey_setKey`   storing a value changes what is read under its key, and nothing else;
* `Inv.getKey_count`    the array part is what is read under the counts up to the border.
-/

namespace LuaMachine

def Value.Plain (k : Value) : Prop := k.IsKey ∧ k ≠ .float Double.twoPow63

instance (k : Value) : Decidable k.Plain := inferInstanceAs (Decidable (_ ∧ _))

theorem Value.Plain.integer (n : Int64) : (Value.integer n).Plain := ⟨isKey_integer n, nofun⟩

theorem Value.Plain.count (n : Nat) : (Value.count n).Plain := .integer _

namespace Table

variable {t t' : Table} {k k' v w : Value} {i : Nat}

/-! ## histories -/

def Edit.Plain (e : Edit) : Prop := (Command.edit e).Plain

instance (e : Edit) : Decidable e.Plain := inferInstanceAs (Decidable (Command.edit e).Plain)

/-- The tables that are made by edits of some kind. -/
inductive Made (P : Edit → Prop) : Table → Prop
  | empty (capacity : Nat) : Made P (empty capacity)
  | ofList (vs : List Value) : Made P (ofList vs)
  | edit {t : Table} (e : Edit) : P e → Made P t → Made P (t.edit e)
  | metatable {t : Table} (mt : Option TableId) : Made P t → Made P { t with metatable := mt }

/-- What an empty table has and storing under an integer keeps holds of the table of a list. -/
theorem ofList_induction {Q : Table → Prop} (hempty : Q (empty 0))
    (hset : ∀ t k v, Q t → Q (t.setInt k v)) (vs : List Value) : Q (ofList vs) := by
  refine List.foldlRecOn _ _ hempty fun t ht p _ => ?_
  dsimp only
  split
  · exact ht
  · exact hset t _ _ ht

/-! ## the array part, whatever the keys are -/

/-- An array part without nils, whose positions are integers. -/
structure Solid (array : Array Value) : Prop where
  full : ∀ v ∈ array.toList, v ≠ .nil
  size_le : array.size ≤ lastKey

theorem solid_empty : Solid #[] := ⟨fun _ hv => absurd hv List.not_mem_nil, Nat.zero_le _⟩

section
variable {array : Array Value} {hash : HashPart}

theorem Solid.push (h : Solid array) (hv : v ≠ .nil) (hl : array.size < lastKey) :
    Solid (array.push v) := by
  refine ⟨fun w hw => ?_, by rw [Array.size_push]; exact hl⟩
  rw [Array.toList_push, List.mem_append, List.mem_singleton] at hw
  rcases hw with hw | rfl
  · exact h.full w hw
  · exact hv

theorem Solid.absorbRun (h : Solid array) (fuel : Nat) :
    Solid (Table.absorbRun fuel array hash).1 := by
  fun_induction Table.absorbRun fuel array hash with
  | case1 array hash => exact h
  | case2 fuel array hash hlt value hash' hnil e => exact h
  | case3 fuel array hash hlt value hash' hnil e ih =>
    exact ih (h.push (mt Value.isNil_iff.mpr e) hlt)
  | case4 fuel array hash hlt => exact h

end

theorem Solid.absorb (h : Solid t.array) : Solid t.absorb.array := by
  obtain ⟨array, hash, metatable⟩ := t
  by_cases he : hash.nodes.isEmpty = true
  · rw [absorb_empty he]
    exact h
  · rw [absorb_nodes rfl he]
    exact h.absorbRun _

theorem Solid.setInt (h : Solid t.array) (key : Int64) (v : Value) :
    Solid (t.setInt key v).array := by
  rcases setInt_cases t key v with ⟨i, _, hv, e⟩ | ⟨i, _, _, e⟩ | ⟨hk, hv, e⟩ | ⟨_, _, e⟩
  · rw [e]
    refine ⟨fun w hw => ?_, by rw [Array.size_setIfInBounds]; exact h.size_le⟩
    rw [Array.toList_setIfInBounds] at hw
    rcases List.mem_or_eq_of_mem_set hw with hw | rfl
    · exact h.full w hw
    · exact hv
  · rw [e]
    show Solid (t.array.extract 0 i)
    refine ⟨fun w hw => ?_, Nat.le_trans ?_ h.size_le⟩
    · rw [Array.toList_extract, List.extract_eq_take_drop] at hw
      exact h.full w (List.mem_of_mem_drop (List.mem_of_mem_take hw))
    · rw [Array.size_extract]
      omega
  · rw [e]
    exact Solid.absorb (h.push hv (lt_lastKey hk))
  · rw [e]
    exact h

theorem Solid.setKey (h : Solid t.array) (k v : Value) : Solid (t.setKey k v).array := by
  cases k with
  | integer n => exact h.setInt n v
  | _ => exact h

theorem Solid.shiftUp (p count : Nat) :
    ∀ t : Table, Solid t.array → Solid (t.shiftUp p count).array := by
  induction count with
  | zero => exact fun t h => h
  | succ count ih => exact fun t h => ih _ (h.setInt _ _)

theorem Solid.insertAt (h : Solid t.array) {p : Int64} (hp : t.hasRoomAt p = true) (v : Value) :
    Solid (t.insertAt p v).array := by
  obtain ⟨_, hle, hl⟩ := hasRoomAt_bounds hp h.size_le
  unfold Table.insertAt
  dsimp only
  split
  · exact Solid.setInt (Solid.shiftUp _ _ t h) p .nil
  · rename_i hv
    refine Solid.absorb ⟨fun w hw => ?_, ?_⟩
    · rcases mem_of_mem_insertIdx hw with rfl | hw
      · exact mt Value.isNil_iff.mpr hv
      · exact h.full w hw
    · show (t.array.insertIdxIfInBounds _ v).size ≤ lastKey
      rw [size_insertIdx (by omega)]
      exact hl

theorem Solid.removeAt (h : Solid t.array) (p : Int64) : Solid (t.removeAt p).array := by
  unfold Table.removeAt
  split
  · refine ⟨fun w hw => ?_, ?_⟩
    · rw [Array.toList_eraseIdxIfInBounds] at hw
      exact h.full w (List.mem_of_mem_eraseIdx hw)
    · rw [← Array.length_toList, Array.toList_eraseIdxIfInBounds]
      refine Nat.le_trans (List.length_eraseIdx_le _ _) ?_
      rw [Array.length_toList]
      exact h.size_le
  · exact h

theorem edit_refused {key : Value} (hk : key.key? = none) (v : Value) : t.edit (.set key v) = t := by
  show (t.rawSet key v).toOption.getD t = t
  unfold rawSet
  rw [hk]
  rfl

theorem Solid.edit (h : Solid t.array) (e : Edit) : Solid (t.edit e).array := by
  cases e with
  | set key value =>
    cases hk : key.key? with
    | none =>
      rw [edit_refused hk]
      exact h
    | some k =>
      rw [edit_set hk]
      exact h.setKey k value
  | setInt key value => exact h.setInt key value
  | setName name value => exact h.setKey _ value
  | push value => exact h.setInt _ value
  | insert position value =>
    show Solid (if t.hasRoomAt position then t.insertAt position value else t).array
    split
    · rename_i hp
      exact h.insertAt hp value
    · exact h
  | remove position => exact h.removeAt position

/-- **Every array part is solid.** -/
theorem Made.solid {P : Edit → Prop} (h : Made P t) : Solid t.array := by
  induction h with
  | empty capacity => exact solid_empty
  | ofList vs =>
    exact ofList_induction (Q := fun t => Solid t.array) solid_empty (fun t k v ht => ht.setInt k v) vs
  | edit e _ _ ih => exact ih.edit e
  | metatable mt _ ih => exact ih

/-! ## the invariant -/

theorem Inv.editPlain (h : t.Inv lastKey) {e : Edit} (he : e.Plain) : (t.edit e).Inv lastKey := by
  cases e with
  | set key value =>
    cases hk : key.key? with
    | none =>
      rw [edit_refused hk]
      exact h
    | some k =>
      have hkey := Value.isKey_of_key? hk
      have hne : k ≠ .float Double.twoPow63 := fun e => he (e ▸ hk)
      rw [edit_set hk]
      exact h.setKey hkey (clear_lastKey hkey hne) fun _ => t.room_lastKey
  | setInt key value => exact h.setInt key fun _ => t.room_lastKey
  | setName name value =>
    exact h.setKey (Value.isKey_string _) (clear_lastKey (Value.isKey_string _) nofun)
      fun _ => t.room_lastKey
  | push value => exact h.setInt _ fun _ => t.room_lastKey
  | insert position value =>
    show (if t.hasRoomAt position then t.insertAt position value else t).Inv lastKey
    split
    · rename_i hp
      exact h.insertAt hp t.room_lastKey value
    · exact h
  | remove position => exact h.removeAt position

/-- **The invariant of a table without the float `2^63`.** -/
theorem Made.inv (h : Made Edit.Plain t) : t.Inv lastKey := by
  induction h with
  | empty capacity => exact inv_empty lastKey capacity
  | ofList vs =>
    exact ofList_induction (inv_empty lastKey 0) (fun t k v ht => ht.setInt k fun _ => t.room_lastKey)
      vs
  | edit e he _ ih => exact ih.editPlain he
  | metatable mt _ ih => exact ⟨ih.toParts, ih.border⟩

/-! ## reading -/

/-- **The tape holds what is read.** -/
theorem Inv.holds_iff (h : t.Inv lastKey) (hk : k.Plain) :
    Holds t.tape k v ↔ v ≠ .nil ∧ t.getKey k = v := by
  constructor
  · exact fun hh => ⟨hh.1, h.getKey_of_holds hh⟩
  · rintro ⟨hv, rfl⟩
    exact h.holds_getKey hk.1 (h.exact_of_ne hk.1 hk.2) hv

theorem Inv.getKey_congr (h : t.Inv lastKey) (h' : t'.Inv lastKey) (hk : k.Plain) (hk' : k'.Plain)
    (e : ∀ v, Holds t'.tape k' v ↔ Holds t.tape k v) : t'.getKey k' = t.getKey k := by
  by_cases hnil : t.getKey k = .nil
  · rw [hnil]
    by_contra hne
    have hh := (e _).mp ((h'.holds_iff hk').mpr ⟨hne, rfl⟩)
    exact hne (((h.holds_iff hk).mp hh).2.symm.trans hnil)
  · exact ((h'.holds_iff hk').mp ((e _).mpr ((h.holds_iff hk).mpr ⟨hnil, rfl⟩))).2

/-- **Storing a value changes what is read under its key**, and nothing else. -/
theorem Inv.getKey_setKey (h : t.Inv lastKey) (hk : k.Plain) (hk' : k'.Plain) (v : Value) :
    (t.setKey k v).getKey k' = if k' = k then v else t.getKey k' := by
  have hroom : v ≠ .nil → t.Room lastKey := fun _ => t.room_lastKey
  have hafter := h.setKey hk.1 (clear_lastKey hk.1 hk.2) hroom
  have hs := h.stores_setKey hk.1 (h.exact_of_ne hk.1 hk.2) hroom
  by_cases he : k' = k
  · subst he
    rw [if_pos rfl]
    by_contra hne
    by_cases hv : v = .nil
    · subst hv
      rcases (hs _ _).mp ((hafter.holds_iff hk').mpr ⟨hne, rfl⟩) with ⟨_, e, _⟩ | ⟨e, _⟩
      · exact hne e
      · exact e rfl
    · exact hne ((hafter.holds_iff hk').mp ((hs _ _).mpr (.inl ⟨rfl, rfl, hv⟩))).2
  · rw [if_neg he]
    refine h.getKey_congr hafter hk' hk' fun w => (hs k' w).trans ?_
    simp [he]

theorem holds_run_count {array : Array Value} (hl : array.size ≤ lastKey) (hi : i + 1 ≤ lastKey) :
    Holds (Node.run 1 array.toList) (.count (i + 1)) w ↔ w ≠ .nil ∧ array[i]? = some w := by
  rw [lastKey_eq] at hl hi
  constructor
  · rintro ⟨hw, hm⟩
    obtain ⟨j, u, hj, e⟩ := Node.mem_run hm
    have hjl := (List.getElem?_eq_some_iff.mp hj).1
    rw [Array.length_toList] at hjl
    obtain ⟨ek, rfl⟩ := Node.mk.inj e
    rw [Value.count_inj (by omega) (by omega)] at ek
    obtain rfl : i = j := by omega
    exact ⟨hw, by rw [← Array.getElem?_toList]; exact hj⟩
  · rintro ⟨hw, ha⟩
    refine ⟨hw, List.mem_of_getElem? (i := i) ?_⟩
    rw [Node.getElem?_run, Array.getElem?_toList, ha, Nat.add_comm 1]
    rfl

theorem Inv.getKey_count (h : t.Inv lastKey) (hi : i < t.array.size) :
    t.array[i]? = some (t.getKey (.count (i + 1))) ∧ t.getKey (.count (i + 1)) ≠ .nil := by
  have hl := h.size_le_lastKey
  have ha := Array.getElem?_eq_getElem hi
  have hne : t.array[i] ≠ .nil := h.full _ (Array.getElem_mem_toList hi)
  have hh : Holds t.tape (.count (i + 1)) t.array[i] :=
    holds_append.mpr (.inl ((holds_run_count hl (by omega)).mpr ⟨hne, ha⟩))
  rw [h.getKey_of_holds hh]
  exact ⟨ha, hne⟩

end Table

end LuaMachine
