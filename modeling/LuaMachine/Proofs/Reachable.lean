import LuaMachine.Proofs.Table

/-!
# The tables that can be reached

A table is created empty or from a list of values, and then edited: entries are stored and cleared,
and values are inserted and removed in the sequence.  An edit that is refused changes nothing.

* `Fits`        a table whose entries have room in memory;
* `Edit`        one write, with `Table.edit` its effect;
* `Reachable`   what creation and any number of edits lead to;
* `WellFormed`  the layout of a table, said in full.

`Reachable.inv` says that edits keep the invariant of `LuaMachine.Proofs.Table`.  In a table that
fits, the integers are far from `2^63`, so that no float is found in the place of an integer.
-/

namespace LuaMachine.Table

variable {B : Nat} {t : Table}

/-! ## sequences -/

/-- A position to insert at is an integer up to one past the border. -/
theorem hasRoomAt_bounds {p : Int64} (h : t.hasRoomAt p = true) (hl : t.array.size ≤ lastKey) :
    1 ≤ p.toInt ∧ p.toInt ≤ t.array.size + 1 ∧ t.array.size < lastKey := by
  unfold hasRoomAt length at h
  rw [Bool.and_eq_true, decide_eq_true_eq, decide_eq_true_eq, Int64.le_iff_toInt_le,
    Int64.le_iff_toInt_le, Int64.toInt_add] at h
  rw [lastKey_eq] at hl ⊢
  rw [Value.toInt_ofNat (by omega)] at h
  have h1 : (1 : Int64).toInt = 1 := rfl
  rw [h1] at h
  by_cases he : t.array.size = 2 ^ 63 - 1
  · -- one past the last integer wraps around
    rw [he] at h
    have hwrap : (((2 ^ 63 - 1 : Nat) : Int) + 1).bmod (2 ^ 64) = -2 ^ 63 := by decide
    rw [hwrap] at h
    omega
  · rw [Int.bmod_eq_of_le (by omega) (by omega)] at h
    omega

theorem mem_of_mem_insertIdx {array : Array Value} {i : Nat} {v w : Value}
    (h : w ∈ (array.insertIdxIfInBounds i v).toList) : w = v ∨ w ∈ array.toList := by
  unfold Array.insertIdxIfInBounds at h
  split at h
  · rw [Array.mem_toList_iff, Array.mem_insertIdx] at h
    exact h.imp id Array.mem_toList_iff.mpr
  · exact .inr h

theorem size_insertIdx {array : Array Value} {i : Nat} (hi : i ≤ array.size) (v : Value) :
    (array.insertIdxIfInBounds i v).size = array.size + 1 := by
  unfold Array.insertIdxIfInBounds
  rw [dif_pos hi, Array.size_insertIdx]

theorem Inv.getInt_ne_nil (h : t.Inv B) {k : Int64} (hk : Within t.array.size k) :
    t.getInt k ≠ .nil := by
  cases hs : t.slot? k with
  | none => exact absurd hk (slot?_eq_none.mp hs)
  | some i =>
    have hi := (slot?_eq_some.mp hs).1
    unfold getInt
    rw [hs]
    dsimp only
    rw [Array.getD_eq_getD_getElem?, Array.getElem?_eq_getElem hi]
    exact h.full _ (Array.getElem_mem_toList hi)

theorem Inv.shiftUp_succ (h : t.Inv B) {p count : Nat} (hp : 1 ≤ p)
    (hc : p + (count + 1) ≤ t.array.size) :
    t.getInt (Int64.ofNat (p + count)) ≠ .nil ∧ t.shiftUp p (count + 1)
      = ({ t with array := t.array.setIfInBounds (p + count) (t.getInt (Int64.ofNat (p + count))) } :
          Table).shiftUp p count := by
  have hl := h.size_lt
  have hget : t.getInt (Int64.ofNat (p + count)) ≠ .nil := by
    apply h.getInt_ne_nil
    unfold Within
    rw [Value.toInt_ofNat (by omega)]
    omega
  have hslot : t.slot? (Int64.ofNat (p + count + 1)) = some (p + count) := by
    rw [slot?_eq_some, Value.toInt_ofNat (by omega)]
    exact ⟨by omega, rfl⟩
  refine ⟨hget, ?_⟩
  rw [Table.shiftUp, setInt_slot hslot hget]

theorem Inv.shiftUp_grow (h : t.Inv B) {p count : Nat} (hp : 1 ≤ p)
    (hc : p + count = t.array.size) (hl : t.array.size < lastKey) :
    t.getInt (Int64.ofNat t.array.size) ≠ .nil ∧ t.shiftUp p (count + 1)
      = ({ t with array := t.array.push (t.getInt (Int64.ofNat t.array.size)) } :
          Table).absorb.shiftUp p count := by
  rw [lastKey_eq] at hl
  have hlast : (Int64.ofNat (t.array.size + 1)).toInt = (t.array.size + 1 : Nat) :=
    Value.toInt_ofNat (by omega)
  have hget : t.getInt (Int64.ofNat t.array.size) ≠ .nil := by
    apply h.getInt_ne_nil
    unfold Within
    rw [Value.toInt_ofNat (by omega)]
    omega
  refine ⟨hget, ?_⟩
  rw [Table.shiftUp, hc, setInt_next (by rw [hlast]; push_cast; rfl) hget]

/-- Moving values up inside the array part replaces values by values. -/
theorem Inv.shiftUp (p count : Nat) (hp : 1 ≤ p) : ∀ t : Table, t.Inv B →
    p + count ≤ t.array.size → (t.shiftUp p count).Inv B := by
  induction count with
  | zero => intro t h _; exact h
  | succ count ih =>
    intro t h hc
    obtain ⟨hget, e⟩ := h.shiftUp_succ hp hc
    rw [e]
    refine ih _ (h.setSlot hget _) ?_
    show p + count ≤ (t.array.setIfInBounds _ _).size
    rw [Array.size_setIfInBounds]
    omega

/-- Inserting nil opens a gap: the first value that moves grows the array part, the others replace
values, and the key at the position is cleared. -/
theorem Inv.insertGap (h : t.Inv B) {p : Int64} (hp : 1 ≤ p.toInt)
    (hle : p.toInt ≤ t.array.size + 1) (hl : t.array.size < lastKey) (hB : t.Room B) :
    (t.insertAt p .nil).Inv B := by
  show ((t.shiftUp p.toInt.toNat (t.array.size + 1 - p.toInt.toNat)).setInt p .nil).Inv B
  refine Inv.setInt ?_ p (fun hn => absurd rfl hn)
  cases hc : t.array.size + 1 - p.toInt.toNat with
  | zero => exact h
  | succ count =>
    have hsum : p.toInt.toNat + count = t.array.size := by omega
    obtain ⟨hget, e⟩ := h.shiftUp_grow (by omega) hsum hl
    have hgrow := h.absorb (full_push h.toParts hget) (Array.size_push _) hl hB
    rw [e]
    refine Inv.shiftUp _ _ (by omega) _ hgrow.inv ?_
    have := hgrow.grown
    rw [Array.size_push] at this
    rw [hsum]
    exact Nat.le_of_succ_le this

theorem Inv.insertAt (h : t.Inv B) {p : Int64} (hp : t.hasRoomAt p = true) (hB : t.Room B)
    (v : Value) : (t.insertAt p v).Inv B := by
  obtain ⟨h1, hle, hl⟩ := hasRoomAt_bounds hp h.size_le_lastKey
  by_cases hv : v = .nil
  · rw [hv]
    exact h.insertGap h1 hle hl hB
  · unfold Table.insertAt
    dsimp only
    rw [Value.isNil_eq_false.mpr hv]
    refine (h.absorb (fun w hw => ?_) (size_insertIdx (by omega) v) hl hB).inv
    rcases mem_of_mem_insertIdx hw with rfl | hw
    · exact hv
    · exact h.full w hw

theorem Inv.removeAt (h : t.Inv B) (p : Int64) : (t.removeAt p).Inv B := by
  unfold Table.removeAt
  cases hs : t.slot? p with
  | none => exact h
  | some i =>
    have hi := (slot?_eq_some.mp hs).1
    refine h.shorten (fun w hw => ?_) ?_
    · rw [Array.toList_eraseIdxIfInBounds] at hw
      exact h.full w (List.mem_of_mem_eraseIdx hw)
    · rw [← Array.length_toList, Array.toList_eraseIdxIfInBounds,
        List.length_eraseIdx_of_lt (by rw [Array.length_toList]; exact hi), Array.length_toList]
      omega

/-! ## creating tables -/

/-- The entries fit into memory.  Each takes eight bytes at least, and addresses have 64 bits. -/
def Fits (t : Table) : Prop := t.size < 2 ^ 61

instance (t : Table) : Decidable t.Fits := inferInstanceAs (Decidable (_ < _))

theorem clear_of_isKey {k : Value} (hk : k.IsKey) : k.Clear (2 ^ 61) := by
  intro n hn hr
  rcases Value.rawEq_cases hk (Value.isKey_integer n) hr with e | ⟨m, _, e, _⟩ | ⟨m, _, e, hm⟩
  · exact e
  · cases e
  · rw [← Value.integer.inj e] at hm
    omega

theorem inv_foldl_setInt (vs : List Value) : ∀ (first : Nat) (t : Table), t.Inv (2 ^ 61) →
    t.size + vs.length < 2 ^ 61 →
    ((vs.zipIdx first).foldl (fun t p => if p.1.isNil then t else t.setInt (Int64.ofNat p.2) p.1)
        t).Inv (2 ^ 61) ∧
      ((vs.zipIdx first).foldl
        (fun t p => if p.1.isNil then t else t.setInt (Int64.ofNat p.2) p.1) t).size
        ≤ t.size + vs.length := by
  induction vs with
  | nil => intro first t h hs; exact ⟨h, Nat.le_refl _⟩
  | cons v vs ih =>
    intro first t h hs
    rw [List.length_cons] at hs
    rw [List.zipIdx_cons, List.foldl_cons, List.length_cons]
    dsimp only
    split
    · obtain ⟨hi, hle⟩ := ih (first + 1) t h (by omega)
      exact ⟨hi, by omega⟩
    · have hroom : v ≠ .nil → t.Room (2 ^ 61) := fun _ => .inl (by omega)
      have hone := h.size_setInt_le (Int64.ofNat first) hroom
      obtain ⟨hi, hle⟩ := ih (first + 1) _ (h.setInt (Int64.ofNat first) hroom) (by omega)
      exact ⟨hi, by omega⟩

theorem inv_ofList {vs : List Value} (hs : vs.length < 2 ^ 61) :
    (ofList vs).Inv (2 ^ 61) ∧ (ofList vs).Fits := by
  have he : (empty 0).size = 0 := rfl
  obtain ⟨hi, hle⟩ := inv_foldl_setInt vs 1 (empty 0) (inv_empty _ 0) (by omega)
  exact ⟨hi, Nat.lt_of_le_of_lt hle (by omega)⟩

/-! ## editing tables -/

inductive Edit where
  | set (key value : Value)
  | setInt (key : Int64) (value : Value)
  | setName (name : String) (value : Value)
  | push (value : Value)
  | insert (position : Int64) (value : Value)
  | remove (position : Int64)

/-- The table after an edit, the same one if the edit is refused. -/
def edit (t : Table) : Edit → Table
  | .set key value => (t.rawSet key value).toOption.getD t
  | .setInt key value => t.setInt key value
  | .setName name value => t.setKey (.text name) value
  | .push value => t.push value
  | .insert position value => if t.hasRoomAt position then t.insertAt position value else t
  | .remove position => t.removeAt position

/-- The tables that a program can make, as long as they fit. -/
inductive Reachable : Table → Prop
  | empty (capacity : Nat) : Reachable (empty capacity)
  | ofList (vs : List Value) : vs.length < 2 ^ 61 → Reachable (ofList vs)
  | edit {t : Table} (e : Edit) : Reachable t → (t.edit e).Fits → Reachable (t.edit e)

theorem Inv.edit (h : t.Inv (2 ^ 61)) (hf : t.Fits) (e : Edit) : (t.edit e).Inv (2 ^ 61) := by
  have hroom : t.Room (2 ^ 61) := .inl hf
  cases e with
  | set key value =>
    show ((t.rawSet key value).toOption.getD t).Inv (2 ^ 61)
    unfold rawSet
    cases hk : key.key? with
    | none => exact h
    | some k =>
      have hkey := Value.isKey_of_key? hk
      exact h.setKey hkey (clear_of_isKey hkey) fun _ => hroom
  | setInt key value => exact h.setInt key fun _ => hroom
  | setName name value =>
    exact h.setKey (Value.isKey_string _) (clear_of_isKey (Value.isKey_string _)) fun _ => hroom
  | push value => exact h.setInt _ fun _ => hroom
  | insert position value =>
    show (if t.hasRoomAt position then t.insertAt position value else t).Inv (2 ^ 61)
    split
    · rename_i hp
      exact h.insertAt hp hroom value
    · exact h
  | remove position => exact h.removeAt position

/-- **The invariant of every table.** -/
theorem Reachable.inv (h : Reachable t) : t.Inv (2 ^ 61) ∧ t.Fits := by
  induction h with
  | empty capacity => exact ⟨inv_empty _ capacity, Nat.two_pow_pos 61⟩
  | ofList vs hs => exact inv_ofList hs
  | edit e _ hf ih => exact ⟨ih.1.edit ih.2 e, hf⟩

/-! ## the layout of a table -/

/-- The layout of a table: what the array part and the nodes of the hash part hold, and what the
count and the index say about the nodes. -/
structure WellFormed (t : Table) : Prop where
  full : ∀ v ∈ t.array.toList, v ≠ .nil
  unshadowed : ∀ n ∈ t.hash.nodes.toList, ∀ k : Int64, n.key = .integer k →
    ¬ (1 ≤ k.toInt ∧ k.toInt ≤ t.array.size)
  border : ∀ n ∈ t.hash.nodes.toList, ∀ k : Int64, n.key = .integer k →
    k.toInt = t.array.size + 1 → n.value = .nil
  distinct : ∀ (i j : Nat) (n m : Node), t.hash.nodes[i]? = some n → t.hash.nodes[j]? = some m →
    n.key ≠ .nil → n.key = m.key → i = j
  erased : ∀ n ∈ t.hash.nodes.toList, n.key = .nil → n.value = .nil
  live_eq : t.hash.live = t.hash.nodes.toList.countP fun n => n.value ≠ .nil
  indexed : ∀ ix, t.hash.index = some ix → ∀ (k : Value) (i : Nat),
    ix[k]? = some i ↔ k ≠ .nil ∧ (t.hash.nodes[i]?).map Node.key = some k

theorem Inv.wellFormed (h : t.Inv B) : t.WellFormed where
  full := h.full
  unshadowed := fun n hn k hk => h.unshadowed k (List.mem_map.mpr ⟨n, hn, hk⟩)
  border := by
    intro n hn k hk he
    by_contra hv
    exact h.border n hn (n.live_iff.mpr hv) k hk he
  distinct := by
    intro i j n m hi hj hne he
    rw [← Array.getElem?_toList] at hi hj
    refine h.kept.sound.distinct.index_unique hne ?_ ?_
    · rw [List.getElem?_map, hi]
      rfl
    · rw [List.getElem?_map, hj, he]
      rfl
  erased := h.kept.sound.erased
  live_eq := by
    rw [h.kept.live_eq]
    refine List.countP_congr fun n _ => ?_
    rw [n.live_iff, decide_eq_true_eq]
  indexed := by
    intro ix hix k i
    rw [h.kept.indexed ix hix, HashPart.getElem?_keys, Array.getElem?_toList]

/-- **Every table is well formed**, whatever history of writes led to it. -/
theorem wellFormed_of_reachable {t : Table} (h : Reachable t) : t.WellFormed := h.inv.1.wellFormed

/-- A gap in a sequence, a key far away, and the gap filled again. -/
theorem wellFormed_gap_filled :
    ((((ofList [.integer 10, .integer 20, .integer 30, .integer 40]).edit (.setInt 2 .nil)).edit
      (.set (.float Double.twoPow63) (.integer 1))).edit (.push (.integer 50))).WellFormed :=
  wellFormed_of_reachable
    (.edit _ (.edit _ (.edit _ (.ofList _ (by decide)) (by decide +kernel)) (by decide +kernel))
      (by decide +kernel))

end LuaMachine.Table
