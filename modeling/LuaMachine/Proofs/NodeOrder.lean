import LuaMachine.Proofs.Dictionary
import LuaMachine.Proofs.Reachable

/-!
# The order of the nodes

A traversal meets the entries of the hash part in the order of their nodes.  Writes add nodes at the
two ends, fill nodes again in their places, and take nodes out, but never exchange two nodes.

* `liveKeys`, `hashOrder`   the keys of the live nodes, in order;
* `SameOrder`               the keys that two lists share stand in the same order;
* `KeepsOrder`              what a write may do to the order: only keys that are cut off from the
                            array part come in front;
* `Placed`                  where storing under a key puts the node;
* `Inv.keepsOrder_edit`     every edit keeps the order.
-/

namespace LuaMachine

/-! ## lists in the same order -/

def SameOrder (l l' : List Value) : Prop := l.filter (· ∈ l') = l'.filter (· ∈ l)

theorem SameOrder.refl (l : List Value) : SameOrder l l := rfl

theorem filter_mem_of_sublist {l l' : List Value} (h : l'.Sublist l) (hn : l.Nodup) :
    l.filter (· ∈ l') = l' := by
  induction h with
  | slnil => rfl
  | cons a h ih =>
    rw [List.nodup_cons] at hn
    rw [List.filter_cons_of_neg (by simpa using fun hm => hn.1 (h.subset hm)), ih hn.2]
  | cons_cons a h ih =>
    rw [List.nodup_cons] at hn
    rw [List.filter_cons_of_pos (by simp)]
    refine congrArg (a :: ·) (Eq.trans (List.filter_congr fun b hb => ?_) (ih hn.2))
    have hne : b ≠ a := fun e => hn.1 (e ▸ hb)
    simp [hne]

theorem SameOrder.of_sublist {l l' : List Value} (h : l'.Sublist l) (hn : l.Nodup) :
    SameOrder l l' := by
  unfold SameOrder
  rw [filter_mem_of_sublist h hn, List.filter_eq_self.mpr fun b hb => by simpa using h.subset hb]

theorem SameOrder.of_superlist {l l' : List Value} (h : l.Sublist l') (hn : l'.Nodup) :
    SameOrder l l' := (SameOrder.of_sublist h hn).symm

/-! ## live keys -/

def liveKeys (ns : List Node) : List Value := (ns.filter Node.live).map Node.key

theorem liveKeys_append (ms ns : List Node) : liveKeys (ms ++ ns) = liveKeys ms ++ liveKeys ns := by
  simp [liveKeys]

theorem liveKeys_singleton (k v : Value) : liveKeys [⟨k, v⟩] = if v = .nil then [] else [k] := by
  by_cases hv : v = .nil <;> simp [liveKeys, Node.live, hv, Value.isNil_eq_false.mpr]

theorem liveKeys_filter (ns : List Node) : liveKeys (ns.filter Node.live) = liveKeys ns := by
  simp [liveKeys]

theorem liveKeys_run {first : Nat} {vs : List Value} (hv : ∀ v ∈ vs, v ≠ .nil) :
    liveKeys (Node.run first vs) = (Node.run first vs).map Node.key := by
  unfold liveKeys
  rw [List.filter_eq_self.mpr fun _ hm => Node.live_of_mem_run hv hm]

theorem liveKeys_set {ns : List Node} {i : Nat} (hi : i < ns.length) (k v : Value) :
    liveKeys (ns.set i ⟨k, v⟩)
      = liveKeys (ns.take i) ++ (if v = .nil then [] else [k]) ++ liveKeys (ns.drop (i + 1)) := by
  rw [List.set_eq_take_append_cons_drop, if_pos hi, ← List.singleton_append, liveKeys_append,
    liveKeys_append, liveKeys_singleton, List.append_assoc]

theorem liveKeys_split {ns : List Node} {i : Nat} {n : Node} (hn : ns[i]? = some n) :
    liveKeys ns = liveKeys (ns.take i)
      ++ (if n.value = .nil then [] else [n.key]) ++ liveKeys (ns.drop (i + 1)) := by
  obtain ⟨hi, rfl⟩ := List.getElem?_eq_some_iff.mp hn
  rw [← liveKeys_set hi]
  exact congrArg liveKeys (List.set_getElem_self hi).symm

theorem sublist_between (a b : List Value) (k : Value) (p : Prop) [Decidable p] :
    (a ++ b).Sublist (a ++ (if p then [] else [k]) ++ b) := by
  rw [List.append_assoc]
  exact (List.sublist_append_right _ b).append_left a

theorem liveKeys_erase_sublist (ns : List Node) (i : Nat) :
    (liveKeys (ns.set i ⟨.nil, .nil⟩)).Sublist (liveKeys ns) := by
  by_cases hi : i < ns.length
  · rw [liveKeys_set hi, liveKeys_split (List.getElem?_eq_getElem hi), if_pos rfl, List.append_nil]
    exact sublist_between _ _ _ _
  · rw [List.set_eq_of_length_le (Nat.le_of_not_lt hi)]

theorem Sound.sameOrder_set {ns : List Node} (hs : Sound ns) {i : Nat} {n : Node}
    (hn : ns[i]? = some n) (hk : n.key ≠ .nil) (v : Value) :
    SameOrder (liveKeys ns) (liveKeys (ns.set i ⟨n.key, v⟩)) := by
  have hi := (List.getElem?_eq_some_iff.mp hn).1
  have hd : (liveKeys ns).Nodup := hs.nodup_live
  have hd' : (liveKeys (ns.set i ⟨n.key, v⟩)).Nodup := (hs.replace hn hk v).nodup_live
  rw [liveKeys_set hi] at hd' ⊢
  rw [liveKeys_split hn] at hd ⊢
  by_cases hv : v = .nil
  · rw [if_pos hv, List.append_nil]
    exact .of_sublist (sublist_between _ _ _ _) hd
  · by_cases hl : n.value = .nil
    · rw [if_pos hl, List.append_nil]
      exact .of_superlist (sublist_between _ _ _ _) hd'
    · rw [if_neg hv, if_neg hl]
      exact .refl _

/-! ## the hash part -/

namespace HashPart
variable {h : HashPart} {k : Value}

theorem Inv.nodup_liveKeys (hv : h.Inv) : (liveKeys h.nodes.toList).Nodup := hv.sound.nodup_live

theorem liveKeys_take_sublist (h : HashPart) (k : Value) :
    (liveKeys (h.take k).2.nodes.toList).Sublist (liveKeys h.nodes.toList) := by
  unfold take
  split
  · exact .refl _
  · show (liveKeys (h.nodes.setIfInBounds _ ⟨.nil, .nil⟩).toList).Sublist _
    rw [Array.toList_setIfInBounds]
    exact liveKeys_erase_sublist _ _

theorem liveKeys_compact_append (h : HashPart) (k v : Value) :
    liveKeys (h.compact.append k v).nodes.toList = liveKeys (h.append k v).nodes.toList := by
  rw [toList_append, toList_append, toList_compact, liveKeys_append, liveKeys_append,
    liveKeys_filter]

theorem liveKeys_set_fresh (hp : h.position? k = none) {v : Value} (hv : v ≠ .nil) :
    liveKeys (h.set k v).nodes.toList = liveKeys h.nodes.toList ++ [k] := by
  have hend : liveKeys (h.append k v).nodes.toList = liveKeys h.nodes.toList ++ [k] := by
    rw [toList_append, liveKeys_append, liveKeys_singleton, if_neg hv]
  unfold HashPart.set
  rw [hp]
  dsimp only
  rw [if_neg (by rw [Value.isNil_iff]; exact hv)]
  split
  · rw [liveKeys_compact_append, hend]
  · exact hend

theorem Inv.sameOrder_set (hv : h.Inv) (hk : k.IsKey) (v : Value) :
    SameOrder (liveKeys h.nodes.toList) (liveKeys (h.set k v).nodes.toList) := by
  have hd := (hv.set hk v).nodup_liveKeys
  cases hp : h.position? k with
  | some i =>
    obtain ⟨n, hn, hne, _, _⟩ := hv.found hk hp
    have e : h.set k v = h.replace i v := by
      unfold HashPart.set
      rw [hp]
    rw [e, toList_replace hn]
    exact hv.sound.sameOrder_set hn hne v
  | none =>
    by_cases hnil : v = .nil
    · have e : h.set k v = h := by
        unfold HashPart.set
        rw [hp, hnil]
        rfl
      rw [e]
      exact .refl _
    · rw [liveKeys_set_fresh hp hnil] at hd ⊢
      exact .of_superlist (List.sublist_append_left _ _) hd

end HashPart

namespace Table
variable {B : Nat} {t t' : Table} {k v : Value}

def hashOrder (t : Table) : List Value := liveKeys t.hash.nodes.toList

/-- Only keys that follow the array part, and were cut off from it, come in front; the others keep
their order. -/
def KeepsOrder (t t' : Table) : Prop :=
  ∃ cut rest, t'.hashOrder = cut ++ rest ∧ SameOrder t.hashOrder rest ∧
    (cut = [] ∨ t'.array.size < t.array.size ∧
      ∃ vs, cut = (Node.run (t'.array.size + 2) vs).map Node.key)

theorem KeepsOrder.of_sameOrder (h : SameOrder t.hashOrder t'.hashOrder) : KeepsOrder t t' :=
  ⟨[], t'.hashOrder, rfl, h, .inl rfl⟩

theorem KeepsOrder.of_hash (h : t'.hash = t.hash) : KeepsOrder t t' := by
  apply KeepsOrder.of_sameOrder
  unfold hashOrder
  rw [h]
  exact .refl _

theorem Inv.nodup_hashOrder (h : t.Inv B) : t.hashOrder.Nodup := h.kept.nodup_liveKeys

/-! ## drawing keys in -/

theorem liveKeys_absorbRun_sublist (fuel : Nat) : ∀ (array : Array Value) (hash : HashPart),
    (liveKeys (absorbRun fuel array hash).2.nodes.toList).Sublist (liveKeys hash.nodes.toList) := by
  induction fuel with
  | zero =>
    intro array hash
    exact .refl _
  | succ fuel ih =>
    intro array hash
    have htake := hash.liveKeys_take_sublist (.count (array.size + 1))
    rw [absorbRun]
    dsimp only
    split
    · split
      · exact htake
      · exact (ih _ _).trans htake
    · exact .refl _

theorem hashOrder_absorb_sublist (t : Table) : t.absorb.hashOrder.Sublist t.hashOrder := by
  obtain ⟨array, hash, metatable⟩ := t
  unfold absorb
  dsimp only
  split
  · exact .refl _
  · exact (liveKeys_absorbRun_sublist _ _ _).trans (hash.liveKeys_take_sublist _)

/-! ## storing -/

theorem Inv.hashOrder_split (h : t.Inv B) (i : Nat) : (t.split i).hashOrder
    = (Node.run (i + 2) (t.array.toList.drop (i + 1))).map Node.key ++ t.hashOrder := by
  show liveKeys (t.hash.prependRun _ _).nodes.toList = _
  rw [HashPart.toList_prependRun, liveKeys_append,
    liveKeys_run fun v hv => h.full v (List.mem_of_mem_drop hv)]
  rfl

theorem size_split {i : Nat} (hi : i < t.array.size) : (t.split i).array.size = i := by
  show (t.array.extract 0 i).size = i
  rw [Array.size_extract]
  omega

theorem Inv.keepsOrder_split (h : t.Inv B) {i : Nat} (hi : i < t.array.size) :
    KeepsOrder t (t.split i) := by
  refine ⟨_, _, h.hashOrder_split i, .refl _, .inr ?_⟩
  rw [size_split hi]
  exact ⟨hi, _, rfl⟩

theorem Inv.keepsOrder_setInt (h : t.Inv B) (n : Int64) (v : Value) :
    KeepsOrder t (t.setInt n v) := by
  rcases setInt_cases t n v with ⟨i, hs, hv, e⟩ | ⟨i, hs, hv, e⟩ | ⟨hk, hv, e⟩ | ⟨hw, hk, e⟩
  · rw [e]
    exact .of_hash rfl
  · rw [e]
    exact h.keepsOrder_split (slot?_eq_some.mp hs).1
  · rw [e]
    exact .of_sameOrder (.of_sublist (hashOrder_absorb_sublist _) h.nodup_hashOrder)
  · rw [e]
    exact .of_sameOrder (h.kept.sameOrder_set (Value.isKey_integer n) v)

theorem Inv.keepsOrder_setKey (h : t.Inv B) (hk : k.IsKey) (v : Value) :
    KeepsOrder t (t.setKey k v) := by
  cases k with
  | integer n => exact h.keepsOrder_setInt n v
  | _ => exact .of_sameOrder (h.kept.sameOrder_set hk v)

/-- Where storing under a key puts the node: a key without a node goes to the end, a key with a
node, live or dead, stays in its place, and the keys behind a gap in the array part go to the
front. -/
structure Placed (t : Table) (k v : Value) : Prop where
  atEnd : k ∉ t.hash.keys → (∀ n, k = .integer n → ¬ Within (t.array.size + 1) n) → v ≠ .nil →
    (t.setKey k v).hashOrder = t.hashOrder ++ [k]
  inPlace : ∀ (i : Nat) w, t.hash.nodes.toList[i]? = some ⟨k, w⟩ →
    (∀ n, k = .integer n → n.toInt ≠ t.array.size + 1) →
    (t.setKey k v).hash.nodes.toList = t.hash.nodes.toList.set i ⟨k, v⟩
  inFront : ∀ i, i < t.array.size → k = .count (i + 1) → v = .nil →
    (t.setKey k v).hash.nodes.toList
      = Node.run (i + 2) (t.array.toList.drop (i + 1)) ++ t.hash.nodes.toList

/-- A key that does not continue the array part is stored in the hash part. -/
theorem setKey_outside (hw : ∀ n, k = .integer n → ¬ Within t.array.size n)
    (hn : ∀ n, k = .integer n → n.toInt = t.array.size + 1 → v = .nil) :
    t.setKey k v = { t with hash := t.hash.set k v } := by
  cases k with
  | integer n => exact setInt_outside (hw n rfl) (hn n rfl)
  | _ => rfl

theorem Inv.placed (h : t.Inv lastKey) (hk : k.IsKey) (hp : k ≠ .float Double.twoPow63)
    (v : Value) : Placed t k v where
  atEnd := by
    intro hm hw hv
    have hnone : t.hash.position? k = none := by
      rw [Option.eq_none_iff_forall_ne_some]
      intro i hi
      obtain ⟨n, hn, hkey⟩ := h.kept.found_exact hk (h.exact_of_ne hk hp) hi
      exact hm (List.mem_map.mpr ⟨n, List.mem_of_getElem? hn, hkey⟩)
    rw [setKey_outside]
    · exact HashPart.liveKeys_set_fresh hnone hv
    · intro n hn hin
      exact hw n hn ⟨hin.1, by have := hin.2; omega⟩
    · intro n hn he
      exact absurd ⟨by omega, by omega⟩ (hw n hn)
  inPlace := by
    intro i w hi hne
    have hkey : t.hash.keys[i]? = some k := by rw [HashPart.getElem?_keys, hi]; rfl
    have hpos := h.kept.found_own hk.ne_nil hkey
    have hset : t.hash.set k v = t.hash.replace i v := by
      unfold HashPart.set
      rw [hpos]
    rw [setKey_outside (fun n hn => h.unshadowed n (hn ▸ List.mem_of_getElem? hkey))
      (fun n hn he => absurd he (hne n hn)), hset, HashPart.toList_replace hi]
  inFront := by
    rintro i hi rfl rfl
    have hl := h.size_lt
    have hslot : t.slot? (Int64.ofNat (i + 1)) = some i := by
      rw [slot?_eq_some, Value.toInt_ofNat (by omega)]
      exact ⟨hi, rfl⟩
    show (t.setInt (Int64.ofNat (i + 1)) .nil).hash.nodes.toList = _
    rw [setInt_clear hslot]
    exact HashPart.toList_prependRun _ _ _

/-! ## inserting -/

/-- Moving values up inside the array part leaves the hash part alone. -/
theorem Inv.hash_shiftUp (p count : Nat) (hp : 1 ≤ p) : ∀ t : Table, t.Inv B →
    p + count ≤ t.array.size →
    (t.shiftUp p count).hash = t.hash ∧ (t.shiftUp p count).array.size = t.array.size := by
  induction count with
  | zero =>
    intro t _ _
    exact ⟨rfl, rfl⟩
  | succ count ih =>
    intro t h hc
    obtain ⟨hget, e⟩ := h.shiftUp_succ hp hc
    have hs : (t.array.setIfInBounds (p + count) (t.getInt (Int64.ofNat (p + count)))).size
        = t.array.size := Array.size_setIfInBounds
    obtain ⟨hhash, hsize⟩ := ih _ (h.setSlot hget (p + count)) (by dsimp only; omega)
    rw [e]
    exact ⟨hhash, hsize.trans hs⟩

theorem Inv.hashOrder_shiftUp_sublist (h : t.Inv B) {p count : Nat} (hp : 1 ≤ p)
    (hc : p + count = t.array.size) (hl : t.array.size < lastKey) (hB : t.Room B) :
    (t.shiftUp p (count + 1)).Inv B ∧ t.array.size < (t.shiftUp p (count + 1)).array.size ∧
      (t.shiftUp p (count + 1)).hashOrder.Sublist t.hashOrder := by
  obtain ⟨hget, e⟩ := h.shiftUp_grow hp hc hl
  have hgrow := h.absorb (full_push h.toParts hget) (Array.size_push _) hl hB
  have hsub := hashOrder_absorb_sublist
    { t with array := t.array.push (t.getInt (Int64.ofNat t.array.size)) }
  have hgrown := hgrow.grown
  rw [Array.size_push] at hgrown
  have hin := Nat.le_trans (Nat.le_of_eq hc) (Nat.le_of_succ_le hgrown)
  obtain ⟨hhash, hsize⟩ := Inv.hash_shiftUp p count hp _ hgrow.inv hin
  rw [e]
  refine ⟨Inv.shiftUp p count hp _ hgrow.inv hin, ?_, ?_⟩
  · rw [hsize]
    exact hgrown
  · unfold hashOrder
    rw [hhash]
    exact hsub

/-- Opening a gap: keys are drawn in, and then those behind the gap are cut off. -/
theorem Inv.keepsOrder_insertGap (h : t.Inv B) {p : Int64} (hp : 1 ≤ p.toInt)
    (hle : p.toInt ≤ t.array.size + 1) (hl : t.array.size < lastKey) (hB : t.Room B) :
    KeepsOrder t (t.insertAt p .nil) := by
  show KeepsOrder t ((t.shiftUp p.toInt.toNat (t.array.size + 1 - p.toInt.toNat)).setInt p .nil)
  cases hc : t.array.size + 1 - p.toInt.toNat with
  | zero => exact h.keepsOrder_setInt p .nil
  | succ count =>
    have hsum : p.toInt.toNat + count = t.array.size := by omega
    obtain ⟨hinv, hgrown, hsub⟩ := h.hashOrder_shiftUp_sublist (by omega) hsum hl hB
    generalize t.shiftUp p.toInt.toNat (count + 1) = u at hinv hgrown hsub ⊢
    have hi : p.toInt.toNat - 1 < u.array.size := by omega
    rw [setInt_clear (slot?_eq_some.mpr ⟨hi, by omega⟩)]
    refine ⟨_, _, hinv.hashOrder_split _, .of_sublist hsub h.nodup_hashOrder, .inr ?_⟩
    rw [size_split hi]
    exact ⟨by omega, _, rfl⟩

theorem Inv.keepsOrder_insertAt (h : t.Inv B) {p : Int64} (hp : t.hasRoomAt p = true)
    (hB : t.Room B) (v : Value) : KeepsOrder t (t.insertAt p v) := by
  obtain ⟨h1, hle, hl⟩ := hasRoomAt_bounds hp h.size_le_lastKey
  by_cases hv : v = .nil
  · rw [hv]
    exact h.keepsOrder_insertGap h1 hle hl hB
  · unfold Table.insertAt
    dsimp only
    rw [Value.isNil_eq_false.mpr hv]
    have hsub := hashOrder_absorb_sublist
      { t with array := t.array.insertIdxIfInBounds (p.toInt.toNat - 1) v }
    exact .of_sameOrder (.of_sublist hsub h.nodup_hashOrder)

theorem keepsOrder_removeAt (t : Table) (p : Int64) : KeepsOrder t (t.removeAt p) := by
  unfold Table.removeAt
  split
  · exact .of_hash rfl
  · exact .of_hash rfl

theorem Inv.keepsOrder_edit (h : t.Inv B) (hB : t.Room B) (e : Edit) :
    KeepsOrder t (t.edit e) := by
  cases e with
  | set key value =>
    show KeepsOrder t ((t.rawSet key value).toOption.getD t)
    unfold rawSet
    cases hk : key.key? with
    | none => exact .of_hash rfl
    | some k => exact h.keepsOrder_setKey (Value.isKey_of_key? hk) value
  | setInt key value => exact h.keepsOrder_setInt key value
  | setName name value => exact h.keepsOrder_setKey (Value.isKey_string _) value
  | push value => exact h.keepsOrder_setInt _ value
  | insert position value =>
    show KeepsOrder t (if t.hasRoomAt position then t.insertAt position value else t)
    split
    · rename_i hp
      exact h.keepsOrder_insertAt hp hB value
    · exact .of_hash rfl
  | remove position => exact t.keepsOrder_removeAt position

end Table

end LuaMachine
