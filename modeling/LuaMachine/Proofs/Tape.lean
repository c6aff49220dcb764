import LuaMachine.Proofs.Table

/-!
# What a table holds

The entries of a table are the live nodes of its tape.  Every write changes the tape in one of a few
ways, and each of them stores one value under one key and leaves all other entries alone.

* `Holds`              a list of nodes holds a value under a key;
* `Stores`             one list of nodes holds what another does, but for one key;
* `Inv.stores_setKey`  storing under a key;
* `Inv.holds_getKey`, `Inv.getKey_of_holds`   reading a key.
-/

namespace LuaMachine

/-- A live node gives the key the value. -/
def Holds (ns : List Node) (k v : Value) : Prop := v ≠ .nil ∧ ⟨k, v⟩ ∈ ns

/-- The second list holds `v` under `k`, nothing if `v` is nil, and else what the first one holds. -/
def Stores (ns : List Node) (k v : Value) (ns' : List Node) : Prop :=
  ∀ a b, Holds ns' a b ↔ (a = k ∧ b = v ∧ v ≠ .nil) ∨ (a ≠ k ∧ Holds ns a b)

variable {ns ms : List Node} {k v : Value} {i : Nat} {n : Node}

/-! ## lists of nodes -/

theorem holds_iff_filter : Holds ns k v ↔ ⟨k, v⟩ ∈ ns.filter Node.live := by
  rw [List.mem_filter, Node.live_iff]
  exact and_comm

theorem holds_append : Holds (ms ++ ns) k v ↔ Holds ms k v ∨ Holds ns k v := by
  unfold Holds
  rw [List.mem_append, and_or_left]

theorem holds_singleton {a b : Value} : Holds [⟨k, v⟩] a b ↔ a = k ∧ b = v ∧ v ≠ .nil := by
  unfold Holds
  rw [List.mem_singleton, Node.mk.injEq]
  constructor
  · rintro ⟨hb, rfl, rfl⟩
    exact ⟨rfl, rfl, hb⟩
  · rintro ⟨rfl, rfl, hv⟩
    exact ⟨hv, rfl, rfl⟩

theorem Holds.mem_keys (h : Holds ns k v) : k ∈ ns.map Node.key := List.mem_map_of_mem h.2

theorem Sound.ne_nil_of_holds (hs : Sound ns) (h : Holds ns k v) : k ≠ .nil :=
  fun hk => h.1 (hs.erased _ h.2 hk)

theorem Sound.index_unique (hs : Sound ns) {j : Nat} {m : Node} (hi : ns[i]? = some n)
    (hj : ns[j]? = some m) (hk : n.key ≠ .nil) (he : n.key = m.key) : i = j := by
  refine hs.distinct.index_unique hk ?_ ?_
  · rw [List.getElem?_map, hi]
    rfl
  · rw [List.getElem?_map, hj, he]
    rfl

theorem Sound.holds_unique (hs : Sound ns) {w : Value} (hv : Holds ns k v) (hw : Holds ns k w) :
    v = w := by
  obtain ⟨i, hi⟩ := List.mem_iff_getElem?.mp hv.2
  obtain ⟨j, hj⟩ := List.mem_iff_getElem?.mp hw.2
  rw [hs.index_unique hi hj (hs.ne_nil_of_holds hv) rfl, hj] at hi
  exact (Node.mk.inj (Option.some.inj hi)).2.symm

theorem Sound.nodup_live (hs : Sound ns) : ((ns.filter Node.live).map Node.key).Nodup := by
  have hd := (hs.sublist (List.filter_sublist (p := Node.live))).distinct
  refine List.Pairwise.imp_of_mem (fun {a b} ha _ hab => ?_) hd
  obtain ⟨n, hn, rfl⟩ := List.mem_map.mp ha
  exact hab (hs.ne_nil_of_holds (holds_iff_filter.mpr hn))

theorem Sound.stores_set (hs : Sound ns) (hn : ns[i]? = some n) (hk : n.key ≠ .nil) (v : Value) :
    Stores ns n.key v (ns.set i ⟨n.key, v⟩) := by
  have hi := (List.getElem?_eq_some_iff.mp hn).1
  intro a b
  constructor
  · rintro ⟨hb, hm⟩
    obtain ⟨j, hj⟩ := List.mem_iff_getElem?.mp hm
    rw [List.getElem?_set] at hj
    by_cases hij : i = j
    · rw [if_pos hij, if_pos hi] at hj
      obtain ⟨rfl, rfl⟩ := Node.mk.inj (Option.some.inj hj)
      exact .inl ⟨rfl, rfl, hb⟩
    · rw [if_neg hij] at hj
      refine .inr ⟨fun ha => ?_, hb, List.mem_of_getElem? hj⟩
      exact hij (hs.index_unique hn hj hk ha.symm)
  · rintro (⟨rfl, rfl, hv⟩ | ⟨ha, hb, hm⟩)
    · exact ⟨hv, List.mem_set hi _⟩
    · obtain ⟨j, hj⟩ := List.mem_iff_getElem?.mp hm
      have hij : i ≠ j := by
        rintro rfl
        rw [hn] at hj
        rw [Option.some.inj hj] at ha
        exact ha rfl
      exact ⟨hb, List.mem_of_getElem? (by rw [List.getElem?_set_ne hij]; exact hj)⟩

theorem Sound.stores_eraseIdx (hs : Sound ns) (hn : ns[i]? = some n) (hk : n.key ≠ .nil) :
    Stores ns n.key .nil (ns.eraseIdx i) := by
  intro a b
  unfold Holds
  rw [List.mem_eraseIdx_iff_getElem?]
  constructor
  · rintro ⟨hb, j, hij, hj⟩
    refine .inr ⟨fun ha => ?_, hb, List.mem_of_getElem? hj⟩
    exact hij (hs.index_unique hn hj hk ha.symm).symm
  · rintro (⟨_, _, hv⟩ | ⟨ha, hb, hm⟩)
    · exact absurd rfl hv
    · obtain ⟨j, hj⟩ := List.mem_iff_getElem?.mp hm
      refine ⟨hb, j, ?_, hj⟩
      rintro rfl
      rw [hn] at hj
      rw [Option.some.inj hj] at ha
      exact ha rfl

theorem stores_insert (hms : ∀ b, ¬ Holds ms k b) (hns : ∀ b, ¬ Holds ns k b) (v : Value) :
    Stores (ms ++ ns) k v (ms ++ [⟨k, v⟩] ++ ns) := by
  intro a b
  rw [holds_append, holds_append, holds_append, holds_singleton]
  constructor
  · rintro ((h | h) | h)
    · exact .inr ⟨fun ha => hms b (ha ▸ h), .inl h⟩
    · exact .inl h
    · exact .inr ⟨fun ha => hns b (ha ▸ h), .inr h⟩
  · rintro (h | ⟨_, h | h⟩)
    · exact .inl (.inr h)
    · exact .inl (.inl h)
    · exact .inr h

theorem stores_concat (hns : ∀ b, ¬ Holds ns k b) (v : Value) : Stores ns k v (ns ++ [⟨k, v⟩]) := by
  have hnil : ∀ b, ¬ Holds [] k b := fun b hb => nomatch hb.2
  have h := stores_insert hns hnil v
  rw [List.append_nil, List.append_nil] at h
  exact h

theorem stores_nil (hns : ∀ b, ¬ Holds ns k b) : Stores ns k .nil ns := by
  intro a b
  constructor
  · intro h
    exact .inr ⟨fun ha => hns b (ha ▸ h), h⟩
  · rintro (⟨_, _, hv⟩ | ⟨_, h⟩)
    · exact absurd rfl hv
    · exact h

theorem Stores.append_left {ns' : List Node} (h : Stores ns k v ns') (hms : ∀ b, ¬ Holds ms k b) :
    Stores (ms ++ ns) k v (ms ++ ns') := by
  intro a b
  rw [holds_append, holds_append, h a b]
  constructor
  · rintro (hm | hk | ⟨ha, hn⟩)
    · exact .inr ⟨fun ha => hms b (ha ▸ hm), .inl hm⟩
    · exact .inl hk
    · exact .inr ⟨ha, .inr hn⟩
  · rintro (hk | ⟨ha, hm | hn⟩)
    · exact .inr (.inl hk)
    · exact .inl hm
    · exact .inr (.inr ⟨ha, hn⟩)

theorem Stores.perm {ns' ms' : List Node} (h : Stores ns k v ns')
    (hm : (ms.filter Node.live).Perm (ns.filter Node.live))
    (hm' : (ms'.filter Node.live).Perm (ns'.filter Node.live)) : Stores ms k v ms' := by
  intro a b
  rw [holds_iff_filter, hm'.mem_iff, ← holds_iff_filter, h a b, holds_iff_filter, ← hm.mem_iff,
    ← holds_iff_filter]

/-! ## the hash part -/

namespace HashPart
variable {h : HashPart}

theorem Inv.stores_set (hv : h.Inv) (hk : k.IsKey) (hc : h.Exact k) (v : Value) :
    Stores h.nodes.toList k v (h.set k v).nodes.toList := by
  have absent : h.Fresh k → ∀ b, ¬ Holds h.nodes.toList k b := fun hf b hb => hf.1 hb.mem_keys
  rcases set_cases hv hk v with ⟨i, n, _, hn, hne, hr, e⟩ | ⟨hf, rfl, e⟩ | ⟨hf, _, e | e⟩
  · have hkey : n.key = k := hc n.key (List.mem_map_of_mem (List.mem_of_getElem? hn)) hr
    rw [e, toList_replace hn, ← hkey]
    exact hv.sound.stores_set hn hne v
  · rw [e]
    exact stores_nil (absent hf)
  · have hlive : (h.compact.nodes.toList.filter Node.live) = h.nodes.toList.filter Node.live := by
      rw [toList_compact, List.filter_filter]
      simp only [Bool.and_self]
    refine (stores_concat (absent hf) v).perm .rfl ?_
    rw [e, toList_append, List.filter_append, List.filter_append, hlive]
  · rw [e, toList_append]
    exact stores_concat (absent hf) v

theorem get?_of_node (hp : h.position? k = some i) (hn : h.nodes.toList[i]? = some n) :
    h.get? k = if n.live then some n.value else none := by
  rw [Array.getElem?_toList] at hn
  unfold get?
  rw [hp, Option.bind_some, hn, Option.bind_some]

theorem Inv.get?_of_holds (hv : h.Inv) (hk : k ≠ .nil) (hh : Holds h.nodes.toList k v) :
    h.get? k = some v := by
  obtain ⟨i, hi⟩ := List.mem_iff_getElem?.mp hh.2
  have hp : h.position? k = some i := hv.found_own hk (by rw [getElem?_keys, hi]; rfl)
  rw [get?_of_node hp hi, if_pos ((Node.live_iff _).mpr hh.1)]

theorem Inv.node_of_get? (hv : h.Inv) (hk : k.IsKey) (hg : h.get? k = some v) :
    ∃ i n, h.position? k = some i ∧ h.nodes.toList[i]? = some n ∧ n.live = true ∧ n.value = v ∧
      n.key.rawEq k = true := by
  cases hp : h.position? k with
  | none =>
    unfold get? at hg
    rw [hp] at hg
    cases hg
  | some i =>
    obtain ⟨n, hn, _, hr, _⟩ := hv.found hk hp
    rw [get?_of_node hp hn] at hg
    split at hg
    · rename_i hl
      exact ⟨i, n, rfl, hn, hl, Option.some.inj hg, hr⟩
    · cases hg

theorem Inv.holds_of_get? (hv : h.Inv) (hk : k.IsKey) (hc : h.Exact k) (hg : h.get? k = some v) :
    Holds h.nodes.toList k v := by
  obtain ⟨i, n, _, hn, hl, rfl, hr⟩ := hv.node_of_get? hk hg
  have hm := List.mem_of_getElem? hn
  obtain rfl := hc n.key (List.mem_map_of_mem hm) hr
  exact ⟨n.live_iff.mp hl, hm⟩

end HashPart

/-! ## the tape of a table -/

theorem Node.run_set (first : Nat) (vs : List Value) (i : Nat) (v : Value) :
    run first (vs.set i v) = (run first vs).set i ⟨Value.count (first + i), v⟩ := by
  apply List.ext_getElem?
  intro j
  rw [getElem?_run, List.getElem?_set, List.getElem?_set, length_run, getElem?_run]
  by_cases hij : i = j
  · rw [if_pos hij, if_pos hij, hij]
    split <;> rfl
  · rw [if_neg hij, if_neg hij]

namespace Table
variable {B : Nat} {t : Table}

theorem tape_setSlot {i : Nat} (hi : i < t.array.size) (v : Value) :
    ({ t with array := t.array.setIfInBounds i v } : Table).tape
      = t.tape.set i ⟨Value.count (i + 1), v⟩ := by
  unfold tape tapeOf
  rw [Array.toList_setIfInBounds, Node.run_set, Nat.add_comm 1,
    List.set_append_left _ _ (by rw [Node.length_run, Array.length_toList]; exact hi)]

theorem tape_split {i : Nat} (hi : i < t.array.size) : (t.split i).tape = t.tape.eraseIdx i := by
  have hlen : i < t.array.toList.length := by rw [Array.length_toList]; exact hi
  have hrun : Node.run 1 t.array.toList
      = Node.run 1 (t.array.toList.take i) ++
        ⟨Value.count (1 + i), t.array.toList[i]⟩ :: Node.run (i + 2) (t.array.toList.drop (i + 1)) := by
    conv => lhs; rw [← List.take_append_drop i t.array.toList, List.drop_eq_getElem_cons hlen]
    rw [Node.run_append, Node.run_cons, List.length_take_of_le (Nat.le_of_lt hlen),
      show 1 + i + 1 = i + 2 by omega]
  have hat : (Node.run 1 (t.array.toList.take i)).length = i := by
    rw [Node.length_run, List.length_take_of_le (Nat.le_of_lt hlen)]
  show Node.run 1 (t.array.extract 0 i).toList ++ (t.hash.prependRun _ _).nodes.toList = _
  unfold tape tapeOf
  rw [HashPart.toList_prependRun, Array.toList_extract, List.extract_eq_take_drop, hrun,
    List.append_assoc, List.eraseIdx_append_of_length_le (by omega), hat, Nat.sub_self]
  rfl

theorem getElem?_tape {i : Nat} (hi : i < t.array.size) :
    t.tape[i]? = some ⟨Value.count (i + 1), t.array[i]⟩ := by
  unfold tape tapeOf
  rw [List.getElem?_append_left (by rw [Node.length_run, Array.length_toList]; exact hi),
    Node.getElem?_run, Array.getElem?_toList, Array.getElem?_eq_getElem hi, Nat.add_comm 1]
  rfl

theorem Inv.sound_tape (h : t.Inv B) : Sound t.tape := by
  have hl := h.size_lt
  refine h.kept.sound.prepend (by rw [Array.length_toList]; omega) fun j hj hm => ?_
  rw [Array.length_toList] at hj
  refine h.unshadowed (Int64.ofNat (1 + j)) hm ?_
  unfold Within
  rw [Value.toInt_ofNat (by omega)]
  omega

theorem within_of_holds_run {array : Array Value} (hl : array.size ≤ lastKey) {k : Int64} {v : Value}
    (h : Holds (Node.run 1 array.toList) (.integer k) v) : Within array.size k := by
  obtain ⟨j, w, hj, e⟩ := Node.mem_run h.2
  have hjl := (List.getElem?_eq_some_iff.mp hj).1
  rw [Array.length_toList] at hjl
  rw [lastKey_eq] at hl
  unfold Within
  rw [Value.integer.inj (Node.mk.inj e).1, Value.toInt_ofNat (by omega)]
  omega

/-- A key outside the array part is in no node that the array part stands for. -/
theorem Inv.not_holds_run (h : t.Inv B) (hk : ∀ n, k = .integer n → ¬ Within t.array.size n) :
    ∀ b, ¬ Holds (Node.run 1 t.array.toList) k b := by
  intro b hb
  obtain ⟨j, w, _, e⟩ := Node.mem_run hb.2
  have hkey : k = .integer (Int64.ofNat (1 + j)) := (Node.mk.inj e).1
  rw [hkey] at hb
  exact hk _ hkey (within_of_holds_run h.size_le_lastKey hb)

/-! ## writing -/

theorem getElem?_tape_slot {k : Int64} {i : Nat} (hs : t.slot? k = some i) :
    ∃ v, t.array[i]? = some v ∧ t.tape[i]? = some ⟨.integer k, v⟩ := by
  obtain ⟨hi, hk⟩ := slot?_eq_some.mp hs
  have hkey : Value.integer k = Value.count (i + 1) := Value.integer_eq_count hk
  exact ⟨t.array[i], Array.getElem?_eq_getElem hi, by rw [getElem?_tape hi, hkey]⟩

/-- Growing the array part stores a value under the key that follows it. -/
theorem Inv.stores_next (h : t.Inv B) {k : Int64} (hk : k.toInt = t.array.size + 1)
    (hv : v ≠ .nil) (hB : t.Room B) :
    Stores t.tape (.integer k) v ({ t with array := t.array.push v } : Table).absorb.tape := by
  have hkey : Value.integer k = Value.count (t.array.size + 1) := Value.integer_eq_count hk
  have hmoved :=
    (h.absorb (full_push h.toParts hv) (Array.size_push v) (lt_lastKey hk) hB).moved
  have hins : Stores t.tape (.integer k) v (tapeOf (t.array.push v) t.hash) := by
    rw [tapeOf_push, ← hkey, ← List.singleton_append, ← List.append_assoc]
    refine stores_insert (h.not_holds_run fun n hn hw => ?_) (fun b hb => ?_) v
    · rw [← Value.integer.inj hn] at hw
      have := hw.2
      omega
    · exact h.border _ hb.2 ((Node.live_iff _).mpr hb.1) k rfl hk
  exact hins.perm .rfl hmoved

theorem Inv.stores_setHash (h : t.Inv B) (hk : k.IsKey) (hx : t.hash.Exact k)
    (hn : ∀ n, k = .integer n → ¬ Within t.array.size n) (v : Value) :
    Stores t.tape k v ({ t with hash := t.hash.set k v } : Table).tape :=
  (h.kept.stores_set hk hx v).append_left (h.not_holds_run hn)

theorem Inv.stores_setInt (h : t.Inv B) {k : Int64} (hx : t.hash.Exact (.integer k))
    (hB : v ≠ .nil → t.Room B) : Stores t.tape (.integer k) v (t.setInt k v).tape := by
  rcases setInt_cases t k v with ⟨i, hs, hv, e⟩ | ⟨i, hs, rfl, e⟩ | ⟨hk, hv, e⟩ | ⟨hw, hk, e⟩
  · obtain ⟨hi, hki⟩ := slot?_eq_some.mp hs
    obtain ⟨w, _, hn⟩ := getElem?_tape_slot hs
    have hkey : Value.integer k = Value.count (i + 1) := Value.integer_eq_count hki
    rw [e, tape_setSlot hi, ← hkey]
    exact h.sound_tape.stores_set hn (Value.isKey_integer k).ne_nil v
  · obtain ⟨w, _, hn⟩ := getElem?_tape_slot hs
    rw [e, tape_split (slot?_eq_some.mp hs).1]
    exact h.sound_tape.stores_eraseIdx hn (Value.isKey_integer k).ne_nil
  · rw [e]
    exact h.stores_next hk hv (hB hv)
  · rw [e]
    refine h.stores_setHash (Value.isKey_integer k) hx (fun n hn => ?_) v
    rw [← Value.integer.inj hn]
    exact hw

theorem Inv.stores_setKey (h : t.Inv B) (hk : k.IsKey) (hx : t.hash.Exact k)
    (hB : v ≠ .nil → t.Room B) : Stores t.tape k v (t.setKey k v).tape := by
  unfold Table.setKey
  split
  · exact h.stores_setInt hx hB
  · rename_i hne
    exact h.stores_setHash hk hx (fun n hn => absurd hn (hne n)) v

/-! ## reading -/

theorem getKey_slot {k : Int64} {i : Nat} {v : Value} (hs : t.slot? k = some i)
    (hv : t.array[i]? = some v) : t.getKey (.integer k) = v := by
  show t.getInt k = v
  unfold getInt
  rw [hs]
  dsimp only
  rw [Array.getD_eq_getD_getElem?, hv]
  rfl

theorem getKey_outside (hn : ∀ n, k = .integer n → ¬ Within t.array.size n) :
    t.getKey k = (t.hash.get? k).getD .nil := by
  cases k with
  | integer n =>
    show t.getInt n = _
    unfold getInt
    rw [slot?_eq_none.mpr (hn n rfl)]
  | _ => rfl

theorem slot_or_outside (t : Table) (k : Value) :
    (∃ n i, k = .integer n ∧ t.slot? n = some i) ∨
      ∀ n, k = .integer n → ¬ Within t.array.size n := by
  cases k with
  | integer n =>
    cases hs : t.slot? n with
    | some i => exact .inl ⟨n, i, rfl, hs⟩
    | none => exact .inr fun m hm => Value.integer.inj hm ▸ slot?_eq_none.mp hs
  | _ => exact .inr fun n hn => nomatch hn

/-- **What the tape holds is read.** -/
theorem Inv.getKey_of_holds (h : t.Inv B) (hh : Holds t.tape k v) : t.getKey k = v := by
  rcases t.slot_or_outside k with ⟨n, i, rfl, hs⟩ | hn
  · obtain ⟨w, hw, hi⟩ := getElem?_tape_slot hs
    have hne : w ≠ .nil := h.full w (Array.mem_toList_iff.mpr (Array.mem_of_getElem? hw))
    rw [getKey_slot hs hw]
    exact h.sound_tape.holds_unique ⟨hne, List.mem_of_getElem? hi⟩ hh
  · rcases holds_append.mp hh with hr | hr
    · exact absurd hr (h.not_holds_run hn v)
    · rw [getKey_outside hn, h.kept.get?_of_holds (h.sound_tape.ne_nil_of_holds hh) hr]
      rfl

/-- **What is read is on the tape**, if the search stops at no other key. -/
theorem Inv.holds_getKey (h : t.Inv B) (hk : k.IsKey) (hx : t.hash.Exact k)
    (hne : t.getKey k ≠ .nil) : Holds t.tape k (t.getKey k) := by
  rcases t.slot_or_outside k with ⟨n, i, rfl, hs⟩ | hn
  · obtain ⟨w, hw, hi⟩ := getElem?_tape_slot hs
    rw [getKey_slot hs hw] at hne ⊢
    exact ⟨hne, List.mem_of_getElem? hi⟩
  · rw [getKey_outside hn] at hne ⊢
    cases hg : t.hash.get? k with
    | none =>
      rw [hg] at hne
      exact absurd rfl hne
    | some v => exact holds_append.mpr (.inr (h.kept.holds_of_get? hk hx hg))

/-- **What is present is on the tape**, unless a float is found in the place of an integer. -/
theorem Inv.holds_of_contains (h : t.Inv B) {key : Value} (hk : key.key? = some k)
    (hp : k ≠ .float Double.twoPow63) (hf : ∀ v, ¬ Holds t.tape (.float Double.twoPow63) v)
    (hc : t.contains key = true) : ∃ v, Holds t.tape k v := by
  have hkey := Value.isKey_of_key? hk
  unfold contains rawGet at hc
  rw [hk] at hc
  dsimp only at hc
  rw [Bool.not_eq_true', Value.isNil_eq_false] at hc
  rcases t.slot_or_outside k with ⟨n, i, rfl, hs⟩ | hn
  · obtain ⟨w, hw, hi⟩ := getElem?_tape_slot hs
    exact ⟨w, h.full w (Array.mem_toList_iff.mpr (Array.mem_of_getElem? hw)),
      List.mem_of_getElem? hi⟩
  · rw [getKey_outside hn] at hc
    cases hg : t.hash.get? k with
    | none =>
      rw [hg] at hc
      exact absurd rfl hc
    | some v =>
      obtain ⟨i, m, _, hm, hl, _, hr⟩ := h.kept.node_of_get? hkey hg
      have hmem := List.mem_of_getElem? hm
      have hholds : Holds t.tape m.key m.value :=
        ⟨m.live_iff.mp hl, List.mem_append_right _ hmem⟩
      have hmk := h.sound_tape.normal _ hholds.2 (h.sound_tape.ne_nil_of_holds hholds)
      rcases Value.rawEq_cases hmk hkey hr with e | ⟨_, _, e, _⟩ | ⟨_, e, _, _⟩
      · exact ⟨m.value, e ▸ hholds⟩
      · exact absurd e hp
      · rw [e] at hholds
        exact absurd hholds (hf _)

end Table

end LuaMachine
