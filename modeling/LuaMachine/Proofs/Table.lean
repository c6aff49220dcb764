import LuaMachine.Proofs.HashPart
import LuaMachine.Table.Sequence

/-!
# What a table keeps

The array part holds the keys `1, …, n` and no nil; the hash part has a node for none of them, and no
live node for `n + 1`.  Writing moves entries between the parts: a push draws the keys that follow
out of the hash part, and a gap sends the keys behind it there.

* `tape`           all nodes of a table in the order of a traversal;
* `Parts`          what holds of the two parts while keys are drawn in;
* `Inv`            what holds of a table between writes: `Parts`, and a border;
* `setInt_cases`   the four things that storing under an integer can do;
* `Inv.setInt`, `Inv.setKey`   storing keeps the invariant.

The invariant has a bound `B` on the size of the array part.  It must be such that no key of the
table but an integer itself is raw-equal to an integer up to `B + 1`.
-/

namespace LuaMachine

/-- No integer up to `B + 1` is raw-equal to the key, unless it is the key. -/
def Value.Clear (B : Nat) (k : Value) : Prop :=
  ∀ n : Int64, n.toInt ≤ B + 1 → k.rawEq (.integer n) = true → k = .integer n

theorem Value.clear_integer (B : Nat) (m : Int64) : (integer m).Clear B :=
  fun _ _ h => congrArg integer (eq_of_rawEq_integer h)

theorem Value.clear_nil (B : Nat) : nil.Clear B := fun _ _ h => by cases h

namespace Table

def Within (s : Nat) (n : Int64) : Prop := 1 ≤ n.toInt ∧ n.toInt ≤ s

theorem lastKey_eq : lastKey = 2 ^ 63 - 1 := rfl

theorem lt_lastKey {k : Int64} {n : Nat} (h : k.toInt = n + 1) : n < lastKey := by
  have := k.toInt_lt
  rw [lastKey_eq]
  omega

variable {B : Nat} {array : Array Value} {hash : HashPart}

/-! ## the tape -/

/-- The nodes of the two parts in the order of a traversal: one for each value of the array part,
then those of the hash part. -/
def tapeOf (array : Array Value) (hash : HashPart) : List Node :=
  Node.run 1 array.toList ++ hash.nodes.toList

def tape (t : Table) : List Node := tapeOf t.array t.hash

theorem tapeOf_push (array : Array Value) (v : Value) (hash : HashPart) :
    tapeOf (array.push v) hash
      = Node.run 1 array.toList ++ ⟨Value.count (array.size + 1), v⟩ :: hash.nodes.toList := by
  unfold tapeOf
  rw [Array.toList_push, Node.run_append, List.append_assoc, Array.length_toList, Nat.add_comm 1]
  rfl

theorem length_filter_tapeOf (hf : ∀ v ∈ array.toList, v ≠ .nil) (hv : hash.Inv) :
    ((tapeOf array hash).filter Node.live).length = array.size + hash.live := by
  unfold tapeOf
  rw [List.filter_append, List.length_append, ← hv.live_eq_length,
    List.filter_eq_self.mpr fun _ hm => Node.live_of_mem_run hf hm, Node.length_run,
    Array.length_toList]

/-! ## drawing keys in -/

/-- An array part without nils, and a hash part without nodes for its keys. -/
structure Parts (B : Nat) (array : Array Value) (hash : HashPart) : Prop where
  full : ∀ v ∈ array.toList, v ≠ .nil
  kept : hash.Inv
  clear : ∀ k ∈ hash.keys, k.Clear B
  unshadowed : ∀ n : Int64, Value.integer n ∈ hash.keys → ¬ Within array.size n
  size_le : array.size ≤ B
  size_le_lastKey : array.size ≤ lastKey

theorem Parts.size_lt (h : Parts B array hash) : array.size < 2 ^ 63 := by
  have hl := h.size_le_lastKey
  rw [lastKey_eq] at hl
  omega

def Border (array : Array Value) (hash : HashPart) : Prop :=
  ∀ n ∈ hash.nodes.toList, n.live = true → ∀ k : Int64, n.key = .integer k →
    k.toInt ≠ array.size + 1

/-- A search for an integer up to one past the array part stops at no other key. -/
theorem Parts.exact (h : Parts B array hash) {n : Nat} (hn : n ≤ array.size + 1) (hl : n ≤ lastKey) :
    hash.Exact (Value.count n) := by
  intro a ha
  have hs := h.size_le
  rw [lastKey_eq] at hl
  exact h.clear a ha _ (by rw [Value.toInt_ofNat (by omega)]; omega)

theorem Parts.take (h : Parts B array hash) {k : Value} (hk : k.IsKey) :
    Parts B array (hash.take k).2 where
  full := h.full
  kept := h.kept.take hk
  clear := by
    intro a ha
    rcases HashPart.mem_keys_take h.kept hk ha with ha | rfl
    · exact h.clear a ha
    · exact Value.clear_nil B
  unshadowed := by
    intro n hn
    rcases HashPart.mem_keys_take h.kept hk hn with hn | hn
    · exact h.unshadowed n hn
    · cases hn
  size_le := h.size_le
  size_le_lastKey := h.size_le_lastKey

/-- Another array part, longer by one, if the hash part has no node for its last key. -/
theorem Parts.grow (h : Parts B array hash) {array' : Array Value}
    (hf : ∀ v ∈ array'.toList, v ≠ .nil) (hs : array'.size = array.size + 1)
    (hm : Value.count (array.size + 1) ∉ hash.keys) (hB : array.size < B)
    (hl : array.size < lastKey) : Parts B array' hash where
  full := hf
  kept := h.kept
  clear := h.clear
  unshadowed := by
    intro n hn hw
    unfold Within at hw
    rw [hs] at hw
    by_cases he : n.toInt ≤ array.size
    · exact h.unshadowed n hn ⟨hw.1, he⟩
    · have : Value.integer n = Value.count (array.size + 1) := Value.integer_eq_count (by omega)
      exact hm (this ▸ hn)
  size_le := by omega
  size_le_lastKey := by omega

/-- What drawing keys in keeps, and where it ends. -/
structure Absorbed (B : Nat) (array : Array Value) (hash : HashPart) (r : Array Value × HashPart) :
    Prop where
  parts : Parts B r.1 r.2
  border : Border r.1 r.2
  moved : ((tapeOf r.1 r.2).filter Node.live).Perm ((tapeOf array hash).filter Node.live)
  grown : array.size ≤ r.1.size

theorem moved_push {hash' : HashPart} {v : Value}
    (hp : (⟨Value.count (array.size + 1), v⟩ :: hash'.nodes.toList.filter Node.live).Perm
      (hash.nodes.toList.filter Node.live)) (hv : v ≠ .nil) :
    ((tapeOf (array.push v) hash').filter Node.live).Perm ((tapeOf array hash).filter Node.live) := by
  rw [tapeOf_push, tapeOf, List.filter_append, List.filter_append,
    List.filter_cons_of_pos ((Node.live_iff _).mpr hv)]
  exact hp.append_left _

theorem full_push (h : Parts B array hash) {v : Value} (hv : v ≠ .nil) :
    ∀ w ∈ (array.push v).toList, w ≠ .nil := by
  intro w hw
  rw [Array.toList_push, List.mem_append, List.mem_singleton] at hw
  rcases hw with hw | rfl
  · exact h.full w hw
  · exact hv

theorem absorbRun_spec (fuel : Nat) : ∀ (array : Array Value) (hash : HashPart),
    Parts B array hash → hash.live < fuel → (array.size + hash.live ≤ B ∨ lastKey ≤ B) →
    Absorbed B array hash (absorbRun fuel array hash) := by
  induction fuel with
  | zero => intro array hash _ hf; omega
  | succ fuel ih =>
    intro array hash hp hf hB
    rw [absorbRun]
    dsimp only
    have hkey := Value.isKey_count (array.size + 1)
    have hgone := HashPart.not_mem_keys_take hp.kept hkey
    split
    · rename_i hlt
      split
      · rename_i hnil
        rw [Value.isNil_iff] at hnil
        refine ⟨hp.take hkey, fun n hn _ k hk hc => ?_, ?_, Nat.le_refl _⟩
        · have : n.key = Value.count (array.size + 1) := hk.trans (Value.integer_eq_count hc)
          exact hgone (List.mem_map.mpr ⟨n, hn, this⟩)
        · rw [tapeOf, tapeOf, List.filter_append, List.filter_append,
            HashPart.live_nodes_take_nil hp.kept hkey hnil]
      · rename_i hnil
        rw [Value.isNil_iff] at hnil
        have hperm := HashPart.live_nodes_take hp.kept hkey (hp.exact (Nat.le_refl _) hlt) hnil
        have hlive := hperm.length_eq
        rw [List.length_cons, ← hp.kept.live_eq_length,
          ← (hp.kept.take hkey).live_eq_length] at hlive
        have h := ih _ _ ((hp.take hkey).grow (full_push hp hnil) (Array.size_push _) hgone
          (by omega) hlt) (by omega) (by rw [Array.size_push]; omega)
        have hgrown := h.grown
        rw [Array.size_push] at hgrown
        exact ⟨h.parts, h.border, h.moved.trans (moved_push hperm hnil), by omega⟩
    · -- the integers end here
      rename_i hlt
      refine ⟨hp, fun n _ _ k _ hc => ?_, .rfl, Nat.le_refl _⟩
      have := k.toInt_lt
      rw [lastKey_eq] at hlt
      change k.toInt = array.size + 1 at hc
      omega

/-! ## the invariant -/

variable {t : Table}

/-- What holds of a table between writes. -/
structure Inv (B : Nat) (t : Table) : Prop extends Parts B t.array t.hash where
  border : Border t.array t.hash

/-- How many entries a table has. -/
def size (t : Table) : Nat := t.array.size + t.hash.live

def Room (B : Nat) (t : Table) : Prop := t.size < B ∨ lastKey ≤ B

theorem inv_empty (B capacity : Nat) : (empty capacity).Inv B where
  full := by intro v hv; cases hv
  kept := HashPart.inv_empty capacity
  clear := by intro k hk; cases hk
  unshadowed := by intro n hn; cases hn
  size_le := Nat.zero_le B
  size_le_lastKey := Nat.zero_le lastKey
  border := by intro n hn; cases hn

theorem Absorbed.inv (h : Absorbed B array hash (t.array, t.hash)) : t.Inv B := ⟨h.parts, h.border⟩

theorem absorb_empty (he : hash.nodes.isEmpty = true) (metatable : Option TableId) :
    absorb ⟨array, hash, metatable⟩ = ⟨array, hash, metatable⟩ := if_pos he

theorem absorb_nodes {n : Nat} (hn : array.size = n) (he : ¬ hash.nodes.isEmpty = true)
    (metatable : Option TableId) :
    let rest := (hash.take (Value.count n)).2
    absorb ⟨array, hash, metatable⟩ = ⟨(absorbRun (rest.nodes.size + 1) array rest).1,
      (absorbRun (rest.nodes.size + 1) array rest).2, metatable⟩ := by
  subst hn
  exact if_neg he

theorem metatable_absorb (t : Table) : t.absorb.metatable = t.metatable := by
  obtain ⟨array, hash, metatable⟩ := t
  by_cases he : hash.nodes.isEmpty = true
  · rw [absorb_empty he]
  · rw [absorb_nodes rfl he]

theorem Inv.take_border (h : t.Inv B) (hl : t.array.size < lastKey) :
    (t.hash.take (Value.count (t.array.size + 1))).1 = .nil := by
  by_contra hne
  have hperm := HashPart.live_nodes_take h.kept (Value.isKey_count _)
    (h.exact (Nat.le_refl _) hl) hne
  have hm := List.mem_filter.mp (hperm.subset List.mem_cons_self)
  rw [lastKey_eq] at hl
  exact h.border _ hm.1 hm.2 _ rfl (Value.toInt_ofNat (by omega))

/-- **Growing the array part by one and drawing keys in.** -/
theorem Inv.absorb (h : t.Inv B) {array : Array Value} (hf : ∀ v ∈ array.toList, v ≠ .nil)
    (hs : array.size = t.array.size + 1) (hl : t.array.size < lastKey) (hB : t.Room B) :
    Absorbed B array t.hash
      (({ t with array } : Table).absorb.array, ({ t with array } : Table).absorb.hash) := by
  have hroom : t.array.size + t.hash.live < B ∨ lastKey ≤ B := hB
  have hlt : t.array.size < B := by omega
  by_cases he : t.hash.nodes.isEmpty = true
  · have hnodes : t.hash.nodes.toList = [] := by rw [Array.isEmpty_iff.mp he]
    have hkeys : t.hash.keys = [] := by
      unfold HashPart.keys
      rw [hnodes, List.map_nil]
    rw [absorb_empty he]
    have hp := h.toParts.grow hf hs (by rw [hkeys]; exact List.not_mem_nil) hlt hl
    refine ⟨hp, fun n hn => ?_, .rfl, Nat.le_refl _⟩
    change n ∈ t.hash.nodes.toList at hn
    rw [hnodes] at hn
    cases hn
  · have hkey := Value.isKey_count (t.array.size + 1)
    have hnil := h.take_border hl
    have hlive := HashPart.live_nodes_take_nil h.kept hkey hnil
    have hp := (h.toParts.take hkey).grow hf hs (HashPart.not_mem_keys_take h.kept hkey) hlt hl
    have hcount : (t.hash.take (Value.count (t.array.size + 1))).2.live = t.hash.live := by
      rw [hp.kept.live_eq_length, hlive, ← h.kept.live_eq_length]
    have hr := absorbRun_spec _ _ _ hp (Nat.lt_succ_of_le hp.kept.live_le)
      (by rw [hs, hcount]; omega)
    rw [absorb_nodes hs he]
    refine ⟨hr.parts, hr.border, hr.moved.trans ?_, hr.grown⟩
    rw [tapeOf, tapeOf, List.filter_append, List.filter_append, hlive]

/-! ## storing under an integer -/

theorem slot?_eq_some {k : Int64} {i : Nat} :
    t.slot? k = some i ↔ i < t.array.size ∧ k.toInt = i + 1 := by
  unfold slot?
  split
  · rw [Option.some_inj]
    omega
  · simp only [reduceCtorEq, false_iff]
    omega

theorem slot?_eq_none {k : Int64} : t.slot? k = none ↔ ¬ Within t.array.size k := by
  unfold slot? Within
  split <;> simp_all

/-- Clearing the last key of the array part is a split with nothing behind. -/
theorem split_last {i : Nat} (hi : i + 1 = t.array.size) :
    t.split i = { t with array := t.array.pop } := by
  unfold split
  rw [Array.extract_eq_pop (by omega), List.drop_eq_nil_of_le (by rw [Array.length_toList]; omega)]
  rfl

theorem setInt_slot {k : Int64} {i : Nat} (hs : t.slot? k = some i) {v : Value} (hv : v ≠ .nil) :
    t.setInt k v = { t with array := t.array.setIfInBounds i v } := by
  unfold setInt
  rw [hs, Value.isNil_eq_false.mpr hv]
  rfl

theorem setInt_clear {k : Int64} {i : Nat} (hs : t.slot? k = some i) :
    t.setInt k .nil = t.split i := by
  unfold setInt
  rw [hs]
  by_cases hi : i + 1 = t.array.size
  · rw [split_last hi]
    exact if_pos (beq_iff_eq.mpr hi)
  · exact if_neg (mt beq_iff_eq.mp hi)

theorem setInt_next {k : Int64} (hk : k.toInt = t.array.size + 1) {v : Value} (hv : v ≠ .nil) :
    t.setInt k v = { t with array := t.array.push v }.absorb := by
  have hs : t.slot? k = none := slot?_eq_none.mpr fun hw => by have := hw.2; omega
  unfold setInt
  rw [hs, Value.isNil_eq_false.mpr hv]
  exact if_pos ⟨hk, rfl⟩

theorem setInt_outside {k : Int64} (hw : ¬ Within t.array.size k) {v : Value}
    (hk : k.toInt = t.array.size + 1 → v = .nil) :
    t.setInt k v = { t with hash := t.hash.set (.integer k) v } := by
  unfold setInt
  rw [slot?_eq_none.mpr hw]
  refine if_neg fun hc => ?_
  rw [hk hc.1] at hc
  cases hc.2

/-- What storing under an integer does: another value for an array slot, a split, growth of the
array part, or storing in the hash part. -/
theorem setInt_cases (t : Table) (k : Int64) (v : Value) :
    (∃ i, t.slot? k = some i ∧ v ≠ .nil ∧
      t.setInt k v = { t with array := t.array.setIfInBounds i v }) ∨
    (∃ i, t.slot? k = some i ∧ v = .nil ∧ t.setInt k v = t.split i) ∨
    (k.toInt = t.array.size + 1 ∧ v ≠ .nil ∧
      t.setInt k v = { t with array := t.array.push v }.absorb) ∨
    (¬ Within t.array.size k ∧ (k.toInt = t.array.size + 1 → v = .nil) ∧
      t.setInt k v = { t with hash := t.hash.set (.integer k) v }) := by
  cases hs : t.slot? k with
  | some i =>
    by_cases hv : v = .nil
    · subst hv
      exact .inr (.inl ⟨i, rfl, rfl, setInt_clear hs⟩)
    · exact .inl ⟨i, rfl, hv, setInt_slot hs hv⟩
  | none =>
    by_cases hk : k.toInt = t.array.size + 1 ∧ v ≠ .nil
    · exact .inr (.inr (.inl ⟨hk.1, hk.2, setInt_next hk.1 hk.2⟩))
    · have hk' : k.toInt = t.array.size + 1 → v = .nil := fun he => not_not.mp fun hn => hk ⟨he, hn⟩
      have hw := slot?_eq_none.mp hs
      exact .inr (.inr (.inr ⟨hw, hk', setInt_outside hw hk'⟩))

theorem metatable_setInt (t : Table) (k : Int64) (v : Value) :
    (t.setInt k v).metatable = t.metatable := by
  rcases setInt_cases t k v with ⟨i, _, _, e⟩ | ⟨i, _, _, e⟩ | ⟨_, _, e⟩ | ⟨_, _, e⟩
  · rw [e]
  · rw [e]
    rfl
  · rw [e, metatable_absorb]
  · rw [e]

theorem Inv.setSlot (h : t.Inv B) {v : Value} (hv : v ≠ .nil) (i : Nat) :
    Inv B { t with array := t.array.setIfInBounds i v } := by
  have hs : (t.array.setIfInBounds i v).size = t.array.size := Array.size_setIfInBounds
  refine ⟨⟨fun w hw => ?_, h.kept, h.clear, ?_, ?_, ?_⟩, ?_⟩
  · rw [Array.toList_setIfInBounds] at hw
    rcases List.mem_or_eq_of_mem_set hw with hw | rfl
    · exact h.full w hw
    · exact hv
  · exact hs ▸ h.unshadowed
  · exact hs ▸ h.size_le
  · exact hs ▸ h.size_le_lastKey
  · intro n hn hl k hk
    dsimp only
    rw [hs]
    exact h.border n hn hl k hk

/-- An array part that is shorter by one: its last key had no node, so there is none now. -/
theorem Inv.shorten (h : t.Inv B) {array : Array Value} (hf : ∀ v ∈ array.toList, v ≠ .nil)
    (hs : array.size + 1 = t.array.size) : Inv B { t with array } := by
  have hB := h.size_le
  have hl := h.size_le_lastKey
  refine ⟨⟨hf, h.kept, h.clear, fun n hn hw => ?_, ?_, ?_⟩, fun n hn _ k hk he => ?_⟩
  · exact h.unshadowed n hn ⟨hw.1, by have := hw.2; dsimp only at this; omega⟩
  · dsimp only; omega
  · dsimp only; omega
  · dsimp only at he
    exact h.unshadowed k (List.mem_map.mpr ⟨n, hn, hk⟩) ⟨by omega, by omega⟩

/-- The keys behind a gap are raw-equal to no key of the hash part. -/
theorem Inv.apart_run (h : t.Inv B) {i j : Nat} (hj : i + 1 + j < t.array.size) {a : Value}
    (ha : a ∈ t.hash.keys) : a.rawEq (Value.count (i + 2 + j)) = false := by
  have hl := h.size_le_lastKey
  rw [Bool.eq_false_iff]
  intro hr
  have hm : Value.count (i + 2 + j) ∈ t.hash.keys :=
    h.exact (n := i + 2 + j) (by omega) (by omega) a ha hr ▸ ha
  rw [lastKey_eq] at hl
  refine h.unshadowed (Int64.ofNat (i + 2 + j)) hm ?_
  unfold Within
  rw [Value.toInt_ofNat (by omega)]
  omega

theorem length_drop_array (t : Table) (i : Nat) :
    (t.array.toList.drop i).length = t.array.size - i := by
  rw [List.length_drop, Array.length_toList]

theorem keys_split (t : Table) (i : Nat) : (t.split i).hash.keys
    = (Node.run (i + 2) (t.array.toList.drop (i + 1))).map Node.key ++ t.hash.keys :=
  HashPart.keys_prependRun _ _ _

/-- After a split, the positive integers of the hash part are those behind the gap and those that
were past the array part. -/
theorem Inv.le_of_mem_split (h : t.Inv B) {i : Nat} (hi : i < t.array.size) {k : Int64}
    (hk : Value.integer k ∈ (t.split i).hash.keys) (hpos : 1 ≤ k.toInt) : i + 2 ≤ k.toInt := by
  have hl := h.size_lt
  have hlen := t.length_drop_array (i + 1)
  rw [keys_split, List.mem_append] at hk
  rcases hk with hk | hk
  · exact_mod_cast Node.le_of_mem_run (by omega) hk
  · have hw := h.unshadowed k hk
    unfold Within at hw
    omega

theorem Inv.split (h : t.Inv B) {i : Nat} (hi : i < t.array.size) : (t.split i).Inv B := by
  have hB := h.size_le
  have hl := h.size_lt
  have hlast := h.size_le_lastKey
  have hlen := t.length_drop_array (i + 1)
  have hs : (t.split i).array.size = i := by
    show (t.array.extract 0 i).size = i
    rw [Array.size_extract]
    omega
  refine ⟨⟨fun w hw => ?_, ?_, fun k hk => ?_, fun n hn hw => ?_, by omega, by omega⟩,
    fun n hn _ k hk he => ?_⟩
  · change w ∈ (t.array.extract 0 i).toList at hw
    rw [Array.toList_extract, List.extract_eq_take_drop] at hw
    exact h.full w (List.mem_of_mem_drop (List.mem_of_mem_take hw))
  · exact h.kept.prependRun (fun v hv => h.full v (List.mem_of_mem_drop hv)) (by omega)
      fun j hj a ha => h.apart_run (by omega) ha
  · rw [keys_split, List.mem_append] at hk
    rcases hk with hk | hk
    · obtain ⟨m, hm, rfl⟩ := List.mem_map.mp hk
      obtain ⟨j, v, _, rfl⟩ := Node.mem_run hm
      exact Value.clear_integer B _
    · exact h.clear k hk
  · have hle := h.le_of_mem_split hi hn hw.1
    have := hw.2
    omega
  · have := h.le_of_mem_split hi (List.mem_map.mpr ⟨n, hn, hk⟩) (by omega)
    omega

/-- A value in the hash part, under a key that does not continue the array part. -/
theorem Inv.setHash (h : t.Inv B) {k v : Value} (hk : k.IsKey) (hc : k.Clear B)
    (hn : ∀ n, k = .integer n → ¬ Within t.array.size n ∧ (n.toInt = t.array.size + 1 → v = .nil)) :
    Inv B { t with hash := t.hash.set k v } := by
  have hB := h.size_le
  refine ⟨⟨h.full, h.kept.set hk v, fun a ha => ?_, fun n hm => ?_, hB, h.size_le_lastKey⟩,
    fun m hm hl n hmk he => ?_⟩
  · rcases HashPart.mem_keys_set h.kept hk v ha with ha | ⟨rfl, _⟩
    · exact h.clear a ha
    · exact hc
  · rcases HashPart.mem_keys_set h.kept hk v hm with hm | ⟨hm, _⟩
    · exact h.unshadowed n hm
    · exact (hn n hm.symm).1
  · rcases HashPart.mem_nodes_set h.kept hk hm with hm | ⟨hr, hv⟩
    · exact h.border m hm hl n hmk he
    · -- a live node for the key after the array part would be one for this key
      dsimp only at he
      have hkn : k = .integer n := hc n (by omega) (Value.rawEq_symm (hmk ▸ hr))
      exact (m.live_iff.mp hl) (hv.trans ((hn n hkn).2 he))

theorem Inv.setInt (h : t.Inv B) (k : Int64) {v : Value} (hB : v ≠ .nil → t.Room B) :
    (t.setInt k v).Inv B := by
  rcases setInt_cases t k v with ⟨i, hs, hv, e⟩ | ⟨i, hs, hv, e⟩ | ⟨hk, hv, e⟩ | ⟨hw, hk, e⟩
  · rw [e]
    exact h.setSlot hv i
  · rw [e]
    exact h.split (slot?_eq_some.mp hs).1
  · rw [e]
    exact (h.absorb (full_push h.toParts hv) (Array.size_push v) (lt_lastKey hk) (hB hv)).inv
  · rw [e]
    refine h.setHash (Value.isKey_integer k) (Value.clear_integer B k) fun n hn => ?_
    rw [← Value.integer.inj hn]
    exact ⟨hw, hk⟩

theorem Inv.setKey (h : t.Inv B) {k v : Value} (hk : k.IsKey) (hc : k.Clear B)
    (hB : v ≠ .nil → t.Room B) : (t.setKey k v).Inv B := by
  unfold Table.setKey
  split
  · exact h.setInt _ hB
  · rename_i hne
    exact h.setHash hk hc fun n hn => absurd hn (hne n)

/-! ## the number of entries -/

theorem Inv.length_filter_tape (h : t.Inv B) : (t.tape.filter Node.live).length = t.size :=
  length_filter_tapeOf h.full h.kept

theorem Inv.size_setInt_le (h : t.Inv B) (k : Int64) {v : Value} (hB : v ≠ .nil → t.Room B) :
    (t.setInt k v).size ≤ t.size + 1 := by
  have hafter := h.setInt k hB
  rcases setInt_cases t k v with ⟨i, hs, hv, e⟩ | ⟨i, hs, hv, e⟩ | ⟨hk, hv, e⟩ | ⟨hw, hk, e⟩
  · rw [e]
    show (t.array.setIfInBounds i v).size + t.hash.live ≤ _
    rw [Array.size_setIfInBounds]
    exact Nat.le_succ _
  · have hi := (slot?_eq_some.mp hs).1
    rw [e]
    show (t.array.extract 0 i).size + (t.hash.prependRun _ _).live ≤ t.array.size + t.hash.live + 1
    rw [HashPart.live_prependRun, Array.size_extract, List.length_drop, Array.length_toList]
    omega
  · have hfull := full_push h.toParts hv
    have hperm := (h.absorb hfull (Array.size_push v) (lt_lastKey hk) (hB hv)).moved
    rw [← hafter.length_filter_tape, e, tape, hperm.length_eq, length_filter_tapeOf hfull h.kept,
      Array.size_push]
    unfold Table.size
    omega
  · have := HashPart.live_set_le h.kept (Value.isKey_integer k) v
    rw [e]
    show t.array.size + (t.hash.set _ v).live ≤ t.array.size + t.hash.live + 1
    omega

end Table

end LuaMachine
