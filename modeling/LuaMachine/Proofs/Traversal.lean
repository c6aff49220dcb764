import Mathlib.Logic.Relation
import LuaMachine.Proofs.Reachable
import LuaMachine.Proofs.Tape
import LuaMachine.Table.Traversal

/-!
# Traversing a table that changes

`Table.next` looks for a live node on the tape.  Where it starts to look depends on the key it is
given: at the beginning, after the node of the key, or, for a key of the array part that was cleared,
at the first node of the hash part.

A loop body may store and clear values under keys that are present.  Such a write replaces the value
of one node, or takes one node of the array part off the tape and makes all that follow part of the
hash part.

* `liveFrom`       the first entry from a position of the tape on;
* `Standing`       where `next` looks for the entry after a key, and where the traversal has got to;
* `Touch`          one write of a loop body, and `Change` its effect on the tape;
* `Standing.touch` what a write does to a traversal under way;
* `Astray`         when `next` looks at nodes that the traversal has passed.
-/

namespace LuaMachine

namespace HashPart

theorem firstLive_eq (nodes : Array Node) (n : Nat) : ∀ i, nodes.size ≤ i + n →
    firstLive nodes i n = (nodes.toList.drop i).find? Node.live := by
  induction n with
  | zero =>
    intro i hi
    rw [List.drop_eq_nil_of_le (by rw [Array.length_toList]; exact hi)]
    rfl
  | succ n ih =>
    intro i hi
    unfold firstLive
    by_cases hlt : i < nodes.size
    · have hlen : i < nodes.toList.length := by rw [Array.length_toList]; exact hlt
      rw [Array.getElem?_eq_getElem hlt, List.drop_eq_getElem_cons hlen, List.find?_cons,
        Array.getElem_toList]
      dsimp only
      cases hl : nodes[i].live with
      | true => rfl
      | false =>
        rw [if_neg Bool.false_ne_true]
        exact ih (i + 1) (by omega)
    · rw [Array.getElem?_eq_none (by omega),
        List.drop_eq_nil_of_le (by rw [Array.length_toList]; omega)]
      rfl

theorem firstFrom_eq (h : HashPart) (i : Nat) :
    h.firstFrom i = (h.nodes.toList.drop i).find? Node.live := firstLive_eq _ _ i (by omega)

end HashPart

namespace Table
variable {B : Nat} {t t' : Table} {p s r : Nat} {n : Node} {c : Value}

/-! ## the next entry -/

/-- The first entry from a position of the tape on. -/
def liveFrom (t : Table) (s : Nat) : Option (Value × Value) :=
  ((t.tape.drop s).find? Node.live).map fun n => (n.key, n.value)

theorem length_run_array (t : Table) : (Node.run 1 t.array.toList).length = t.array.size := by
  rw [Node.length_run, Array.length_toList]

theorem getElem?_tape_hash (t : Table) (i : Nat) :
    t.tape[t.array.size + i]? = t.hash.nodes.toList[i]? := by
  unfold tape tapeOf
  rw [List.getElem?_append_right (by rw [length_run_array]; omega), length_run_array,
    Nat.add_sub_cancel_left]

theorem nodeFrom_eq (t : Table) (i : Nat) : t.nodeFrom i = t.liveFrom (t.array.size + i) := by
  unfold nodeFrom liveFrom tape tapeOf
  rw [HashPart.firstFrom_eq, ← length_run_array, List.drop_length_add_append]

theorem Inv.entryFrom_eq (h : t.Inv B) {i : Nat} (hi : i ≤ t.array.size) :
    t.entryFrom i = t.liveFrom i := by
  unfold entryFrom
  by_cases hlt : i < t.array.size
  · have hlen := getElem?_tape hlt
    obtain ⟨hil, he⟩ := List.getElem?_eq_some_iff.mp hlen
    have hlive : (⟨Value.count (i + 1), t.array[i]⟩ : Node).live = true :=
      (Node.live_iff _).mpr (h.full _ (Array.getElem_mem_toList hlt))
    unfold liveFrom
    rw [Array.getElem?_eq_getElem hlt, List.drop_eq_getElem_cons hil, he,
      List.find?_cons_of_pos hlive]
    rfl
  · have he : i = t.array.size := by omega
    rw [Array.getElem?_eq_none (by omega), he]
    exact t.nodeFrom_eq 0

theorem next_nil (h : t.Inv B) : t.next .nil = .ok (t.liveFrom 0) :=
  congrArg Except.ok (h.entryFrom_eq (Nat.zero_le _))

theorem next_of_isKey (hk : c.IsKey) : t.next c = t.nextKey c := by
  have hkey : c.key? = some c := hk
  cases c with
  | nil => cases hk
  | _ =>
    unfold next
    rw [hkey]

theorem nextKey_slot {k : Int64} {i : Nat} (hs : t.slot? k = some i) :
    t.nextKey (.integer k) = .ok (t.entryFrom (i + 1)) := by
  have ha : t.afterSlot? (.integer k) = some (i + 1) := by
    show (t.slot? k).map (· + 1) = _
    rw [hs]
    rfl
  simp only [nextKey, ha]

theorem afterSlot?_outside (hn : ∀ n, c = .integer n → ¬ Within t.array.size n) :
    t.afterSlot? c = none := by
  cases c with
  | integer k =>
    show (t.slot? k).map (· + 1) = _
    rw [slot?_eq_none.mpr (hn k rfl)]
    rfl
  | _ => rfl

theorem nextKey_node (hn : ∀ n, c = .integer n → ¬ Within t.array.size n) {i : Nat}
    (hp : t.hash.position? c = some i) : t.nextKey c = .ok (t.nodeFrom (i + 1)) := by
  simp only [nextKey, afterSlot?_outside hn, hp]

theorem nextKey_lost (hn : ∀ n, c = .integer n → ¬ Within t.array.size n)
    (hp : t.hash.position? c = none) (hw : wasSlot c = true) : t.nextKey c = .ok (t.nodeFrom 0) := by
  simp only [nextKey, afterSlot?_outside hn, hp, hw, if_true]

/-- The node of a key is found in its slot, or by a search of the hash part. -/
theorem Inv.located (h : t.Inv B) (hn : t.tape[p]? = some n) (hk : n.key ≠ .nil) :
    (∃ k, n.key = .integer k ∧ t.slot? k = some p) ∨
    ∃ i, p = t.array.size + i ∧ t.hash.position? n.key = some i ∧
      ∀ m, n.key = .integer m → ¬ Within t.array.size m := by
  by_cases hp : p < t.array.size
  · have hl := h.size_lt
    rw [getElem?_tape hp] at hn
    refine .inl ⟨Int64.ofNat (p + 1), by rw [← Option.some.inj hn]; rfl, ?_⟩
    rw [slot?_eq_some, Value.toInt_ofNat (by omega)]
    exact ⟨hp, rfl⟩
  · obtain ⟨i, rfl⟩ := Nat.exists_eq_add_of_le (Nat.le_of_not_lt hp)
    rw [getElem?_tape_hash] at hn
    have hm : n.key ∈ t.hash.keys := List.mem_map_of_mem (List.mem_of_getElem? hn)
    exact .inr ⟨i, rfl, h.kept.found_own hk (by rw [HashPart.getElem?_keys, hn]; rfl),
      fun m hm' => h.unshadowed m (hm' ▸ hm)⟩

theorem Inv.next_node (h : t.Inv B) (hn : t.tape[p]? = some n) (hk : n.key ≠ .nil) :
    t.next n.key = .ok (t.liveFrom (p + 1)) := by
  rw [next_of_isKey (h.sound_tape.normal n (List.mem_of_getElem? hn) hk)]
  rcases h.located hn hk with ⟨k, hkey, hs⟩ | ⟨i, rfl, hpos, hout⟩
  · rw [hkey, nextKey_slot hs, h.entryFrom_eq (slot?_eq_some.mp hs).1]
  · rw [nextKey_node hout hpos]
    exact congrArg Except.ok (t.nodeFrom_eq (i + 1))

theorem not_within_of_absent {k : Int64} (ha : Value.integer k ∉ t.tape.map Node.key) :
    ¬ Within t.array.size k := by
  intro hw
  obtain ⟨i, hi⟩ := Option.ne_none_iff_exists'.mp fun hs => slot?_eq_none.mp hs hw
  obtain ⟨v, _, hv⟩ := getElem?_tape_slot hi
  exact ha (List.mem_map.mpr ⟨_, List.mem_of_getElem? hv, rfl⟩)

theorem Inv.position?_absent (h : t.Inv B) {k : Int64} (hB : k.toInt ≤ B)
    (ha : Value.integer k ∉ t.tape.map Node.key) : t.hash.position? (.integer k) = none := by
  rw [Option.eq_none_iff_forall_ne_some]
  intro i hi
  have hx : t.hash.Exact (.integer k) := fun a ha => h.clear a ha k (by omega)
  obtain ⟨m, hm, hkey⟩ := h.kept.found_exact (Value.isKey_integer k) hx hi
  refine ha (List.mem_map.mpr ⟨m, ?_, hkey⟩)
  exact List.mem_append_right _ (List.mem_of_getElem? hm)

/-- After a positive integer that has no node, `next` looks from the first node of the hash part. -/
theorem Inv.next_lost (h : t.Inv B) {k : Int64} (hk : 1 ≤ k.toInt) (hB : k.toInt ≤ B)
    (ha : Value.integer k ∉ t.tape.map Node.key) :
    t.next (.integer k) = .ok (t.liveFrom t.array.size) := by
  have hwas : wasSlot (.integer k) = true := decide_eq_true hk
  rw [next_of_isKey (Value.isKey_integer k),
    nextKey_lost (fun m hm => Value.integer.inj hm ▸ not_within_of_absent ha)
      (h.position?_absent hB ha) hwas]
  exact congrArg Except.ok (t.nodeFrom_eq 0)

/-! ## where a traversal stands -/

/-- A traversal whose last key `k` was in the array part and has no node any more.  It has got to the
position `r`; before that, the hash part has nodes for smaller integers only, and from there on none
for an integer up to `k`. -/
structure Lost (B : Nat) (t : Table) (k : Int64) (r : Nat) : Prop where
  pos : 1 ≤ k.toInt
  le : k.toInt ≤ B
  absent : Value.integer k ∉ t.tape.map Node.key
  start_le : t.array.size ≤ r
  passed : ∀ i m, t.array.size ≤ i → i < r → t.tape[i]? = some m → m.live = true →
    ∃ j : Int64, m.key = .integer j ∧ 1 ≤ j.toInt ∧ j.toInt < k.toInt
  coming : ∀ i m, r ≤ i → t.tape[i]? = some m → ∀ j : Int64, m.key = .integer j → 1 ≤ j.toInt →
    k.toInt < j.toInt

/-- After the key `c`, `next` looks from the position `s` on, while the traversal has got to `r`. -/
inductive Standing (B : Nat) (t : Table) : Value → Nat → Nat → Prop
  | start : Standing B t .nil 0 0
  | node {p : Nat} {n : Node} : t.tape[p]? = some n → n.key ≠ .nil →
      Standing B t n.key (p + 1) (p + 1)
  | lost {k : Int64} {r : Nat} : Lost B t k r → Standing B t (.integer k) t.array.size r

theorem Standing.next (h : Standing B t c s r) (hv : t.Inv B) : t.next c = .ok (t.liveFrom s) := by
  cases h with
  | start => exact next_nil hv
  | node hn hk => exact hv.next_node hn hk
  | lost hl => exact hv.next_lost hl.pos hl.le hl.absent

theorem Standing.le (h : Standing B t c s r) : s ≤ r := by
  cases h with
  | start => exact Nat.le_refl _
  | node _ _ => exact Nat.le_refl _
  | lost hl => exact hl.start_le

/-- A positive integer on the tape: in the array part it stands in its place, in the hash part it is
larger than those of the array part. -/
theorem Inv.integer_on_tape (h : t.Inv B) {i : Nat} {m : Node} {j : Int64} (hm : t.tape[i]? = some m)
    (hk : m.key = .integer j) (hj : 1 ≤ j.toInt) :
    (i < t.array.size ∧ j.toInt = i + 1) ∨ (t.array.size ≤ i ∧ t.array.size < j.toInt) := by
  have hl := h.size_lt
  by_cases hi : i < t.array.size
  · rw [getElem?_tape hi] at hm
    rw [← Option.some.inj hm] at hk
    rw [← Value.integer.inj hk, Value.toInt_ofNat (by omega)]
    exact .inl ⟨hi, rfl⟩
  · obtain ⟨d, rfl⟩ := Nat.exists_eq_add_of_le (Nat.le_of_not_lt hi)
    rw [getElem?_tape_hash] at hm
    have := h.unshadowed j (List.mem_map.mpr ⟨m, List.mem_of_getElem? hm, hk⟩)
    unfold Within at this
    exact .inr ⟨by omega, by omega⟩

theorem Lost.size_lt {k : Int64} (h : Lost B t k r) : t.array.size < k.toInt := by
  have hw := not_within_of_absent h.absent
  have hpos := h.pos
  unfold Within at hw
  omega

/-! ## writes of a loop body -/

/-- A value, or nil, is stored under a key that is present. -/
def Touch (t t' : Table) : Prop := ∃ k v, t.contains k = true ∧ t.rawSet k v = .ok t'

/-- What a write to a key that is present does to the tape: it replaces a value, or takes a node of
the array part off and ends the array part there. -/
inductive Change (t t' : Table) : Prop
  | value {p : Nat} {n : Node} (v : Value) : t.tape[p]? = some n → n.live = true →
      t'.tape = t.tape.set p ⟨n.key, v⟩ → t'.array.size = t.array.size → Change t t'
  | cut {p : Nat} : p < t.array.size → t'.tape = t.tape.eraseIdx p → t'.array.size = p → Change t t'

theorem Inv.change_slot (h : t.Inv B) {k : Int64} {i : Nat} (hs : t.slot? k = some i) (v : Value) :
    Change t (t.setInt k v) := by
  obtain ⟨hi, hki⟩ := slot?_eq_some.mp hs
  by_cases hv : v = .nil
  · rw [hv, setInt_clear hs]
    refine .cut hi (tape_split hi) ?_
    show (t.array.extract 0 i).size = i
    rw [Array.size_extract]
    omega
  · obtain ⟨w, hw, hn⟩ := getElem?_tape_slot hs
    have hkey : Value.integer k = Value.count (i + 1) := Value.integer_eq_count hki
    have hlive : (⟨.integer k, w⟩ : Node).live = true := (Node.live_iff _).mpr
      (h.full w (Array.mem_toList_iff.mpr (Array.mem_of_getElem? hw)))
    rw [setInt_slot hs hv]
    refine .value v hn hlive ?_ Array.size_setIfInBounds
    rw [tape_setSlot hi, ← hkey]

theorem Inv.change_node (h : t.Inv B) {k : Value} (hk : k.IsKey)
    (hout : ∀ n, k = .integer n → ¬ Within t.array.size n) {i : Nat}
    (hp : t.hash.position? k = some i) (hn : t.hash.nodes.toList[i]? = some n)
    (hl : n.live = true) (v : Value) : Change t (t.setKey k v) := by
  obtain ⟨n', hn', _, hr, _⟩ := h.kept.found hk hp
  obtain rfl : n = n' := Option.some.inj (hn.symm.trans hn')
  have hset : t.setKey k v = { t with hash := t.hash.set k v } := by
    cases k with
    | integer m =>
      -- the key that follows the array part has no live node
      refine setInt_outside (hout m rfl) fun he => ?_
      have hB := h.size_le
      have hkey := h.clear n.key (List.mem_map_of_mem (List.mem_of_getElem? hn)) m (by omega) hr
      exact absurd he (h.border n (List.mem_of_getElem? hn) hl m hkey)
    | _ => rfl
  have hrep : t.hash.set k v = t.hash.replace i v := by
    unfold HashPart.set
    rw [hp]
  rw [hset, hrep]
  have htape : t.tape[t.array.size + i]? = some n := by rw [getElem?_tape_hash, hn]
  refine .value v htape hl ?_ rfl
  show Node.run 1 t.array.toList ++ (t.hash.replace i v).nodes.toList = _
  unfold tape tapeOf
  rw [HashPart.toList_replace hn, List.set_append_right _ _ (by rw [length_run_array]; omega),
    length_run_array, Nat.add_sub_cancel_left]

/-- **A write to a key that is present changes the tape in one of two ways.** -/
theorem Touch.change (hT : Touch t t') (h : t.Inv B) : Change t t' := by
  obtain ⟨key, v, hc, hs⟩ := hT
  unfold contains rawGet at hc
  unfold rawSet at hs
  cases hk : key.key? with
  | none =>
    rw [hk] at hs
    cases hs
  | some k =>
    rw [hk] at hc hs
    dsimp only at hc hs
    have hkey := Value.isKey_of_key? hk
    rw [Bool.not_eq_true', Value.isNil_eq_false] at hc
    rw [← Except.ok.inj hs]
    rcases t.slot_or_outside k with ⟨m, i, rfl, hi⟩ | hout
    · exact h.change_slot hi v
    · rw [getKey_outside hout] at hc
      cases hg : t.hash.get? k with
      | none =>
        rw [hg] at hc
        exact absurd rfl hc
      | some w =>
        obtain ⟨i, n, hp, hn, hl, _, _⟩ := h.kept.node_of_get? hkey hg
        exact h.change_node hkey hout hp hn hl v

/-! ## a traversal under way -/

/-- How a traversal at `s` and `r` goes on at `s'` and `r'` after the table changed: no entry is new,
each is on the same side of where the traversal has got to, and as long as all entries are left, there
are not more to come. -/
structure Follows (t : Table) (s r : Nat) (t' : Table) (s' r' : Nat) : Prop where
  origin : ∀ i m, t'.tape[i]? = some m → m.live = true →
    ∃ i₀ m₀, t.tape[i₀]? = some m₀ ∧ m₀.live = true ∧ m₀.key = m.key ∧ (i < r' ↔ i₀ < r)
  entries : t'.tape.countP Node.live ≤ t.tape.countP Node.live
  ahead : t'.tape.countP Node.live = t.tape.countP Node.live →
    (t'.tape.drop s').countP Node.live ≤ (t.tape.drop s).countP Node.live

theorem Follows.refl (t : Table) (s r : Nat) : Follows t s r t s r where
  origin := fun i m hm hl => ⟨i, m, hm, hl, rfl, Iff.rfl⟩
  entries := Nat.le_refl _
  ahead := fun _ => Nat.le_refl _

theorem Follows.trans {t'' : Table} {s' r' s'' r'' : Nat} (h : Follows t s r t' s' r')
    (h' : Follows t' s' r' t'' s'' r'') : Follows t s r t'' s'' r'' where
  origin := by
    intro i m hm hl
    obtain ⟨i₁, m₁, hm₁, hl₁, hk₁, hi₁⟩ := h'.origin i m hm hl
    obtain ⟨i₀, m₀, hm₀, hl₀, hk₀, hi₀⟩ := h.origin i₁ m₁ hm₁ hl₁
    exact ⟨i₀, m₀, hm₀, hl₀, hk₀.trans hk₁, hi₁.trans hi₀⟩
  entries := Nat.le_trans h'.entries h.entries
  ahead := by
    intro he
    have h1 := h.entries
    have h2 := h'.entries
    exact Nat.le_trans (h'.ahead (by omega)) (h.ahead (by omega))

theorem countP_set_le {ns : List Node} (hn : ns[p]? = some n) (hl : n.live = true) (m : Node) :
    (ns.set p m).countP Node.live ≤ ns.countP Node.live := by
  have := Sound.countP_replace hn m
  rw [if_pos hl] at this
  split at this <;> omega

/-- Replacing a value keeps the keys in their places, and revives no node. -/
theorem origin_value {v : Value} (hn : t.tape[p]? = some n) (hl : n.live = true)
    (htape : t'.tape = t.tape.set p ⟨n.key, v⟩) {i : Nat} {m : Node} (hm : t'.tape[i]? = some m) :
    ∃ m₀ : Node, t.tape[i]? = some m₀ ∧ m₀.key = m.key ∧ (m.live = true → m₀.live = true) := by
  rw [htape, List.getElem?_set] at hm
  by_cases hpi : p = i
  · subst hpi
    rw [if_pos rfl, if_pos (List.getElem?_eq_some_iff.mp hn).1] at hm
    exact ⟨n, hn, by rw [← Option.some.inj hm], fun _ => hl⟩
  · rw [if_neg hpi] at hm
    exact ⟨m, hm, rfl, id⟩

theorem follows_value {v : Value} (hn : t.tape[p]? = some n) (hl : n.live = true)
    (htape : t'.tape = t.tape.set p ⟨n.key, v⟩) (s r : Nat) : Follows t s r t' s r where
  origin := by
    intro i m hm hml
    obtain ⟨m₀, hm₀, hk₀, hl₀⟩ := origin_value hn hl htape hm
    exact ⟨i, m₀, hm₀, hl₀ hml, hk₀, Iff.rfl⟩
  entries := by
    rw [htape]
    exact countP_set_le hn hl _
  ahead := by
    intro _
    rw [htape, List.drop_set]
    split
    · exact Nat.le_refl _
    · refine countP_set_le (n := n) ?_ hl _
      rw [List.getElem?_drop, ← hn]
      congr 1
      omega

theorem Standing.change_value {v : Value} (h : Standing B t c s r) (hn : t.tape[p]? = some n)
    (hl : n.live = true) (htape : t'.tape = t.tape.set p ⟨n.key, v⟩)
    (hsize : t'.array.size = t.array.size) : Standing B t' c s r := by
  have hkeys : t'.tape.map Node.key = t.tape.map Node.key := by rw [htape, map_key_set hn]
  cases h with
  | start => exact .start
  | @node q m hm hk =>
    have hq : (t'.tape.map Node.key)[q]? = some m.key := by
      rw [hkeys, List.getElem?_map, hm]
      rfl
    rw [List.getElem?_map] at hq
    obtain ⟨m', hm', he⟩ := Option.map_eq_some_iff.mp hq
    rw [← he] at hk ⊢
    exact .node hm' hk
  | @lost k r hlost =>
    rw [← hsize]
    refine .lost ⟨hlost.pos, hlost.le, by rw [hkeys]; exact hlost.absent,
      by rw [hsize]; exact hlost.start_le, fun i m hi hir hm hml => ?_, fun i m hi hm j hj => ?_⟩
    · obtain ⟨m₀, hm₀, hk₀, hl₀⟩ := origin_value hn hl htape hm
      rw [← hk₀]
      exact hlost.passed i m₀ (hsize ▸ hi) hir hm₀ (hl₀ hml)
    · obtain ⟨m₀, hm₀, hk₀, _⟩ := origin_value hn hl htape hm
      exact hlost.coming i m₀ hi hm₀ j (hk₀.trans hj)

theorem countP_eraseIdx {ns : List Node} (hn : ns[p]? = some n) (hl : n.live = true) :
    (ns.eraseIdx p).countP Node.live + 1 = ns.countP Node.live := by
  obtain ⟨hp, rfl⟩ := List.getElem?_eq_some_iff.mp hn
  conv => rhs; rw [← List.take_append_drop p ns, List.drop_eq_getElem_cons hp]
  rw [List.eraseIdx_eq_take_drop_succ, List.countP_append, List.countP_append,
    List.countP_cons_of_pos hl, Nat.add_assoc]

theorem Inv.lost_of_cut (h : t.Inv B) (hp : p < t.array.size) (htape : t'.tape = t.tape.eraseIdx p)
    (hsize : t'.array.size = p) : Lost B t' (Int64.ofNat (p + 1)) p := by
  have hB := h.size_le
  have hl := h.size_lt
  have hk : (Int64.ofNat (p + 1)).toInt = (p + 1 : Nat) := Value.toInt_ofNat (by omega)
  refine ⟨by omega, by omega, fun hm => ?_, by omega, fun i m hi hip => by omega,
    fun i m hi hm j hj hpos => ?_⟩
  · obtain ⟨m, hm, hkey⟩ := List.mem_map.mp hm
    rw [htape, List.mem_eraseIdx_iff_getElem?] at hm
    obtain ⟨i, hip, hi⟩ := hm
    refine hip (h.sound_tape.index_unique (getElem?_tape hp) hi ?_ hkey.symm).symm
    exact (Value.isKey_count _).ne_nil
  · rw [htape, List.getElem?_eraseIdx_of_ge hi] at hm
    rcases h.integer_on_tape hm hj hpos with ⟨_, he⟩ | ⟨_, hlt⟩
    · omega
    · omega

/-- A cursor without a node stays so, and the keys behind the cut are smaller than it. -/
theorem Lost.cut {k : Int64} (h : Lost B t k r) (hv : t.Inv B) (hp : p < t.array.size)
    (htape : t'.tape = t.tape.eraseIdx p) (hsize : t'.array.size = p) : Lost B t' k (r - 1) := by
  have hr := h.start_le
  refine ⟨h.pos, h.le, fun hm => ?_, by omega, fun i m hi hir hm hml => ?_,
    fun i m hi hm j hj hpos => ?_⟩
  · obtain ⟨m, hm, hkey⟩ := List.mem_map.mp hm
    rw [htape] at hm
    exact h.absent (List.mem_map.mpr ⟨m, List.mem_of_mem_eraseIdx hm, hkey⟩)
  · rw [htape, List.getElem?_eraseIdx_of_ge (by omega)] at hm
    by_cases hs : t.array.size ≤ i + 1
    · exact h.passed (i + 1) m hs (by omega) hm hml
    · have hl := hv.size_lt
      have hlt := h.size_lt
      rw [getElem?_tape (by omega)] at hm
      refine ⟨Int64.ofNat (i + 1 + 1), by rw [← Option.some.inj hm]; rfl, ?_⟩
      rw [Value.toInt_ofNat (by omega)]
      omega
  · rw [htape, List.getElem?_eraseIdx_of_ge (by omega)] at hm
    exact h.coming (i + 1) m (by omega) hm j hj hpos

/-- An entry is lost by a cut, so that it is enough to know where the traversal has got to. -/
theorem Inv.follows_cut (hv : t.Inv B) (hp : p < t.array.size) (htape : t'.tape = t.tape.eraseIdx p)
    {s' r' : Nat} (hside : ∀ i, (if i < p then i < r else i + 1 < r) ↔ i < r') :
    Follows t s r t' s' r' := by
  have hlive : (⟨Value.count (p + 1), t.array[p]⟩ : Node).live = true :=
    (Node.live_iff _).mpr (hv.full _ (Array.getElem_mem_toList hp))
  have hcount := countP_eraseIdx (getElem?_tape hp) hlive
  refine ⟨fun i m hm hml => ?_, by rw [htape]; omega, fun he => by rw [htape] at he; omega⟩
  rw [htape, List.getElem?_eraseIdx] at hm
  have hi := hside i
  split at hm
  · rename_i hip
    rw [if_pos hip] at hi
    exact ⟨i, m, hm, hml, rfl, hi.symm⟩
  · rename_i hip
    rw [if_neg hip] at hi
    exact ⟨i + 1, m, hm, hml, rfl, hi.symm⟩

theorem Standing.change_cut (h : Standing B t c s r) (hv : t.Inv B) (hp : p < t.array.size)
    (htape : t'.tape = t.tape.eraseIdx p) (hsize : t'.array.size = p) :
    ∃ s' r', Standing B t' c s' r' ∧ Follows t s r t' s' r' := by
  cases h with
  | start =>
    refine ⟨0, 0, .start, hv.follows_cut hp htape fun i => ?_⟩
    split <;> omega
  | @node q m hm hk =>
    rcases Nat.lt_trichotomy q p with hqp | hqp | hqp
    · refine ⟨q + 1, q + 1, .node ?_ hk, hv.follows_cut hp htape fun i => ?_⟩
      · rw [htape, List.getElem?_eraseIdx_of_lt hqp]
        exact hm
      · split <;> omega
    · subst hqp
      rw [getElem?_tape hp] at hm
      rw [← Option.some.inj hm]
      refine ⟨_, q, .lost (hv.lost_of_cut hp htape hsize), hv.follows_cut hp htape fun i => ?_⟩
      split <;> omega
    · obtain ⟨d, rfl⟩ : ∃ d, q = d + 1 := ⟨q - 1, by omega⟩
      refine ⟨d + 1, d + 1, .node ?_ hk, hv.follows_cut hp htape fun i => ?_⟩
      · rw [htape, List.getElem?_eraseIdx_of_ge (by omega)]
        exact hm
      · split <;> omega
  | lost hlost =>
    have hr := hlost.start_le
    refine ⟨_, r - 1, .lost (hlost.cut hv hp htape hsize), hv.follows_cut hp htape fun i => ?_⟩
    split <;> omega

/-- **A write to a key that is present.** -/
theorem Standing.touch (h : Standing B t c s r) (hv : t.Inv B) (hT : Touch t t') :
    ∃ s' r', Standing B t' c s' r' ∧ Follows t s r t' s' r' := by
  cases hT.change hv with
  | value v hn hl htape hsize =>
    exact ⟨s, r, h.change_value hn hl htape hsize, follows_value hn hl htape s r⟩
  | cut hp htape hsize => exact h.change_cut hv hp htape hsize

def Touches : Table → Table → Prop := Relation.ReflTransGen Touch

theorem Inv.countP_tape (h : t.Inv B) : t.tape.countP Node.live = t.size := by
  rw [List.countP_eq_length_filter, h.length_filter_tape]

theorem Reachable.touch (h : Reachable t) (hT : Touch t t') : Reachable t' := by
  obtain ⟨hv, hf⟩ := h.inv
  obtain ⟨_, _, _, hfol⟩ := Standing.start.touch hv hT
  obtain ⟨key, v, _, hs⟩ := hT
  have he : t.edit (.set key v) = t' := by
    show (t.rawSet key v).toOption.getD t = t'
    rw [hs]
    rfl
  have hv' : t'.Inv (2 ^ 61) := he ▸ hv.edit hf (.set key v)
  have hf' : t'.Fits := by
    have := hfol.entries
    rw [hv'.countP_tape, hv.countP_tape] at this
    exact Nat.lt_of_le_of_lt this hf
  rw [← he] at hf' ⊢
  exact .edit _ h hf'

/-- **Any number of writes to keys that are present.** -/
theorem Standing.touches (h : Standing (2 ^ 61) t c s r) (ht : Reachable t) (hT : Touches t t') :
    Reachable t' ∧ ∃ s' r', Standing (2 ^ 61) t' c s' r' ∧ Follows t s r t' s' r' := by
  induction hT with
  | refl => exact ⟨ht, s, r, h, .refl t s r⟩
  | tail _ hT ih =>
    obtain ⟨hreach, s', r', hs, hf⟩ := ih
    obtain ⟨s'', r'', hs', hf'⟩ := hs.touch hreach.inv.1 hT
    exact ⟨hreach.touch hT, s'', r'', hs', hf.trans hf'⟩

/-! ## the entry that is found -/

theorem liveFrom_eq_some {k v : Value} (h : t.liveFrom s = some (k, v)) :
    ∃ p n, s ≤ p ∧ t.tape[p]? = some n ∧ n.live = true ∧ n.key = k ∧ n.value = v ∧
      ∀ i m, s ≤ i → i < p → t.tape[i]? = some m → m.live = false := by
  obtain ⟨n, hn, he⟩ := Option.map_eq_some_iff.mp h
  obtain ⟨hl, d, hd, hdn, hbefore⟩ := List.find?_eq_some_iff_getElem.mp hn
  rw [Prod.mk.injEq] at he
  refine ⟨s + d, n, by omega, ?_, hl, he.1, he.2, fun i m hi hip hm => ?_⟩
  · rw [← List.getElem?_drop]
    exact List.getElem?_eq_some_iff.mpr ⟨hd, hdn⟩
  · obtain ⟨e, rfl⟩ := Nat.exists_eq_add_of_le hi
    have := hbefore e (by omega)
    rw [← List.getElem?_drop] at hm
    rw [(List.getElem?_eq_some_iff.mp hm).2] at this
    exact Bool.not_eq_true' _ ▸ this

theorem liveFrom_eq_none (h : t.liveFrom s = none) {i : Nat} {m : Node} (hi : s ≤ i)
    (hm : t.tape[i]? = some m) : m.live = false := by
  have hnone := List.find?_eq_none.mp (Option.map_eq_none_iff.mp h)
  obtain ⟨e, rfl⟩ := Nat.exists_eq_add_of_le hi
  rw [← List.getElem?_drop] at hm
  exact Bool.eq_false_iff.mpr (hnone m (List.mem_of_getElem? hm))

/-- A key of the array part was cleared, and the hash part has an entry for a smaller one: `next`
starts with entries that came before the key. -/
def Astray (t : Table) (c : Value) : Prop :=
  ∃ k : Int64, c = .integer k ∧ 1 ≤ k.toInt ∧ t.slot? k = none ∧ t.hash.position? c = none ∧
    ∃ n ∈ t.hash.nodes.toList, n.live = true ∧
      ∃ j : Int64, n.key = .integer j ∧ 1 ≤ j.toInt ∧ j.toInt < k.toInt

/-- **Going astray** is finding an entry before the place that the traversal has got to. -/
theorem Standing.astray_iff (h : Standing B t c s r) (hv : t.Inv B) :
    t.Astray c ↔ ∃ i m, s ≤ i ∧ i < r ∧ t.tape[i]? = some m ∧ m.live = true := by
  cases h with
  | start =>
    constructor
    · rintro ⟨k, hk, _⟩
      cases hk
    · rintro ⟨i, _, _, hi, _⟩
      omega
  | @node p n hn hne =>
    constructor
    · rintro ⟨k, hk, _, hslot, hpos, _⟩
      rcases hv.located hn hne with ⟨k', hk', hs⟩ | ⟨i, _, hi, _⟩
      · rw [Value.integer.inj (hk'.symm.trans hk), hslot] at hs
        cases hs
      · rw [hpos] at hi
        cases hi
    · rintro ⟨i, _, hi, hir, _⟩
      omega
  | @lost k r hlost =>
    constructor
    · rintro ⟨k', hk, _, _, _, n, hn, hl, j, hj, hj1, hjk⟩
      obtain ⟨d, hd⟩ := List.mem_iff_getElem?.mp hn
      rw [← getElem?_tape_hash] at hd
      refine ⟨t.array.size + d, n, by omega, ?_, hd, hl⟩
      by_contra hr
      have := hlost.coming _ n (by omega) hd j hj hj1
      rw [Value.integer.inj hk] at this
      omega
    · rintro ⟨i, m, hi, hir, hm, hl⟩
      obtain ⟨j, hj, hj1, hjk⟩ := hlost.passed i m hi hir hm hl
      obtain ⟨d, rfl⟩ := Nat.exists_eq_add_of_le hi
      rw [getElem?_tape_hash] at hm
      exact ⟨k, rfl, hlost.pos, slot?_eq_none.mpr (not_within_of_absent hlost.absent),
        hv.position?_absent hlost.le hlost.absent, m, List.mem_of_getElem? hm, hl, j, hj, hj1, hjk⟩

end Table

end LuaMachine
