import LuaMachine.Proofs.Histories
import LuaMachine.Proofs.Performing

/-!
# Inserting and removing shift a table

Inserting at a position moves what is at the position and after it, up to the border, one up; removing
moves what is after it one down.  Seen by what is read under each key, nothing else changes, although
the array part may draw keys out of the hash part or send keys there.

* `Raised`, `Lowered`, `Cleared`   what is read after inserting, removing and clearing;
* `beyond_iff`            the positions that an unsigned comparison refuses;
* `Inv.raised_insertAt`, `Inv.lowered_removeAt`   the operations of a table;
* `insert_remove_shift`   the raw operations and the library functions, at every position.
-/

namespace LuaMachine

namespace Table

variable {t t' : Table} {k v w : Value} {p i : Nat}

/-! ## what is read -/

/-- A value was put at a position, and what was there and after it, up to the border, is one up. -/
structure Raised (t : Table) (p : Nat) (v : Value) (t' : Table) : Prop where
  placed : t'.getKey (.count p) = v
  moved : ∀ i, p ≤ i → i ≤ t.length → t'.getKey (.count (i + 1)) = t.getKey (.count i)
  others : ∀ k : Value, k.Plain → (∀ i, p ≤ i → i ≤ t.length + 1 → k ≠ .count i) →
    t'.getKey k = t.getKey k
  metatable : t'.metatable = t.metatable

/-- What was after a position, up to the border, is one down. -/
structure Lowered (t : Table) (p : Nat) (t' : Table) : Prop where
  moved : ∀ i, p ≤ i → i < t.length → t'.getKey (.count i) = t.getKey (.count (i + 1))
  last : t'.getKey (.count t.length) = .nil
  others : ∀ k : Value, k.Plain → (∀ i, p ≤ i → i ≤ t.length → k ≠ .count i) →
    t'.getKey k = t.getKey k
  metatable : t'.metatable = t.metatable

structure Cleared (t : Table) (k : Value) (t' : Table) : Prop where
  absent : t'.getKey k = .nil
  others : ∀ k' : Value, k'.Plain → k' ≠ k → t'.getKey k' = t.getKey k'
  metatable : t'.metatable = t.metatable

theorem metatable_shiftUp (p count : Nat) :
    ∀ t : Table, (t.shiftUp p count).metatable = t.metatable := by
  induction count with
  | zero => exact fun _ => rfl
  | succ count ih => exact fun t => (ih _).trans (metatable_setInt t _ _)

theorem Inv.cleared_setInt (h : t.Inv lastKey) (k : Int64) :
    Cleared t (.integer k) (t.setInt k .nil) where
  absent := (h.getKey_setKey (.integer k) (.integer k) .nil).trans (if_pos rfl)
  others := fun _ hk' hne => (h.getKey_setKey (.integer k) hk' .nil).trans (if_neg hne)
  metatable := metatable_setInt t k .nil

/-! ## the array part on the tape -/

/-- Two array parts hold the same under a key if they agree wherever the key could be. -/
theorem holds_run_congr {array array' : Array Value}
    (h : ∀ i, k = .count (i + 1) → array'[i]? = array[i]?) :
    Holds (Node.run 1 array'.toList) k w ↔ Holds (Node.run 1 array.toList) k w := by
  have key : ∀ {a b : Array Value}, (∀ i, k = .count (i + 1) → a[i]? = b[i]?) →
      Holds (Node.run 1 a.toList) k w → Holds (Node.run 1 b.toList) k w := by
    rintro a b hab ⟨hw, hm⟩
    obtain ⟨j, u, hj, e⟩ := Node.mem_run hm
    obtain ⟨ek, rfl⟩ := Node.mk.inj e
    rw [Nat.add_comm] at ek
    rw [Array.getElem?_toList, hab j ek] at hj
    refine ⟨hw, List.mem_of_getElem? (i := j) ?_⟩
    rw [Node.getElem?_run, Array.getElem?_toList, hj, ek, Nat.add_comm 1]
    rfl
  exact ⟨key h, key fun i hi => (h i hi).symm⟩

/-! ## inserting -/

theorem getElem?_insertIdx {array : Array Value} (hp : p ≤ array.size) (i : Nat) :
    (array.insertIdxIfInBounds p v)[i]?
      = if i < p then array[i]? else if i = p then some v else array[i - 1]? := by
  unfold Array.insertIdxIfInBounds
  rw [dif_pos hp, ← Array.getElem?_toList, Array.toList_insertIdx, List.getElem?_insertIdx,
    Array.getElem?_toList, Array.getElem?_toList, Array.length_toList]
  by_cases he : i = p
  · subst he
    rw [if_pos rfl, if_pos rfl, if_pos hp]
  · rw [if_neg he, if_neg he]

theorem Absorbed.holds {B : Nat} {array : Array Value} {hash : HashPart}
    (h : Absorbed B array hash (t.array, t.hash)) :
    Holds t.tape k w ↔ Holds (tapeOf array hash) k w := by
  rw [holds_iff_filter, holds_iff_filter]
  exact h.moved.mem_iff

/-- A value is put in front of others in the array part, which then draws keys in. -/
theorem Inv.raised_insert (h : t.Inv lastKey) (hp : 1 ≤ p) (hle : p ≤ t.array.size + 1)
    (hl : t.array.size < lastKey) (hv : v ≠ .nil) :
    Raised t p v ({ t with array := t.array.insertIdxIfInBounds (p - 1) v } : Table).absorb := by
  have hget := fun i => getElem?_insertIdx (v := v) (show p - 1 ≤ t.array.size by omega) i
  have hsize := size_insertIdx (show p - 1 ≤ t.array.size by omega) v
  have hfull : ∀ w ∈ (t.array.insertIdxIfInBounds (p - 1) v).toList, w ≠ .nil := by
    intro w hw
    rcases mem_of_mem_insertIdx hw with rfl | hw
    · exact hv
    · exact h.full w hw
  have hab := h.absorb hfull hsize hl t.room_lastKey
  -- what a slot of the new array part has is read
  have hread : ∀ i w, w ≠ .nil → i + 1 ≤ lastKey →
      (t.array.insertIdxIfInBounds (p - 1) v)[i]? = some w →
      ({ t with array := t.array.insertIdxIfInBounds (p - 1) v } : Table).absorb.getKey
        (.count (i + 1)) = w := by
    intro i w hw hi hs
    refine hab.inv.getKey_of_holds (hab.holds.mpr (holds_append.mpr (.inl ?_)))
    exact (holds_run_count (by omega) hi).mpr ⟨hw, hs⟩
  refine ⟨?_, fun i hpi hi => ?_, fun k hk hne => ?_, metatable_absorb _⟩
  · have e := hread (p - 1) v hv (by omega) (by rw [hget, if_neg (by omega), if_pos rfl])
    rw [Nat.sub_add_cancel hp] at e
    exact e
  · change i ≤ t.array.size at hi
    obtain ⟨hold, hne⟩ := h.getKey_count (show i - 1 < t.array.size by omega)
    rw [Nat.sub_add_cancel (Nat.le_trans hp hpi)] at hold hne
    refine hread i _ hne (by omega) ?_
    rw [hget, if_neg (by omega), if_neg (by omega)]
    exact hold
  · refine h.getKey_congr hab.inv hk hk fun w => hab.holds.trans ?_
    unfold tape tapeOf
    rw [holds_append, holds_append]
    refine or_congr_left (holds_run_congr fun i hi => ?_)
    have hout : i + 1 < p ∨ t.array.size + 1 < i + 1 := by
      by_contra hc
      exact hne (i + 1) (by omega) (by show _ ≤ t.array.size + 1; omega) hi
    rw [hget]
    rcases hout with hlt | hgt
    · rw [if_pos (by omega)]
    · rw [if_neg (by omega), if_neg (by omega), Array.getElem?_eq_none (by omega),
        Array.getElem?_eq_none (by omega)]

/-- **Moving values up**, the last one first. -/
theorem Inv.getKey_shiftUp (p count : Nat) (hl : p + count ≤ lastKey) : ∀ t : Table, t.Inv lastKey →
    (t.shiftUp p count).Inv lastKey ∧
    (∀ i, p ≤ i → i < p + count →
      (t.shiftUp p count).getKey (.count (i + 1)) = t.getKey (.count i)) ∧
    ∀ k : Value, k.Plain → (∀ i, p < i → i ≤ p + count → k ≠ .count i) →
      (t.shiftUp p count).getKey k = t.getKey k := by
  rw [lastKey_eq] at hl
  induction count with
  | zero =>
    intro t h
    refine ⟨h, fun i hpi hi => ?_, fun _ _ _ => rfl⟩
    omega
  | succ count ih =>
    intro t h
    -- the last value is stored one up, and the others go on from there
    have hone : (t.setInt (Int64.ofNat (p + count + 1)) (t.getInt (Int64.ofNat (p + count)))).Inv
        lastKey := h.setInt _ fun _ => t.room_lastKey
    have hread : ∀ k : Value, k.Plain →
        (t.setInt (Int64.ofNat (p + count + 1)) (t.getInt (Int64.ofNat (p + count)))).getKey k
          = if k = .count (p + count + 1) then t.getKey (.count (p + count)) else t.getKey k :=
      fun k hk => h.getKey_setKey (.count _) hk _
    obtain ⟨hinv, hmoved, hothers⟩ := ih (by omega) _ hone
    refine ⟨hinv, fun i hpi hi => ?_, fun k hk hne => ?_⟩
    · show ((t.setInt _ _).shiftUp p count).getKey _ = _
      by_cases he : i = p + count
      · subst he
        rw [hothers _ (.count _) fun j _ hj e => ?_, hread _ (.count _), if_pos rfl]
        rw [Value.count_inj (by omega) (by omega)] at e
        omega
      · rw [hmoved i hpi (by omega), hread _ (.count _), if_neg]
        rw [Value.count_inj (by omega) (by omega)]
        omega
    · show ((t.setInt _ _).shiftUp p count).getKey _ = _
      rw [hothers k hk fun j hj hjc => hne j hj (by omega), hread k hk,
        if_neg (hne _ (by omega) (by omega))]

/-- **Inserting moves what is at a position and after it one up.** -/
theorem Inv.raised_insertAt (h : t.Inv lastKey) {position : Int64} (h1 : 1 ≤ position.toInt)
    (hle : position.toInt ≤ t.array.size + 1) (hl : t.array.size < lastKey) (v : Value) :
    Raised t position.toInt.toNat v (t.insertAt position v) := by
  obtain ⟨p, hp⟩ : ∃ p : Nat, position.toInt = p := ⟨position.toInt.toNat, by omega⟩
  have hkey : Value.integer position = .count p := Value.integer_eq_count hp
  have hpos : position.toInt.toNat = p := by omega
  unfold Table.insertAt
  dsimp only
  rw [hpos]
  by_cases hv : v = .nil
  · subst hv
    rw [if_pos (show Value.nil.isNil = true from rfl)]
    have hsum : p + (t.length + 1 - p) = t.array.size + 1 := by
      show p + (t.array.size + 1 - p) = _
      omega
    obtain ⟨hinv, hmoved, hothers⟩ := Inv.getKey_shiftUp p (t.length + 1 - p) (by omega) t h
    have hclear := hinv.cleared_setInt position
    rw [hkey] at hclear
    have hlast := lastKey_eq
    refine ⟨hclear.absent, fun i hpi hi => ?_, fun k hk hne => ?_, ?_⟩
    · change i ≤ t.array.size at hi
      rw [hclear.others _ (.count _), hmoved i hpi (by omega)]
      intro e
      rw [Value.count_inj (by omega) (by omega)] at e
      omega
    · change ∀ i, p ≤ i → i ≤ t.array.size + 1 → _ at hne
      rw [hclear.others k hk (hne p (Nat.le_refl _) (by omega)),
        hothers k hk fun i hpi hi => hne i (by omega) (by omega)]
    · exact hclear.metatable.trans (metatable_shiftUp _ _ t)
  · rw [Value.isNil_eq_false.mpr hv]
    exact h.raised_insert (by omega) (by omega) hl hv

/-! ## removing -/

/-- **Removing moves what is after a position one down.** -/
theorem Inv.lowered_removeAt (h : t.Inv lastKey) {position : Int64} (h1 : 1 ≤ position.toInt)
    (hle : position.toInt ≤ t.array.size) :
    Lowered t position.toInt.toNat (t.removeAt position) := by
  obtain ⟨p, hp⟩ : ∃ p : Nat, position.toInt = p + 1 := ⟨position.toInt.toNat - 1, by omega⟩
  have hpos : position.toInt.toNat = p + 1 := by omega
  have hl := h.size_le_lastKey
  have hlast := lastKey_eq
  have hslot : t.slot? position = some p := slot?_eq_some.mpr ⟨by omega, hp⟩
  have hafter := h.removeAt position
  have hget : ∀ i, (t.array.eraseIdxIfInBounds p)[i]?
      = if i < p then t.array[i]? else t.array[i + 1]? := by
    intro i
    rw [← Array.getElem?_toList, Array.toList_eraseIdxIfInBounds, List.getElem?_eraseIdx,
      Array.getElem?_toList, Array.getElem?_toList]
  have hsize : (t.array.eraseIdxIfInBounds p).size ≤ lastKey := by
    rw [← Array.length_toList, Array.toList_eraseIdxIfInBounds]
    exact Nat.le_trans (List.length_eraseIdx_le _ _) (by rw [Array.length_toList]; exact hl)
  have heq : t.removeAt position = { t with array := t.array.eraseIdxIfInBounds p } := by
    unfold Table.removeAt
    rw [hslot]
  have htape : (t.removeAt position).tape
      = Node.run 1 (t.array.eraseIdxIfInBounds p).toList ++ t.hash.nodes.toList := by
    rw [heq]
    rfl
  rw [hpos]
  refine ⟨fun i hpi hi => ?_, ?_, fun k hk hne => ?_, by rw [heq]⟩
  · obtain ⟨i, rfl⟩ : ∃ j, i = j + 1 := ⟨i - 1, by omega⟩
    change i + 1 < t.array.size at hi
    obtain ⟨hold, hne⟩ := h.getKey_count hi
    refine hafter.getKey_of_holds ?_
    rw [htape, holds_append]
    refine .inl ((holds_run_count hsize (by omega)).mpr ⟨hne, ?_⟩)
    rw [hget, if_neg (by omega)]
    exact hold
  · -- the border had its value in the array part only
    by_contra hne
    have hh := (hafter.holds_iff (.count _)).mpr ⟨hne, rfl⟩
    obtain ⟨n, hn⟩ : ∃ n, t.array.size = n + 1 := ⟨t.array.size - 1, by omega⟩
    have hlen : t.length = n + 1 := hn
    rw [htape, hlen, holds_append, holds_run_count hsize (by omega), hget, if_neg (by omega),
      Array.getElem?_eq_none (by omega)] at hh
    rcases hh with ⟨_, hh⟩ | hh
    · cases hh
    · refine h.unshadowed (Int64.ofNat (n + 1)) hh.mem_keys ?_
      unfold Within
      rw [Value.toInt_ofNat (by omega)]
      omega
  · change ∀ i, p + 1 ≤ i → i ≤ t.array.size → _ at hne
    refine h.getKey_congr hafter hk hk fun w => ?_
    rw [htape]
    unfold tape tapeOf
    rw [holds_append, holds_append]
    refine or_congr_left (holds_run_congr fun i hi => ?_)
    have hout : i < p ∨ t.array.size < i + 1 := by
      by_contra hc
      exact hne (i + 1) (by omega) (by omega) hi
    rw [hget]
    rcases hout with hlt | hgt
    · rw [if_pos hlt]
    · rw [if_neg (by omega), Array.getElem?_eq_none (by omega), Array.getElem?_eq_none (by omega)]

theorem hasRoomAt_iff (hl : t.length < lastKey) (p : Int64) :
    t.hasRoomAt p = true ↔ 1 ≤ p.toInt ∧ p.toInt ≤ t.length + 1 := by
  rw [lastKey_eq] at hl
  unfold hasRoomAt
  rw [Bool.and_eq_true, decide_eq_true_eq, decide_eq_true_eq, Int64.le_iff_toInt_le,
    Int64.le_iff_toInt_le, Int64.toInt_add, Value.toInt_ofNat (by omega),
    show (1 : Int64).toInt = 1 from rfl, Int.bmod_eq_of_le (by omega) (by omega)]

theorem toNat_toUInt64 (p : Int64) :
    (p.toUInt64.toNat : Int) = if p.toInt < 0 then p.toInt + 2 ^ 64 else p.toInt := by
  have hnat : p.toUInt64.toNat = p.toBitVec.toNat := rfl
  have hlt := p.toBitVec.isLt
  rw [hnat, ← Int64.toInt_toBitVec, BitVec.toInt_eq_toNat_cond]
  split <;> split <;> omega

theorem toInt_length (hl : t.length < lastKey) : (Int64.ofNat t.length).toInt = t.length := by
  rw [lastKey_eq] at hl
  exact Value.toInt_ofNat (by omega)

/-- **One unsigned comparison tests both ends.**  A position below one wraps around to a number past
every length. -/
theorem beyond_iff (hl : t.length < lastKey) (p : Int64) :
    ((Int64.ofNat t.length).toUInt64 + 1 ≤ p.toUInt64 - 1 ↔
      ¬ (1 ≤ p.toInt ∧ p.toInt ≤ t.length + 1)) ∧
    ((Int64.ofNat t.length).toUInt64 < p.toUInt64 - 1 ↔
      ¬ (1 ≤ p.toInt ∧ p.toInt ≤ t.length + 1)) := by
  have hp := toNat_toUInt64 p
  have hlow := p.le_toInt
  have hhigh := p.toInt_lt
  have hn := toNat_toUInt64 (Int64.ofNat t.length)
  rw [toInt_length hl, if_neg (by omega)] at hn
  rw [lastKey_eq] at hl
  rw [UInt64.le_iff_toNat_le, UInt64.lt_iff_toNat_lt, UInt64.toNat_add, UInt64.toNat_sub,
    show (1 : UInt64).toNat = 1 from rfl]
  constructor
  · split at hp <;> omega
  · split at hp <;> omega

theorem isSome_slot?_iff (p : Int64) :
    (t.slot? p).isSome = true ↔ 1 ≤ p.toInt ∧ p.toInt ≤ t.length := by
  unfold slot? length
  split <;> simp_all

theorem refused_iff (hl : t.length < lastKey) (p : Int64) :
    (p ≠ Int64.ofNat t.length ∧ (Int64.ofNat t.length).toUInt64 < p.toUInt64 - 1) ↔
      p.toInt ≠ t.length ∧ ¬ (1 ≤ p.toInt ∧ p.toInt ≤ t.length + 1) := by
  rw [(beyond_iff hl p).2, ne_eq, ← Int64.toInt_inj, toInt_length hl]

theorem outside_iff (hl : t.length < lastKey) (p : Int64) :
    (p < 1 ∨ Int64.ofNat t.length < p) ↔ ¬ (t.slot? p).isSome = true := by
  rw [isSome_slot?_iff, Int64.lt_iff_toInt_lt, Int64.lt_iff_toInt_lt, toInt_length hl,
    show (1 : Int64).toInt = 1 from rfl]
  omega

end Table

/-! ## the operations of a program -/

/-- A value that stands for an integer, as an argument of a library function: an integer, an integral
float, or a string that reads as one of them. -/
def Value.StandsFor (x : Value) (n : Int64) : Prop :=
  ∀ f, Arguments.integerOf (some x) 2 f = .ok n

section
variable {t : TableId} {x v : Value} {p : Int64}

theorem insertAt_bind : (Action.insertAt t p v).bind (fun _ => .done ([] : List Value))
    = .read fun h =>
      if (h.table t).hasRoomAt p then .write (·.modifyTable t (·.insertAt p v)) (.done [])
      else .exit (.failed (.complaint .position)) := by
  refine congrArg Action.read (funext fun h => ?_)
  show Action.bind (if (h.table t).hasRoomAt p then _ else _) _ = _
  cases (h.table t).hasRoomAt p <;> rfl

theorem removeAt_bind : (Action.removeAt t p).bind (fun w => .done [w]) = .read fun h =>
    if ((h.table t).slot? p).isSome then
      .write (·.modifyTable t (·.removeAt p)) (.done [(h.table t).getInt p])
    else .exit (.failed (.complaint .position)) := by
  refine congrArg Action.read (funext fun h => ?_)
  show Action.bind (if ((h.table t).slot? p).isSome then _ else _) _ = _
  cases ((h.table t).slot? p).isSome <;> rfl

namespace Library.Sequence

theorem insert_eq (hx : x.StandsFor p) : insert [.table t, x, v] = .read fun h =>
    if (Int64.ofNat (h.table t).length).toUInt64 + 1 ≤ p.toUInt64 - 1 then
      .exit (.failed (.argument 2 "insert" .positionRange))
    else (Action.insertAt t p v).bind fun _ => .done [] := by
  refine congrArg Action.read (funext fun h => ?_)
  show (Action.ofExcept (Arguments.integerOf (some x) 2 "insert")).bind _ = _
  rw [hx]
  rfl

theorem integerOr_eq (hx : x.StandsFor p) (n : Int64) :
    Arguments.integerOr [.table t, x] 2 "remove" n = .ok p := by
  have hne : x ≠ .nil := by
    rintro rfl
    cases hx ""
  unfold Arguments.integerOr
  rw [if_neg]
  · exact hx "remove"
  · exact mt Value.isNil_iff.mp hne

theorem remove_eq (hx : x.StandsFor p) : remove [.table t, x] = .read fun h =>
    if p ≠ Int64.ofNat (h.table t).length ∧
        (Int64.ofNat (h.table t).length).toUInt64 < p.toUInt64 - 1 then
      .exit (.failed (.argument 2 "remove" .positionRange))
    else if p < 1 ∨ Int64.ofNat (h.table t).length < p then
      .write (·.modifyTable t (·.setInt p .nil)) (.done [(h.table t).getInt p])
    else (Action.removeAt t p).bind fun w => .done [w] := by
  unfold remove
  rw [funext (integerOr_eq hx)]
  rfl

end Library.Sequence

end

namespace Machine

open Table Library.Sequence

variable {m : Machine} {t : TableId} {p : Int64} {v x : Value}

/-! ### what is done at a position -/

section
variable {a : Action (List Value)} {q : Reply} {n : Machine}

theorem gives_insert (ha : (if (m.heap.table t).hasRoomAt p then
      .write (·.modifyTable t (·.insertAt p v)) (.done [])
      else .exit (.failed (.complaint .position))) = a) (hg : Gives Job.body a m q n) :
    Gives Job.body (TableMethod.insert.run t [.integer p, v]) m q n := by
  show Gives Job.body ((Action.insertAt t p v).bind fun _ => .done []) m q n
  rw [insertAt_bind]
  subst ha
  exact hg

theorem gives_remove (ha : (if ((m.heap.table t).slot? p).isSome then
      .write (·.modifyTable t (·.removeAt p)) (.done [(m.heap.table t).getInt p])
      else .exit (.failed (.complaint .position))) = a) (hg : Gives Job.body a m q n) :
    Gives Job.body (TableMethod.remove.run t [.integer p]) m q n := by
  show Gives Job.body ((Action.removeAt t p).bind fun w => .done [w]) m q n
  rw [removeAt_bind]
  subst ha
  exact hg

variable (h : m.Valid) (hroom : m.current.depth < Strand.maxDepth)
  (hl : (m.heap.table t).length < lastKey) (hx : x.StandsFor p)
include h hroom hl hx

theorem Valid.libraryGives_insert (ha : (if (m.heap.table t).hasRoomAt p then
      .write (·.modifyTable t (·.insertAt p v)) (.done [])
      else .exit (.failed (.argument 2 "insert" .positionRange))) = a)
    (hg : Gives Job.body a m.calling q n) :
    LibraryGives m .insert [.table t, x, v] (callReply q) { n with current := m.current } := by
  refine h.libraryGives hroom ?_ rfl rfl
  show Gives Job.body (Library.Sequence.insert _) m.calling q n
  rw [insert_eq hx]
  show Gives Job.body (if (Int64.ofNat (m.heap.table t).length).toUInt64 + 1 ≤ p.toUInt64 - 1 then _
    else _) m.calling q n
  subst ha
  by_cases hin : 1 ≤ p.toInt ∧ p.toInt ≤ (m.heap.table t).length + 1
  · have hin' := (hasRoomAt_iff hl p).mpr hin
    rw [if_pos hin'] at hg
    rw [if_neg fun hb => (beyond_iff hl p).1.mp hb hin]
    exact gives_insert (if_pos hin') hg
  · rw [if_pos ((beyond_iff hl p).1.mpr hin)]
    rwa [if_neg (mt (hasRoomAt_iff hl p).mp hin)] at hg

theorem Valid.libraryGives_remove (ha : (if p.toInt ≠ (m.heap.table t).length ∧
          ¬(1 ≤ p.toInt ∧ p.toInt ≤ (m.heap.table t).length + 1) then
        .exit (.failed (.argument 2 "remove" .positionRange))
      else if ((m.heap.table t).slot? p).isSome then
        .write (·.modifyTable t (·.removeAt p)) (.done [(m.heap.table t).getInt p])
      else .write (·.modifyTable t (·.setInt p .nil)) (.done [(m.heap.table t).getInt p])) = a)
    (hg : Gives Job.body a m.calling q n) :
    LibraryGives m .remove [.table t, x] (callReply q) { n with current := m.current } := by
  refine h.libraryGives hroom ?_ rfl rfl
  show Gives Job.body (Library.Sequence.remove _) m.calling q n
  rw [remove_eq hx]
  show Gives Job.body (if p ≠ Int64.ofNat (m.heap.table t).length ∧
      (Int64.ofNat (m.heap.table t).length).toUInt64 < p.toUInt64 - 1 then _
    else if p < 1 ∨ Int64.ofNat (m.heap.table t).length < p then _ else _) m.calling q n
  subst ha
  simp only [refused_iff hl, outside_iff hl]
  split
  · rename_i hp
    rwa [if_pos hp] at hg
  · rename_i hp
    rw [if_neg hp] at hg
    split
    · rename_i hs
      rwa [if_neg hs] at hg
    · rename_i hs
      rw [not_not] at hs
      rw [if_pos hs] at hg
      exact gives_remove (if_pos hs) hg

end

/-! ### at every position -/

section
variable {heap : Heap} {first now : Action Turn}

/-- **Inserting and removing are shifts.**  At a position from one to one past the border, inserting
puts the value there and moves what was there and after it one up; at a position up to the border,
removing gives the value and moves what is after it one down.  Every other key keeps its value.  At
any other position both fail and change nothing.  So do the library functions, except that removing
one past the border, or at zero in a table without a sequence, gives the value and clears the key. -/
theorem insert_remove_shift (hr : Run Job.body (initial heap, first) (m, now))
    (hroom : m.current.depth < Strand.maxDepth) (ht : t.index < m.heap.tables.size)
    (hmade : (m.heap.table t).Made Edit.Plain) (hl : (m.heap.table t).length < lastKey)
    (p : Int64) (v : Value) :
    (1 ≤ p.toInt → p.toInt ≤ (m.heap.table t).length + 1 →
      ∃ table, Raised (m.heap.table t) p.toInt.toNat v table ∧
        Gives Job.body (TableMethod.insert.run t [.integer p, v]) m (.ok []) (m.setTable t table) ∧
        ∀ x : Value, x.StandsFor p →
          LibraryGives m .insert [.table t, x, v] (.ok []) (m.setTable t table)) ∧
    (¬ (1 ≤ p.toInt ∧ p.toInt ≤ (m.heap.table t).length + 1) →
      Gives Job.body (TableMethod.insert.run t [.integer p, v]) m
        (.error (.failed (.complaint .position))) m ∧
      ∀ x : Value, x.StandsFor p → LibraryGives m .insert [.table t, x, v]
        (.error (.failed (.argument 2 "insert" .positionRange))) m) ∧
    (1 ≤ p.toInt → p.toInt ≤ (m.heap.table t).length →
      ∃ table, Lowered (m.heap.table t) p.toInt.toNat table ∧
        Gives Job.body (TableMethod.remove.run t [.integer p]) m
          (.ok [(m.heap.table t).getKey (.integer p)]) (m.setTable t table) ∧
        ∀ x : Value, x.StandsFor p → LibraryGives m .remove [.table t, x]
          (.ok [(m.heap.table t).getKey (.integer p)]) (m.setTable t table)) ∧
    (¬ (1 ≤ p.toInt ∧ p.toInt ≤ (m.heap.table t).length) →
      Gives Job.body (TableMethod.remove.run t [.integer p]) m
        (.error (.failed (.complaint .position))) m) ∧
    (p.toInt = (m.heap.table t).length + 1 ∨ (p.toInt = 0 ∧ (m.heap.table t).length = 0) →
      ∃ table, Cleared (m.heap.table t) (.integer p) table ∧
        ∀ x : Value, x.StandsFor p → LibraryGives m .remove [.table t, x]
          (.ok [(m.heap.table t).getKey (.integer p)]) (m.setTable t table)) ∧
    (p.toInt ≠ (m.heap.table t).length →
      ¬ (1 ≤ p.toInt ∧ p.toInt ≤ (m.heap.table t).length + 1) →
      ∀ x : Value, x.StandsFor p → LibraryGives m .remove [.table t, x]
        (.error (.failed (.argument 2 "remove" .positionRange))) m) := by
  have h : m.Valid := (valid_initial heap).run hr
  have hv := hmade.inv
  have ht' : t.index < m.calling.heap.tables.size := ht
  have hins := hasRoomAt_iff hl p
  have hrem := isSome_slot?_iff (t := m.heap.table t) p
  refine ⟨fun h1 hle => ?_, fun hp => ?_, fun h1 hle => ?_, fun hp => ?_, fun hp => ?_,
    fun hne hp x hx => ?_⟩
  · have hp := hins.mpr ⟨h1, hle⟩
    exact ⟨_, hv.raised_insertAt h1 hle hl v, gives_insert (if_pos hp) (gives_modifyTable ht _ []),
      fun x hx => h.libraryGives_insert hroom hl hx (if_pos hp) (gives_modifyTable ht' _ [])⟩
  · have hp := mt hins.mp hp
    exact ⟨gives_insert (if_neg hp) (gives_exit _),
      fun x hx => h.libraryGives_insert hroom hl hx (if_neg hp) (gives_exit _)⟩
  · have hp := hrem.mpr ⟨h1, hle⟩
    exact ⟨_, hv.lowered_removeAt h1 hle, gives_remove (if_pos hp) (gives_modifyTable ht _ _),
      fun x hx => h.libraryGives_remove hroom hl hx ((if_neg (by omega)).trans (if_pos hp))
        (gives_modifyTable ht' _ _)⟩
  · exact gives_remove (if_neg (mt hrem.mp hp)) (gives_exit _)
  · have hout : ¬ ((m.heap.table t).slot? p).isSome = true := mt hrem.mp (by omega)
    exact ⟨_, hv.cleared_setInt p,
      fun x hx => h.libraryGives_remove hroom hl hx ((if_neg (by omega)).trans (if_neg hout))
        (gives_modifyTable ht' _ _)⟩
  · exact h.libraryGives_remove hroom hl hx (if_pos ⟨hne, hp⟩) (gives_exit _)

end

/-- A sequence of two values with a gap after it, and a value behind the gap. -/
def gapped : Table := (ofList [.integer 10, .integer 20]).edit (.setInt 4 (.integer 40))

def gappedHeap : Heap :=
  { tables := #[gapped], functions := #[.builtin .insert], shared := [], locals := #[], log := [] }

def gappedMachine : Machine := initial gappedHeap

/-- Inserting at the float two makes the value behind the gap part of the sequence, and inserting
four past the border is refused. -/
theorem insert_remove_shift_gapped :
    (∃ table, Raised gapped 2 (.integer 15) table ∧ LibraryGives gappedMachine .insert
      [.table ⟨0⟩, .float ⟨0x4000000000000000⟩, .integer 15] (.ok [])
      (gappedMachine.setTable ⟨0⟩ table)) ∧
    LibraryGives gappedMachine .insert [.table ⟨0⟩, .integer 6, .nil]
      (.error (.failed (.argument 2 "insert" .positionRange))) gappedMachine := by
  have hr : Run Job.body (initial gappedHeap, answer (.ok [])) (gappedMachine, answer (.ok [])) :=
    .refl
  have hmade : gapped.Made Edit.Plain := .edit (.setInt 4 (.integer 40)) (by decide) (.ofList _)
  have hshift := insert_remove_shift hr (by decide) (t := ⟨0⟩) (by decide) hmade (by decide +kernel)
  obtain ⟨table, hraised, _, hlib⟩ :=
    (hshift 2 (.integer 15)).1 (by decide) (by decide +kernel)
  have htwo : (Value.float ⟨0x4000000000000000⟩).StandsFor 2 := by
    have e : (⟨0x4000000000000000⟩ : Double).toInteger? = some 2 := by decide +kernel
    intro f
    simp only [Arguments.integerOf, e]
  exact ⟨⟨table, hraised, hlib _ htwo⟩,
    ((hshift 6 .nil).2.1 (by decide +kernel)).2 _ fun _ => rfl⟩

end Machine

end LuaMachine
