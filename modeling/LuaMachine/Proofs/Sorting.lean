import LuaMachine.Proofs.Histories
import LuaMachine.Proofs.MergeLoops
import LuaMachine.Proofs.Performing

/-!
# Sorting a table

The library function that sorts a table asks for comparisons, each of which may run a program.  It
stores nothing before the last one is answered.  So the table is rearranged as a whole or not at all,
whatever the comparisons answer, and they decide only in what order its values come out.

* `Rearranged`           a table in which only the order of its sequence is another one;
* `storeAll_eq`          storing as many values as there are replaces the array part;
* `Compares`             comparisons that are made one after the other;
* `performs_interpret`   a tree of questions goes down the branch of its answers, or ends with the
                         first comparison that fails;
* `Spares`               the comparisons that a tree asks for leave a table as it is;
* `Stays`                an action, such as a comparison, never leaves the function that it is in;
* `SortEnds`, `performs_sort`   what a sort does with such comparisons;
* `sort_stable_atomic`   the library function, for every table and every comparison.
-/

namespace LuaMachine

def Value.isLess (a b : Value) : Bool := (a.order? b).elim false PrimitiveOrder.isLess

namespace Table

variable {t : Table} {k v : Value}

/-! ## the sequence of a table -/

def sequence (t : Table) : List Value :=
  (List.range t.length).map fun i => t.getKey (.count (i + 1))

theorem length_sequence (t : Table) : t.sequence.length = t.length := by
  unfold sequence
  rw [List.length_map, List.length_range]

/-- Only the order of the values up to the border may be another one. -/
structure Rearranged (t t' : Table) : Prop where
  length : t'.length = t.length
  perm : t'.sequence.Perm t.sequence
  others : ∀ k : Value, (∀ i < t.length, k ≠ .count (i + 1)) → t'.getKey k = t.getKey k
  metatable : t'.metatable = t.metatable

theorem Solid.sequence_eq (h : Solid t.array) : t.sequence = t.array.toList := by
  have hl := h.size_le
  rw [lastKey_eq] at hl
  unfold sequence length
  apply List.ext_getElem?
  intro i
  have ha : t.array.toList[i]? = t.array[i]? := Array.getElem?_toList
  rw [List.getElem?_map, ha]
  by_cases hi : i < t.array.size
  · have hs : t.slot? (Int64.ofNat (i + 1)) = some i := by
      rw [slot?_eq_some, Value.toInt_ofNat (by omega)]
      exact ⟨hi, rfl⟩
    rw [List.getElem?_range hi, Array.getElem?_eq_getElem hi]
    exact congrArg some (getKey_slot hs (Array.getElem?_eq_getElem hi))
  · rw [Array.getElem?_eq_none (Nat.le_of_not_lt hi), List.getElem?_eq_none]
    · rfl
    · rw [List.length_range]
      exact Nat.le_of_not_lt hi

/-- A key outside the array part does not see another array part of the same size. -/
theorem getKey_other {array : Array Value} (hs : array.size = t.array.size)
    (hk : ∀ i < t.length, k ≠ .count (i + 1)) : ({ t with array } : Table).getKey k = t.getKey k := by
  have hout : ∀ n, k = .integer n → ¬ Within t.array.size n := by
    rintro n rfl ⟨h1, hle⟩
    refine hk (n.toInt.toNat - 1) (by show _ < t.array.size; omega) (Value.integer_eq_count ?_)
    omega
  rw [getKey_outside hout]
  refine getKey_outside fun n hn => ?_
  show ¬ Within array.size n
  rw [hs]
  exact hout n hn

theorem Solid.rearranged (h : Solid t.array) {vs : List Value} (hp : vs.Perm t.array.toList) :
    Solid vs.toArray ∧ Rearranged t { t with array := vs.toArray } := by
  have hs : vs.toArray.size = t.array.size := by
    rw [List.size_toArray, hp.length_eq, Array.length_toList]
  have hsolid : Solid vs.toArray :=
    ⟨fun v hv => h.full v (hp.mem_iff.mp hv), by rw [hs]; exact h.size_le⟩
  refine ⟨hsolid, hs, ?_, fun k hk => getKey_other hs hk, rfl⟩
  rw [h.sequence_eq, Solid.sequence_eq (t := { t with array := vs.toArray }) hsolid]
  exact hp

end Table

namespace Library.Sequence

open Table

variable {t : Table}

theorem foldl_setInt (vs : List Value) : ∀ (i : Nat) (t : Table), i + vs.length = t.array.size →
    t.array.size ≤ lastKey → (∀ v ∈ vs, v ≠ .nil) →
    (vs.zipIdx (i + 1)).foldl (fun t p => t.setInt (Int64.ofNat p.2) p.1) t
      = { t with array := (t.array.toList.take i ++ vs).toArray } := by
  induction vs with
  | nil =>
    intro i t hi _ _
    rw [List.take_of_length_le (by rw [Array.length_toList]; exact Nat.le_of_eq hi.symm),
      List.append_nil, Array.toArray_toList]
    rfl
  | cons v vs ih =>
    intro i t hi hl hv
    rw [List.length_cons] at hi
    have hl' := hl
    rw [lastKey_eq] at hl'
    have hs : t.slot? (Int64.ofNat (i + 1)) = some i := by
      rw [slot?_eq_some, Value.toInt_ofNat (by omega)]
      exact ⟨by omega, rfl⟩
    have hsize : (t.array.setIfInBounds i v).size = t.array.size := Array.size_setIfInBounds
    have htake : (t.array.toList.set i v).take (i + 1) = t.array.toList.take i ++ [v] := by
      have hi' : i < t.array.toList.length := by rw [Array.length_toList]; omega
      rw [List.set_eq_take_append_cons_drop, if_pos hi', List.append_cons]
      refine List.take_left' ?_
      rw [List.length_append, List.length_take_of_le (Nat.le_of_lt hi')]
      rfl
    rw [List.zipIdx_cons, List.foldl_cons, setInt_slot hs (hv v List.mem_cons_self),
      ih (i + 1) _ (by rw [hsize]; omega) (by rw [hsize]; exact hl)
        fun w hw => hv w (List.mem_cons_of_mem _ hw),
      Array.toList_setIfInBounds, htake, List.append_assoc, List.singleton_append]

/-- **Storing as many values as there are replaces the array part.** -/
theorem storeAll_eq (h : Solid t.array) {vs : List Value} (hp : vs.Perm t.array.toList) :
    storeAll t vs = { t with array := vs.toArray } := by
  have hlen : 0 + vs.length = t.array.size := by
    rw [hp.length_eq, Array.length_toList, Nat.zero_add]
  exact foldl_setInt vs 0 t hlen h.size_le fun v hv => h.full v (hp.mem_iff.mp hv)

theorem rearranged_storeAll (h : Solid t.array) {vs : List Value} (hp : vs.Perm t.sequence) :
    Rearranged t (storeAll t vs) ∧ (storeAll t vs).sequence = vs := by
  rw [h.sequence_eq] at hp
  obtain ⟨hsolid, hr⟩ := h.rearranged hp
  rw [storeAll_eq h hp]
  exact ⟨hr, Solid.sequence_eq (t := { t with array := vs.toArray }) hsolid⟩

theorem storeAll_sequence (h : Solid t.array) : storeAll t t.sequence = t := by
  rw [h.sequence_eq, storeAll_eq h .rfl, Array.toArray_toList]

theorem sorted_short {less : Value → Value → Decision Value Bool} {xs : List Value}
    (h : xs.length ≤ 1) : sorted less xs = .done xs := by
  unfold sorted
  rw [sortWidths, if_neg (Nat.not_lt.mpr h)]
  rfl

/-- The arguments of a sort: a table, and the function to compare by unless it is left out. -/
inductive SortArguments (t : TableId) : Option FunctionId → List Value → Prop
  | table : SortArguments t none [.table t]
  | omitted (rest : List Value) : SortArguments t none (.table t :: .nil :: rest)
  | function (f : FunctionId) (rest : List Value) :
      SortArguments t (some f) (.table t :: .function f :: rest)

theorem sort_eq {t : TableId} {by' : Option FunctionId} {vs : List Value}
    (h : SortArguments t by' vs) :
    sort vs = .read fun heap =>
      if (heap.table t).array.toList.length ≤ 1 then .done []
      else (sorted (comparison by') (heap.table t).array.toList).bind fun result =>
        .write (·.modifyTable t (storeAll · result)) (.done []) := by
  cases h <;> rfl

end Library.Sequence

namespace Machine

open Table Decision Library.Sequence

variable {m m' n l : Machine} {t : TableId} {T : Table} {less : Value → Value → Action Bool}
  {α β : Type} {d d' : Decision Value α} {cs : List (Comparison Value)}

/-! ## comparisons -/

/-- Comparisons that are made one after the other. -/
inductive Compares (less : Value → Value → Action Bool) :
    Machine → List (Comparison Value) → Machine → Prop
  | nil {m : Machine} : Compares less m [] m
  | cons {m n m' : Machine} {x y : Value} {r : Bool} {cs : List (Comparison Value)} :
      Performs Job.body (less x y) m (.ok r) n → Compares less n cs m' →
      Compares less m (⟨x, y, r⟩ :: cs) m'

theorem Compares.valid (hc : Compares less m cs n) (h : m.Valid) : n.Valid := by
  induction hc with
  | nil => exact h
  | cons hp _ ih => exact ih (h.performs hp).1

/-- **A tree of questions goes down the branch of its answers**, or ends with the first comparison
that fails. -/
theorem performs_interpret {q : Except Exit α} :
    Performs Job.body (d.interpret less) m q n ↔
      (∃ cs b, d.Reaches cs (.done b) ∧ Compares less m cs n ∧ q = .ok b) ∨
      ∃ cs x y l e, d.Asks cs x y ∧ Compares less m cs l ∧
        Performs Job.body (less x y) l (.error e) n ∧ q = .error e := by
  induction d generalizing m with
  | done b =>
    constructor
    · rintro ⟨rfl, rfl⟩
      exact .inl ⟨[], b, .here, .nil, rfl⟩
    · rintro (⟨cs, b', hd, hc, rfl⟩ | ⟨cs, x, y, l, e, ⟨k, hd⟩, _⟩)
      · cases hd
        cases hc
        exact ⟨rfl, rfl⟩
      · cases hd
  | ask x y k ih =>
    show Performs Job.body ((less x y).bind fun r => (k r).interpret less) m q n ↔ _
    rw [performs_bind]
    constructor
    · rintro (⟨r, l, hp, hk⟩ | ⟨e, he, rfl⟩)
      · rcases (ih r).mp hk with ⟨cs, b, hd, hc, rfl⟩ | ⟨cs, x', y', l', e, hd, hc, he, rfl⟩
        · exact .inl ⟨_, b, .answer hd, .cons hp hc, rfl⟩
        · exact .inr ⟨_, x', y', l', e, hd.answer, .cons hp hc, he, rfl⟩
      · exact .inr ⟨[], x, y, m, e, ⟨k, .here⟩, .nil, he, rfl⟩
    · rintro (⟨cs, b, hd, hc, rfl⟩ | ⟨cs, x', y', l, e, ⟨k', hd⟩, hc, he, rfl⟩)
      · cases hd with
        | answer hd =>
          cases hc with
          | cons hp hc => exact .inl ⟨_, _, hp, (ih _).mpr (.inl ⟨_, b, hd, hc, rfl⟩)⟩
      · cases hd with
        | here =>
          cases hc
          exact .inr ⟨e, he, rfl⟩
        | answer hd =>
          cases hc with
          | cons hp hc =>
            exact .inl ⟨_, _, hp, (ih _).mpr (.inr ⟨_, x', y', l, e, ⟨k', hd⟩, hc, he, rfl⟩)⟩

/-- A tree of questions comes to an end unless one of its comparisons does not. -/
theorem performs_or_endless (less : Value → Value → Action Bool) (d : Decision Value α)
    (m : Machine) : (∃ q n, Performs Job.body (d.interpret less) m q n) ∨
      ∃ cs x y l, d.Asks cs x y ∧ Compares less m cs l ∧
        ∀ q n, ¬ Performs Job.body (less x y) l q n := by
  induction d generalizing m with
  | done b => exact .inl ⟨.ok b, m, rfl, rfl⟩
  | ask x y k ih =>
    by_cases hend : ∃ q n, Performs Job.body (less x y) m q n
    · obtain ⟨q, n, hp⟩ := hend
      cases q with
      | error e => exact .inl ⟨.error e, n, performs_bind.mpr (.inr ⟨e, hp, rfl⟩)⟩
      | ok r =>
        rcases ih r n with ⟨q, n', hk⟩ | ⟨cs, x', y', l, ha, hc, hnone⟩
        · exact .inl ⟨q, n', performs_bind.mpr (.inl ⟨r, n, hp, hk⟩)⟩
        · exact .inr ⟨_, x', y', l, ha.answer, .cons hp hc, hnone⟩
    · exact .inr ⟨[], x, y, m, ⟨k, .here⟩, .nil, fun q n hp => hend ⟨q, n, hp⟩⟩

/-- Wherever a tree asks for a comparison, making it leaves a table as it is. -/
def Spares (less : Value → Value → Action Bool) (t : TableId) (T : Table) (d : Decision Value α)
    (m : Machine) : Prop :=
  ∀ cs x y l q n, d.Asks cs x y → Compares less m cs l → Performs Job.body (less x y) l q n →
    n.heap.table t = T

theorem Spares.compares (hd : d.Reaches cs d') (hk : Spares less t T d m)
    (hc : Compares less m cs n) (hT : m.heap.table t = T) : n.heap.table t = T := by
  induction hd generalizing m with
  | here =>
    cases hc
    exact hT
  | answer hd ih =>
    cases hc with
    | cons hp hc =>
      refine ih (fun cs x y l q n ha hc' => ?_) hc (hk [] _ _ m _ _ ⟨_, .here⟩ .nil hp)
      exact hk _ x y l q n ha.answer (.cons hp hc')

/-! ## comparisons do not leave the function -/

/-- An action never leaves the function that it is in. -/
def Stays (a : Action α) (m : Machine) : Prop :=
  ∀ us n, ¬ Performs Job.body a m (.error (.left us)) n

theorem Stays.bind {a : Action α} {f : α → Action β} (ha : Stays a m)
    (hf : ∀ x n, Performs Job.body a m (.ok x) n → Stays (f x) n) : Stays (a.bind f) m := by
  intro us n hp
  rcases performs_bind.mp hp with ⟨x, l, hx, hp⟩ | ⟨e, he, e'⟩
  · exact hf x l hx us n hp
  · cases e'
    exact ha us n he

theorem stays_done (x : α) : Stays (.done x) m := fun _ _ h => nomatch h.1

theorem stays_fail (f : Failure) : Stays (Action.fail f : Action α) m := fun _ _ h => nomatch h.1

theorem Valid.stays_callFunction (h : m.Valid) (f : FunctionId) (vs : List Value) :
    Stays (Action.callFunction f vs) m := by
  rintro us n ⟨r, l, hr, hp⟩
  have hleft : r = .error (.left us) := by
    cases r with
    | ok vs => cases hp.1
    | error e =>
      cases hp.1
      rfl
  subst hleft
  by_cases hroom : m.current.depth < Strand.maxDepth
  · obtain ⟨q, _, _, e, _⟩ := (h.replies_iff_performs hroom).mp hr
    rcases q with (_ | _ | _) | _ <;> cases e
  · obtain ⟨y, hs, hz⟩ := hr answer
    have hstep : m.step Job.body (.run (.function f vs) answer) = .next m _ :=
      if_pos (Nat.le_of_not_lt hroom)
    cases hs.eq_of_next hstep
    cases answer_injective (Prod.mk.inj (h.inv.returns_same rfl hz)).2

theorem stays_heap : Stays Action.heap m := fun _ _ h => nomatch h.1

theorem Valid.stays_call (h : m.Valid) (v : Value) (vs : List Value) :
    Stays (Action.call v vs) m := by
  refine stays_heap.bind fun heap n hn => ?_
  have hvalid := (h.performs hn).1
  split
  · exact hvalid.stays_callFunction _ _
  · exact stays_fail _

theorem Valid.stays_compareBy (h : m.Valid) (mm : Metamethod) (a b : Value) :
    Stays (Action.compareBy mm a b) m := by
  refine stays_heap.bind fun heap n hn => ?_
  have hvalid := (h.performs hn).1
  split
  · refine Stays.bind (Stays.bind (hvalid.stays_call _ _) ?_) ?_
    · exact fun vs _ _ => stays_done _
    · exact fun v _ _ => stays_done _
  · exact stays_done _

/-- **A comparison answers or fails.** -/
theorem Valid.stays_comparison (h : m.Valid) (by' : Option FunctionId) (a b : Value) :
    Stays (comparison by' a b) m := by
  cases by' with
  | some f => exact (h.stays_callFunction f [a, b]).bind fun vs _ _ => stays_done _
  | none =>
    show Stays (Action.less a b) m
    unfold Action.less
    split
    · exact stays_done _
    · refine (h.stays_compareBy .less a b).bind fun r _ _ => ?_
      split
      · exact stays_done _
      · exact stays_fail _

/-! ## sorting -/

/-- What a sort does: it makes comparisons and then stores the values, or it ends with the first
comparison that fails. -/
inductive SortEnds (less : Value → Value → Action Bool) (t : TableId) (T : Table) (m : Machine) :
    Reply → Machine → Prop
  | stored {cs : List (Comparison Value)} {l : Machine} {result : List Value} :
      (sorted question T.sequence).Reaches cs (.done result) → Compares less m cs l →
      SortEnds less t T m (.ok []) (l.setTable t (storeAll T result))
  | failed {cs : List (Comparison Value)} {l n : Machine} {x y : Value} {e : Exit} :
      (sorted question T.sequence).Asks cs x y → Compares less m cs l →
      Performs Job.body (less x y) l (.error e) n → SortEnds less t T m (.error e) n

theorem perm_of_reaches {xs result : List Value}
    (hd : (sorted question xs).Reaches cs (.done result)) : result.Perm xs :=
  ((sorted_all xs).reaches hd).1

theorem gives_store (hT : l.heap.table t = T) (hpos : 0 < T.length) (result : List Value) :
    Gives Job.body (.write (·.modifyTable t (storeAll · result)) (.done [])) l (.ok ([] : List Value))
      (l.setTable t (storeAll T result)) := by
  have ht : t.index < l.heap.tables.size := Heap.lt_of_length_pos (by rw [hT]; exact hpos)
  have hg := gives_modifyTable ht (storeAll · result) ([] : List Value)
  rw [hT] at hg
  exact hg

section
variable {by' : Option FunctionId} {vs : List Value} {q : Reply} (hs : Solid T.array)
include hs

theorem table_stored {result : List Value} (hp : result.Perm T.sequence)
    (hT : l.heap.table t = T) :
    (l.setTable t (storeAll T result)).heap.table t = storeAll T result := by
  by_cases hlen : T.length = 0
  · have hseq : T.sequence = [] := List.length_eq_zero_iff.mp ((length_sequence T).trans hlen)
    have hresult : result = T.sequence := by
      rw [hseq] at hp ⊢
      exact hp.eq_nil
    rw [hresult, storeAll_sequence hs]
    show (l.heap.setTable t T).table t = T
    rw [← hT, Heap.setTable_self]
  · have ht : t.index < l.heap.tables.size :=
      Heap.lt_of_length_pos (by rw [hT]; exact Nat.pos_of_ne_zero hlen)
    show (l.heap.tables.setIfInBounds t.index _).getD t.index default = _
    rw [Array.getD_eq_getD_getElem?, Array.getElem?_setIfInBounds_self_of_lt ht]
    rfl

variable (hT : m.heap.table t = T) (hargs : SortArguments t by' vs)
  (hkeep : Spares (comparison by') t T (sorted question T.sequence) m)
include hT hargs hkeep

theorem performs_sort :
    Performs Job.body (sort vs) m q n ↔ SortEnds (comparison by') t T m q n := by
  rw [sort_eq hargs]
  show Performs Job.body (if (m.heap.table t).array.toList.length ≤ 1 then _ else _) m q n ↔ _
  rw [hT, ← hs.sequence_eq]
  by_cases hlen : T.sequence.length ≤ 1
  · -- nothing is stored, and the values are in order as they are
    have hshort : sorted question T.sequence = .done T.sequence := sorted_short hlen
    have hsame : m.setTable t (storeAll T T.sequence) = m := by
      unfold setTable
      rw [storeAll_sequence hs, ← hT, Heap.setTable_self]
    rw [if_pos hlen]
    constructor
    · rintro ⟨rfl, rfl⟩
      have hend : SortEnds (comparison by') t T n (.ok []) (n.setTable t (storeAll T T.sequence)) :=
        .stored (by rw [hshort]; exact .here) .nil
      rw [hsame] at hend
      exact hend
    · intro hend
      cases hend with
      | stored hd hc =>
        rw [hshort] at hd
        cases hd
        cases hc
        exact ⟨rfl, hsame⟩
      | failed ha _ _ =>
        obtain ⟨k, hd⟩ := ha
        rw [hshort] at hd
        cases hd
  · have hpos : 0 < T.length := by
      rw [length_sequence] at hlen
      omega
    have hstore : ∀ {cs result l}, (sorted question T.sequence).Reaches cs (.done result) →
        Compares (comparison by') m cs l → _ :=
      fun {cs result l} hd hc => gives_store (hkeep.compares hd hc hT) hpos result
    rw [if_neg hlen, ← interpret_sorted, performs_bind]
    constructor
    · rintro (⟨result, l, hp, hw⟩ | ⟨e, hp, rfl⟩)
      · rcases performs_interpret.mp hp with ⟨cs, _, hd, hc, e⟩ | ⟨_, _, _, _, _, _, _, _, e⟩
        · cases e
          obtain ⟨rfl, rfl⟩ := (hstore hd hc _ _).mp hw
          exact .stored hd hc
        · cases e
      · rcases performs_interpret.mp hp with ⟨_, _, _, _, e⟩ | ⟨cs, x, y, l, e', ha, hc, he, e⟩
        · cases e
        · cases e
          exact .failed ha hc he
    · intro hend
      cases hend with
      | @stored cs l result hd hc =>
        exact .inl ⟨result, l, performs_interpret.mpr (.inl ⟨cs, result, hd, hc, rfl⟩),
          (hstore hd hc _ _).mpr ⟨rfl, rfl⟩⟩
      | @failed cs l n x y e ha hc he =>
        exact .inr ⟨e, performs_interpret.mpr (.inr ⟨cs, x, y, l, e, ha, hc, he, rfl⟩), rfl⟩

end

theorem SortEnds.callReply_eq {by' : Option FunctionId} {r : Reply} (h : m.Valid)
    (he : SortEnds (comparison by') t T m r n) : callReply r = r := by
  cases he with
  | stored _ _ => rfl
  | @failed cs l n x y e _ hc hp =>
    cases e with
    | left us => exact absurd hp ((hc.valid h).stays_comparison by' x y us n)
    | _ => rfl

section
variable {s : FunctionId} {by' : Option FunctionId} {vs : List Value} {r : Reply}

/-- **A call of the library function does what a sort does.** -/
theorem Valid.replies_iff_sortEnds (h : m.Valid) (hroom : m.current.depth < Strand.maxDepth)
    (hsort : m.heap.function s = .builtin .sort) (hT : m.heap.table t = T) (hs : Solid T.array)
    (hargs : SortArguments t by' vs)
    (hkeep : Spares (comparison by') t T (sorted question T.sequence) m.calling) :
    Replies Job.body m (.function s vs) r m' ↔
      ∃ n, SortEnds (comparison by') t T m.calling r n ∧ m' = { n with current := m.current } := by
  have hcall := h.calling hroom
  have hsorts := fun q n => performs_sort (q := q) (n := n) hs (m := m.calling) hT hargs hkeep
  rw [h.replies_iff_performs hroom, hsort]
  constructor
  · rintro ⟨q, n, hp, rfl, rfl⟩
    have he := (hsorts q n).mp hp
    rw [he.callReply_eq hcall]
    exact ⟨n, he, rfl⟩
  · rintro ⟨n, he, rfl⟩
    exact ⟨r, n, (hsorts r n).mpr he, (he.callReply_eq hcall).symm, rfl⟩

end

/-! ## every table and every comparison -/

section
variable {heap : Heap} {first now : Action Turn} {P : Edit → Prop} {s : FunctionId}
  {by' : Option FunctionId} {vs : List Value}

/-- **Sorting is stable, and all or nothing.**  Let the comparisons leave the table as it is.  Then a
sort ends, unless a comparison does not.  If all comparisons answer, only the order of the values up
to the border is another one, whatever the answers are; if they answer by a strict weak order, no
value is less than one before it, and equivalent values stand as they stood.  If a comparison fails,
the sort fails as it does, and the table is what it was. -/
theorem sort_stable_atomic (hr : Run Job.body (initial heap, first) (m, now))
    (hroom : m.current.depth < Strand.maxDepth) (hsort : m.heap.function s = .builtin .sort)
    (hT : m.heap.table t = T) (hmade : T.Made P) (hargs : SortArguments t by' vs)
    (hkeep : Spares (comparison by') t T (sorted question T.sequence) m.calling) :
    ((∃ r m', Replies Job.body m (.function s vs) r m') ∨
      ∃ cs x y l, (sorted question T.sequence).Asks cs x y ∧
        Compares (comparison by') m.calling cs l ∧
        ∀ q n, ¬ Performs Job.body (comparison by' x y) l q n) ∧
    (∀ r m', Replies Job.body m (.function s vs) r m' →
      (∃ cs l T', (∀ c ∈ cs, Among T.sequence c.left c.right) ∧
        Compares (comparison by') m.calling cs l ∧ r = .ok [] ∧
        m' = { l.setTable t T' with current := m.current } ∧ m'.heap.table t = T' ∧
        Rearranged T T' ∧
        ∀ lt : Value → Value → Bool, StrictWeakOn (fun a b => lt a b = true) T.sequence →
          (∀ c ∈ cs, c.answer = lt c.left c.right) →
          T'.sequence.Pairwise (fun a b => lt b a = false) ∧
          ∀ v ∈ T.sequence, T'.sequence.filter (equivalent lt v)
            = T.sequence.filter (equivalent lt v)) ∨
      ∃ cs x y l e n, (sorted question T.sequence).Asks cs x y ∧
        Compares (comparison by') m.calling cs l ∧
        Performs Job.body (comparison by' x y) l (.error e) n ∧ r = .error e ∧
        m' = { n with current := m.current } ∧ m'.heap.table t = T) ∧
    ∀ cs x y l e n, (sorted question T.sequence).Asks cs x y →
      Compares (comparison by') m.calling cs l →
      Performs Job.body (comparison by' x y) l (.error e) n →
      Replies Job.body m (.function s vs) (.error e) { n with current := m.current } := by
  have h : m.Valid := (valid_initial heap).run hr
  have hs := hmade.solid
  have hreplies : ∀ r m', Replies Job.body m (.function s vs) r m' ↔ _ :=
    fun r m' => h.replies_iff_sortEnds hroom hsort hT hs hargs hkeep
  refine ⟨?_, fun r m' hrep => ?_, fun cs x y l e n ha hc he => ?_⟩
  · rcases performs_or_endless (comparison by') (sorted question T.sequence) m.calling with
      ⟨q, n, hp⟩ | hendless
    · left
      rcases performs_interpret.mp hp with ⟨cs, b, hd, hc, _⟩ | ⟨cs, x, y, l, e, ha, hc, he, _⟩
      · exact ⟨_, _, (hreplies _ _).mpr ⟨_, .stored hd hc, rfl⟩⟩
      · exact ⟨_, _, (hreplies _ _).mpr ⟨_, .failed ha hc he, rfl⟩⟩
    · exact .inr hendless
  · obtain ⟨n, hend, rfl⟩ := (hreplies r m').mp hrep
    cases hend with
    | @stored cs l result hd hc =>
      have hp := perm_of_reaches hd
      obtain ⟨hrearranged, hseq⟩ := rearranged_storeAll hs hp
      refine .inl ⟨cs, l, _, ((sorted_all _).reaches hd).2, hc, rfl, rfl,
        table_stored hs hp (hkeep.compares hd hc hT), hrearranged, fun lt hlt hanswers => ?_⟩
      -- the leaf that was reached is the one that the order leads to
      have hleaf : result = (sorted question T.sequence).eval lt := hd.eval_eq hanswers
      rw [hseq, hleaf]
      exact ⟨pairwise_eval_sorted hlt, fun v hv => filter_eval_sorted hlt hv⟩
    | @failed cs l n x y e ha hc he =>
      exact .inr ⟨cs, x, y, l, e, n, ha, hc, he, rfl, rfl, hkeep cs x y l _ n ha hc he⟩
  · exact (hreplies _ _).mpr ⟨n, .failed ha hc he, rfl⟩

end

/-! ## comparisons that change nothing -/

/-- Comparisons that change nothing answer as each of them does at the start. -/
theorem Compares.of_gives {xs : List Value} {f : Value → Value → Except Exit Bool}
    (hg : ∀ x ∈ xs, ∀ y ∈ xs, Gives Job.body (less x y) m (f x y) m)
    (hcs : ∀ c ∈ cs, Among xs c.left c.right) (hc : Compares less m cs l) :
    l = m ∧ ∀ c ∈ cs, f c.left c.right = .ok c.answer := by
  induction hc with
  | nil => exact ⟨rfl, fun c hc => absurd hc List.not_mem_nil⟩
  | @cons m n m' x y r cs hp hc ih =>
    obtain ⟨hx, hy⟩ := hcs _ List.mem_cons_self
    obtain ⟨hr, rfl⟩ := (hg x hx y hy _ _).mp hp
    obtain ⟨hl, hrest⟩ := ih hg fun c hc => hcs c (List.mem_cons_of_mem _ hc)
    refine ⟨hl, fun c hc => ?_⟩
    rcases List.mem_cons.mp hc with rfl | hc
    · exact hr.symm
    · exact hrest c hc

theorem Compares.gives_asked {xs : List Value} {f : Value → Value → Except Exit Bool}
    (hg : ∀ x ∈ xs, ∀ y ∈ xs, Gives Job.body (less x y) m (f x y) m) {x y : Value}
    (ha : (sorted question xs).Asks cs x y) (hc : Compares less m cs l) :
    Gives Job.body (less x y) l (f x y) m := by
  obtain ⟨k, hd⟩ := ha
  obtain ⟨hasked, hcs⟩ := (sorted_all xs).reaches hd
  obtain ⟨rfl, _⟩ := hc.of_gives hg hcs
  exact hg x hasked.1.1 y hasked.1.2

theorem spares_of_gives {xs : List Value} {f : Value → Value → Except Exit Bool}
    (hg : ∀ x ∈ xs, ∀ y ∈ xs, Gives Job.body (less x y) m (f x y) m) (hT : m.heap.table t = T) :
    Spares less t T (sorted question xs) m := by
  intro cs x y l q n ha hc hp
  obtain ⟨_, rfl⟩ := (hc.gives_asked hg ha _ _).mp hp
  exact hT

theorem gives_less {a b : Value} (h : (a.order? b).isSome = true) :
    Gives Job.body (comparison none a b) m (.ok (a.isLess b)) m := by
  obtain ⟨o, ho⟩ := Option.isSome_iff_exists.mp h
  have hless : comparison none a b = .done o.isLess := by
    show Action.less a b = _
    unfold Action.less
    rw [ho]
    rfl
  intro q n
  rw [hless, Value.isLess, ho]
  exact Iff.rfl

/-- Two, and then the number one as a float and as an integer. -/
def numbers : Table := ofList [.integer 2, .float ⟨0x3ff0000000000000⟩, .integer 1]

/-- A number and a string, which have no order. -/
def mixed : Table := ofList [.integer 1, .text "one"]

def numbersHeap : Heap :=
  { tables := #[numbers, mixed], functions := #[.builtin .sort], shared := [], locals := #[],
    log := [] }

def numbersMachine : Machine := initial numbersHeap

theorem numbers_sequence :
    numbers.sequence = [.integer 2, .float ⟨0x3ff0000000000000⟩, .integer 1] := by
  decide +kernel

theorem mixed_sequence : mixed.sequence = [.integer 1, .text "one"] := by decide +kernel

theorem numbers_ordered : ∀ a ∈ numbers.sequence, ∀ b ∈ numbers.sequence,
    (a.order? b).isSome = true := by
  rw [numbers_sequence]
  decide +kernel

theorem strictWeakOn_numbers :
    StrictWeakOn (fun a b => a.isLess b = true) numbers.sequence := by
  rw [numbers_sequence]
  exact ⟨by decide +kernel, by decide +kernel, by decide +kernel⟩

theorem gives_numbers : ∀ x ∈ numbers.sequence, ∀ y ∈ numbers.sequence,
    Gives Job.body (comparison none x y) numbersMachine.calling (.ok (x.isLess y))
      numbersMachine.calling :=
  fun x hx y hy => gives_less (numbers_ordered x hx y hy)

theorem gives_mixed : ∀ x ∈ mixed.sequence, ∀ y ∈ mixed.sequence,
    Gives Job.body (comparison none x y) numbersMachine.calling
      (if (x.order? y).isSome = true then .ok (x.isLess y)
        else .error (.failed (.operands .compare x.ty y.ty))) numbersMachine.calling := by
  rw [mixed_sequence]
  intro x hx y hy
  by_cases ho : (x.order? y).isSome = true
  · rw [if_pos ho]
    exact gives_less ho
  · rw [if_neg ho]
    simp only [List.mem_cons, List.not_mem_nil, or_false] at hx hy
    rcases hx with rfl | rfl <;> rcases hy with rfl | rfl
    · exact absurd (by decide) ho
    · exact fun _ _ => Iff.rfl
    · exact fun _ _ => Iff.rfl
    · exact absurd (by decide) ho

theorem sorted_pair_asks (a b : Value) : (sorted question [a, b]).Asks [] b a := by
  rw [sorted_eq]
  show Decision.Asks (((mergeOnto question [] [a] [b]).bind _).bind _) [] b a
  rw [mergeOnto]
  exact ⟨_, .here⟩

/-- The numbers come out in order, the float before the integer that it equals.  The sort of the
number and the string fails, and they stay as they are. -/
theorem sort_stable_atomic_numbers :
    (∃ m', Replies Job.body numbersMachine (.function ⟨0⟩ [.table ⟨0⟩]) (.ok []) m' ∧
      (m'.heap.table ⟨0⟩).sequence.Pairwise (fun a b => b.isLess a = false) ∧
      (m'.heap.table ⟨0⟩).sequence.filter (equivalent Value.isLess (.integer 1))
        = [.float ⟨0x3ff0000000000000⟩, .integer 1]) ∧
    ∃ m', Replies Job.body numbersMachine (.function ⟨0⟩ [.table ⟨1⟩, .nil])
        (.error (.failed (.operands .compare .string .number))) m' ∧
      m'.heap.table ⟨1⟩ = mixed := by
  have hr : Run Job.body (initial numbersHeap, answer (.ok [])) (numbersMachine, answer (.ok [])) :=
    .refl
  have hmade : ∀ vs, (ofList vs).Made Edit.Plain := .ofList
  constructor
  · obtain ⟨hends, hcases, -⟩ := sort_stable_atomic hr (by decide) (s := ⟨0⟩) rfl (t := ⟨0⟩) rfl
      (hmade _) .table (spares_of_gives gives_numbers rfl)
    rcases hends with ⟨r, m', hrep⟩ | ⟨cs, x, y, l, ha, hc, hnone⟩
    · rcases hcases r m' hrep with
        ⟨cs, l, T', hcs, hc, rfl, _, rfl, _, hsorted⟩ | ⟨cs, x, y, l, e, n, ha, hc, he, _⟩
      · have hanswers := (hc.of_gives gives_numbers hcs).2
        obtain ⟨hpair, hfilter⟩ := hsorted Value.isLess strictWeakOn_numbers
          fun c hm => (Except.ok.inj (hanswers c hm)).symm
        refine ⟨m', hrep, hpair, (hfilter (.integer 1) (by decide +kernel)).trans ?_⟩
        decide +kernel
      · cases ((hc.gives_asked gives_numbers ha _ _).mp he).1
    · exact absurd ((hc.gives_asked gives_numbers ha _ _).mpr ⟨rfl, rfl⟩) (hnone _ _)
  · obtain ⟨-, hcases, hfails⟩ := sort_stable_atomic hr (by decide) (s := ⟨0⟩) rfl (t := ⟨1⟩) rfl
      (hmade _) (.omitted []) (spares_of_gives gives_mixed rfl)
    have hasks : (sorted question mixed.sequence).Asks [] (.text "one") (.integer 1) := by
      rw [mixed_sequence]
      exact sorted_pair_asks _ _
    have hrep := hfails [] _ _ _ (.failed (.operands .compare .string .number)) _ hasks .nil
      ((gives_mixed _ (by decide +kernel) _ (by decide +kernel) _ _).mpr ⟨rfl, rfl⟩)
    rcases hcases _ _ hrep with ⟨_, _, _, _, _, e, _⟩ | ⟨_, _, _, _, _, _, _, _, _, _, _, htable⟩
    · cases e
    · exact ⟨_, hrep, htable⟩

end Machine

end LuaMachine
