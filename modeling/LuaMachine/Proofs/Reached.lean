import LuaMachine.Proofs.Histories
import LuaMachine.Proofs.Registry

/-!
# The arenas that can be reached

Tables are made and edited, handles are taken and dropped, metatables are set, and rings are swept.
What holds of every arena that this leads to, whatever the keys and values are and however many:

* `Table.Lasting`     a property that lasts through the changes an edit is made of;
* `Arena.Reached`     what any number of such steps leads to;
* `Arena.Dwindles`    some tables have been emptied or have gone;
* `Arena.Tidy`        each table is listed once, and its index holds no handle that its nodes do not.

Together with `Arena.Covers` this is what a sweep relies on.
-/

namespace LuaMachine

/-! ## the index of a hash part -/

namespace HashPart

variable {h : HashPart} {nodes : Array Node}

/-- What an index is built from is in the list, and has the position it is given. -/
theorem foldl_record_sound {P : Value → Nat → Prop} (ns : List Node) :
    ∀ (s : Nat) (ix : Std.HashMap Value Nat), (∀ k i, ix[k]? = some i → P k i) →
      (∀ j n, ns[j]? = some n → P n.key (s + j)) →
      ∀ k i, ((ns.zipIdx s).foldl (fun ix p => record ix p.1 p.2) ix)[k]? = some i → P k i := by
  induction ns with
  | nil => exact fun s ix hix _ => hix
  | cons n ns ih =>
    intro s ix hix hns
    rw [List.zipIdx_cons, List.foldl_cons]
    refine ih (s + 1) _ (fun k i hki => ?_) fun j m hm => ?_
    · unfold record at hki
      split at hki
      · exact hix k i hki
      · rw [Std.HashMap.getElem?_insert] at hki
        split at hki
        · rename_i hk
          obtain rfl := beq_iff_eq.mp hk
          obtain rfl := Option.some.inj hki
          exact hns 0 n rfl
        · exact hix k i hki
    · rw [Nat.add_assoc, Nat.add_comm 1 j]
      exact hns (j + 1) m hm

theorem indexOf_sound {k : Value} {i : Nat} (h : (indexOf nodes)[k]? = some i) :
    (nodes[i]?).map Node.key = some k := by
  refine foldl_record_sound (P := fun k i => (nodes[i]?).map Node.key = some k) nodes.toList 0 {}
    (fun k i hki => ?_) (fun j n hn => ?_) k i h
  · rw [Std.HashMap.getElem?_empty] at hki
    cases hki
  · rw [Nat.zero_add, ← Array.getElem?_toList, hn]
    rfl

theorem pointsBack_empty (capacity : Nat) : (empty capacity).PointsBack := by
  intro ix hix k i hki
  change (if smallLimit < capacity then some {} else none) = some ix at hix
  split at hix
  · obtain rfl := Option.some.inj hix
    rw [Std.HashMap.getElem?_empty] at hki
    cases hki
  · cases hix

namespace PointsBack

theorem compact (h : HashPart) : h.compact.PointsBack := by
  intro ix hix k i hki
  obtain ⟨_, _, rfl⟩ := Option.map_eq_some_iff.mp hix
  exact indexOf_sound hki

theorem append (hp : h.PointsBack) (key value : Value) : (h.append key value).PointsBack := by
  obtain ⟨nodes, live, index⟩ := h
  intro ix hix k i hki
  cases index with
  | none =>
    obtain rfl := firstIndex_eq_some hix
    exact indexOf_sound hki
  | some old =>
    obtain rfl := Option.some.inj hix
    show ((nodes.push ⟨key, value⟩)[i]?).map Node.key = some k
    rw [Std.HashMap.getElem?_insert] at hki
    split at hki
    · rename_i hk
      obtain rfl := Option.some.inj hki
      rw [Array.getElem?_push_size, ← beq_iff_eq.mp hk]
      rfl
    · obtain ⟨n, hn, hkey⟩ := Option.map_eq_some_iff.mp (hp old rfl k i hki)
      have hlt : i < nodes.size := (Array.getElem?_eq_some_iff.mp hn).1
      rw [Array.getElem?_push_lt hlt, ← Array.getElem?_eq_getElem hlt]
      exact hp old rfl k i hki

theorem replace (hp : h.PointsBack) (i : Nat) (value : Value) : (h.replace i value).PointsBack := by
  obtain ⟨nodes, live, index⟩ := h
  intro ix hix k j hkj
  have hkey := hp ix hix k j hkj
  show ((nodes.modify i ({ · with value }))[j]?).map Node.key = some k
  rw [Array.getElem?_modify]
  split
  · rw [Option.map_map]
    exact hkey
  · exact hkey

theorem set (hp : h.PointsBack) (key value : Value) : (h.set key value).PointsBack := by
  unfold HashPart.set
  split
  · exact hp.replace _ value
  · split
    · exact hp
    · split
      · exact (compact h).append key value
      · exact hp.append key value

theorem prependRun (hp : h.PointsBack) (first : Nat) (values : List Value) :
    (h.prependRun first values).PointsBack := by
  unfold HashPart.prependRun
  split
  · exact hp
  · intro ix hix k i hki
    dsimp only at hix
    have he : ix = indexOf ((Node.run first values).toArray ++ h.nodes) := by
      split at hix
      · exact (Option.some.inj hix).symm
      · exact firstIndex_eq_some hix
    subst he
    exact indexOf_sound hki

/-- The node that loses its key is the one that the index had for it. -/
theorem take (hp : h.PointsBack) (key : Value) : (h.take key).2.PointsBack := by
  obtain ⟨nodes, live, index⟩ := h
  unfold HashPart.take
  cases hpos : position? ⟨nodes, live, index⟩ key with
  | none => exact hp
  | some i =>
    intro ix hix k j hkj
    obtain ⟨old, hold, rfl⟩ := Option.map_eq_some_iff.mp hix
    rw [Std.HashMap.getElem?_erase] at hkj
    split at hkj
    · cases hkj
    · rename_i hne
      have hj := hp old hold k j hkj
      have hi : (nodes[i]?).map Node.key = some key := by
        refine hp old hold key i ?_
        change index = some old at hold
        rw [hold] at hpos
        exact hpos
      have hij : i ≠ j := by
        rintro rfl
        exact hne (beq_iff_eq.mpr (Option.some.inj (hi.symm.trans hj)))
      show ((nodes.setIfInBounds i ⟨.nil, .nil⟩)[j]?).map Node.key = some k
      rw [Array.getElem?_setIfInBounds_ne hij]
      exact hj

end PointsBack

end HashPart

/-! ## what edits are made of -/

namespace Table

variable {Q : Table → Prop} {t : Table}

/-- A property that lasts through every change of the array part, and through storing, running in and
taking out entries of the hash part. -/
structure Lasting (Q : Table → Prop) : Prop where
  array : ∀ (t : Table) (array : Array Value), Q t → Q { t with array }
  set : ∀ (t : Table) (k v : Value), Q t → Q { t with hash := t.hash.set k v }
  run : ∀ (t : Table) (first : Nat) (vs : List Value), Q t →
    Q { t with hash := t.hash.prependRun first vs }
  take : ∀ (t : Table) (k : Value), Q t → Q { t with hash := (t.hash.take k).2 }

namespace Lasting

theorem absorbRun (h : Lasting Q) (metatable : Option TableId) (fuel : Nat) :
    ∀ (array : Array Value) (hash : HashPart), Q ⟨array, hash, metatable⟩ →
      Q ⟨(absorbRun fuel array hash).1, (absorbRun fuel array hash).2, metatable⟩ := by
  induction fuel with
  | zero => exact fun _ _ ht => ht
  | succ fuel ih =>
    intro array hash ht
    have htaken := h.take _ (Value.count (array.size + 1)) ht
    unfold Table.absorbRun
    split
    · dsimp only
      split
      · exact htaken
      · exact ih _ _ (h.array _ (array.push _) htaken)
    · exact ht

theorem absorb (h : Lasting Q) (ht : Q t) : Q t.absorb := by
  obtain ⟨array, hash, metatable⟩ := t
  by_cases he : hash.nodes.isEmpty = true
  · rw [absorb_empty he]
    exact ht
  · rw [absorb_nodes rfl he]
    exact h.absorbRun metatable _ _ _ (h.take _ (Value.count array.size) ht)

theorem setInt (h : Lasting Q) (ht : Q t) (k : Int64) (v : Value) : Q (t.setInt k v) := by
  rcases setInt_cases t k v with ⟨i, _, _, e⟩ | ⟨i, _, _, e⟩ | ⟨_, _, e⟩ | ⟨_, _, e⟩
  · rw [e]
    exact h.array t _ ht
  · rw [e]
    exact h.run _ (i + 2) (t.array.toList.drop (i + 1)) (h.array t (t.array.extract 0 i) ht)
  · rw [e]
    exact h.absorb (h.array t _ ht)
  · rw [e]
    exact h.set t _ v ht

theorem setKey (h : Lasting Q) (ht : Q t) (k v : Value) : Q (t.setKey k v) := by
  cases k with
  | integer n => exact h.setInt ht n v
  | _ => exact h.set t _ v ht

theorem shiftUp (h : Lasting Q) (p count : Nat) : ∀ t : Table, Q t → Q (t.shiftUp p count) := by
  induction count with
  | zero => exact fun _ ht => ht
  | succ count ih => exact fun t ht => ih _ (h.setInt ht _ _)

theorem rawSet (h : Lasting Q) (ht : Q t) {k v : Value} {t' : Table} (e : t.rawSet k v = .ok t') :
    Q t' := by
  unfold Table.rawSet at e
  split at e
  · obtain rfl := Except.ok.inj e
    exact h.setKey ht _ v
  · cases e

theorem edit (h : Lasting Q) (ht : Q t) (e : Edit) : Q (t.edit e) := by
  cases e with
  | set key value =>
    show Q ((t.rawSet key value).toOption.getD t)
    cases hset : t.rawSet key value with
    | error _ => exact ht
    | ok t' => exact h.rawSet ht hset
  | setInt key value => exact h.setInt ht key value
  | setName name value => exact h.setKey ht (.text name) value
  | push value => exact h.setInt ht _ value
  | insert position value =>
    show Q (if t.hasRoomAt position then t.insertAt position value else t)
    split
    · unfold insertAt
      dsimp only
      split
      · exact h.setInt (h.shiftUp _ _ t ht) position .nil
      · exact h.absorb (h.array t _ ht)
    · exact ht
  | remove position =>
    show Q (t.removeAt position)
    unfold removeAt
    split
    · exact h.array t _ ht
    · exact ht

theorem ofList (h : Lasting Q) (ht : Q (empty 0)) (vs : List Value) : Q (ofList vs) :=
  ofList_induction ht (fun _ k v ht => h.setInt ht k v) vs

end Lasting

theorem lasting_pointsBack : Lasting fun t => t.hash.PointsBack where
  array _ _ ht := ht
  set _ k v ht := ht.set k v
  run _ first vs ht := ht.prependRun first vs
  take _ k ht := ht.take k

theorem lasting_metatable (mt : Option TableId) : Lasting fun t => t.metatable = mt where
  array _ _ ht := ht
  set _ _ _ ht := ht
  run _ _ _ ht := ht
  take _ _ ht := ht

theorem pointsBack_empty (capacity : Nat) : (empty capacity).hash.PointsBack :=
  HashPart.pointsBack_empty capacity

end Table

/-! ## arenas -/

namespace Arena

variable {a b c : Arena} {t u : TableId} {v : Table} {roots : List TableId}

def add (a : Arena) (v : Table) : Arena :=
  { a with
    tables := (⟨a.made⟩, v) :: a.tables
    made := a.made + 1
    outside := ⟨a.made⟩ :: a.outside }

def edit (a : Arena) (t : TableId) (e : Table.Edit) : Arena :=
  (a.setTable t ((a.table t).edit e)).settle (a.table t).references

inductive Reached : Arena → Prop
  | empty : Reached empty
  | add {a : Arena} (capacity : Nat) : Reached a → Reached (a.add (Table.empty capacity))
  | addList {a : Arena} (vs : List Value) : Reached a → Reached (a.add (Table.ofList vs))
  | edit {a : Arena} (t : TableId) (e : Table.Edit) : Reached a → Reached (a.edit t e)
  | act {a : Arena} (e : Event) : Reached a → Reached (a.act e)

theorem Reached.foldl_act (h : Reached a) (es : List Event) : Reached (es.foldl Arena.act a) := by
  induction es generalizing a with
  | nil => exact h
  | cons e es ih => exact ih (h.act e)

/-! ## tables that go -/

/-- Some tables have been emptied or have gone, and all others are as they were. -/
structure Dwindles (a b : Arena) : Prop where
  ids : b.ids.Sublist a.ids
  made : b.made = a.made
  shrinks : a.Shrinks b

namespace Dwindles

theorem refl (a : Arena) : a.Dwindles a := ⟨.refl _, rfl, .refl a⟩

theorem trans (h : a.Dwindles b) (h' : b.Dwindles c) : a.Dwindles c :=
  ⟨h'.ids.trans h.ids, h'.made.trans h.made, h.shrinks.trans h'.shrinks⟩

theorem settle (a : Arena) (ts : List TableId) : a.Dwindles (a.settle ts) := by
  have hmade : ∀ fuel ts a, (reclaim fuel ts a).made = a.made := by
    intro fuel ts a
    fun_induction reclaim fuel ts a with
    | case1 => rfl
    | case2 => rfl
    | case3 a fuel t ts _ ih => exact ih
    | case4 a fuel t ts _ ih => exact ih
  have hr := reclaimed_settle a ts
  refine ⟨hr.tables.map Prod.fst, ?_, hr.shrinks⟩
  unfold Arena.settle
  split
  · rfl
  · exact hmade _ ts a

theorem drop (a : Arena) (t : TableId) : a.Dwindles (a.drop t) := by
  have h := settle { a with outside := a.outside.erase t } [t]
  exact ⟨h.ids, h.made, h.shrinks⟩

theorem drops (garbage : List TableId) : ∀ a : Arena, a.Dwindles (garbage.foldl Arena.drop a) := by
  induction garbage with
  | nil => exact refl
  | cons g garbage ih => exact fun a => (drop a g).trans (ih (a.drop g))

theorem drain (a : Arena) (ts : List TableId) : a.Dwindles (a.drain ts) := by
  have hmade : ∀ (ts : List TableId) (a : Arena),
      (ts.foldl (fun a m => a.setTable m (Table.empty 0)) a).made = a.made := by
    intro ts
    induction ts with
    | nil => exact fun _ => rfl
    | cons m ts ih => exact fun a => ih _
  refine ⟨?_, hmade ts a, shrinks_drain a ts⟩
  rw [ids_drain]

theorem sweepRoot (s : Sweeping) (root : TableId) :
    s.arena.Dwindles (Arena.sweepRoot s root).arena := by
  rcases sweepRoot_cases s root with ⟨e, -⟩ | ⟨e, -⟩ | ⟨ts, -, -, e⟩
  · rw [e]
    exact refl _
  · rw [e]
    exact refl _
  · rw [e]
    exact drain s.arena ts

theorem sweepOver (a : Arena) (roots : List TableId) : a.Dwindles (a.sweepOver roots).arena := by
  induction roots using List.reverseRecOn with
  | nil => exact refl a
  | append_singleton roots root ih =>
    rw [sweepOver_append]
    exact ih.trans (sweepRoot _ root)

theorem collect (a : Arena) : a.Dwindles a.collect.1 := by
  have h := sweepOver a a.roots
  have hafter : a.Dwindles a.afterSweep := ⟨h.ids, h.made, h.shrinks⟩
  exact hafter.trans (drops _ a.afterSweep)

theorem register (a : Arena) (t : TableId) : a.Dwindles (a.register t) := by
  unfold Arena.register
  dsimp only
  split
  · have h := collect { a with roots := a.roots ++ [t] }
    exact ⟨h.ids, h.made, h.shrinks⟩
  · exact ⟨.refl _, rfl, .refl a⟩

end Dwindles

/-! ## tidy arenas -/

/-- Each table is listed once, new tables have numbers of their own, and the index of a table leads
each key to its node. -/
structure Tidy (a : Arena) : Prop where
  distinct : a.Distinct
  made : ∀ t ∈ a.ids, t.index < a.made
  pointsBack : ∀ t, (a.table t).hash.PointsBack

theorem table_add (a : Arena) (v : Table) (u : TableId) :
    (a.add v).table u = if u = ⟨a.made⟩ then v else a.table u := by
  unfold table
  show (List.lookup u ((⟨a.made⟩, v) :: a.tables)).getD (Table.empty 0) = _
  rw [List.lookup_cons]
  by_cases hu : u = ⟨a.made⟩
  · rw [if_pos hu, hu, beq_self_eq_true]
    rfl
  · have he : (u == ⟨a.made⟩) = false := beq_eq_false_iff_ne.mpr hu
    rw [if_neg hu, he]

namespace Tidy

theorem references_subset (h : a.Tidy) (t : TableId) : (a.table t).references ⊆ (a.table t).contents :=
  Table.references_subset (h.pointsBack t)

theorem new_not_mem (h : a.Tidy) : ⟨a.made⟩ ∉ a.ids :=
  fun hm => absurd (h.made _ hm) (Nat.lt_irrefl _)

theorem dwindles (h : a.Tidy) (hd : a.Dwindles b) : b.Tidy where
  distinct := List.Nodup.sublist hd.ids h.distinct
  made t ht := by
    rw [hd.made]
    exact h.made t (hd.ids.subset ht)
  pointsBack t := by
    rcases hd.shrinks t with e | e
    · rw [e]
      exact h.pointsBack t
    · rw [e]
      exact Table.pointsBack_empty 0

theorem setTable (h : a.Tidy) (t : TableId) (hv : v.hash.PointsBack) : (a.setTable t v).Tidy where
  distinct := by
    unfold Distinct
    rw [ids_setTable]
    exact h.distinct
  made u hu := by
    rw [ids_setTable] at hu
    exact h.made u hu
  pointsBack u := by
    rw [table_setTable]
    split
    · exact hv
    · exact h.pointsBack u

theorem add (h : a.Tidy) (hv : v.hash.PointsBack) : (a.add v).Tidy where
  distinct := List.nodup_cons.mpr ⟨h.new_not_mem, h.distinct⟩
  made u hu := by
    rcases List.mem_cons.mp hu with rfl | hu
    · exact Nat.lt_succ_self a.made
    · exact Nat.lt_succ_of_lt (h.made u hu)
  pointsBack u := by
    rw [table_add]
    split
    · exact hv
    · exact h.pointsBack u

theorem edit (h : a.Tidy) (t : TableId) (e : Table.Edit) : (a.edit t e).Tidy :=
  (h.setTable t (Table.lasting_pointsBack.edit (h.pointsBack t) e)).dwindles (.settle _ _)

theorem put (h : a.Tidy) (t : TableId) (key value : Value) : (a.put t key value).Tidy := by
  unfold Arena.put
  dsimp only
  cases hset : (a.table t).rawSet key value with
  | error e => exact h
  | ok table =>
    have htable := Table.lasting_pointsBack.rawSet (h.pointsBack t) hset
    exact (h.setTable t htable).dwindles (.settle _ _)

theorem setMetatable (h : a.Tidy) (t : TableId) (mt : Option TableId) :
    (a.setMetatable t mt).Tidy := by
  have hlink : (a.link t mt).Tidy := by
    have hset : (a.setTable t { a.table t with metatable := mt }).Tidy :=
      h.setTable t (h.pointsBack t)
    exact hset.dwindles (.settle _ _)
  unfold Arena.setMetatable
  dsimp only
  split
  · exact hlink.dwindles (.register _ t)
  · exact hlink

theorem act (h : a.Tidy) (e : Event) : (a.act e).Tidy := by
  cases e with
  | create => exact h.add (Table.pointsBack_empty 0)
  | hold t => exact ⟨h.distinct, h.made, h.pointsBack⟩
  | drop t => exact h.dwindles (.drop a t)
  | put t key value => exact h.put t key value
  | setMetatable t mt => exact h.setMetatable t mt
  | collect => exact h.dwindles (.collect a)

end Tidy

theorem tidy_empty : empty.Tidy where
  distinct := List.nodup_nil
  made _ ht := absurd ht List.not_mem_nil
  pointsBack _ := Table.pointsBack_empty 0

/-- **Every arena is tidy**, whatever has happened to it. -/
theorem Reached.tidy (h : Reached a) : a.Tidy := by
  induction h with
  | empty => exact tidy_empty
  | add capacity _ ih => exact ih.add (Table.pointsBack_empty capacity)
  | addList vs _ ih =>
    exact ih.add (Table.lasting_pointsBack.ofList (Table.pointsBack_empty 0) vs)
  | edit t e _ ih => exact ih.edit t e
  | act e _ ih => exact ih.act e

/-! ## roots -/

theorem Covers.add (h : a.Covers a.roots) (ht : a.Tidy) (hv : v.metatable = none) :
    (a.add v).Covers (a.add v).roots := by
  refine h.of_metatables fun u => ?_
  unfold metatable?
  rw [table_add]
  split
  · rename_i hu
    rw [hv, hu, table_of_not_mem ht.new_not_mem]
    rfl
  · rfl

theorem Covers.edit (h : a.Covers a.roots) (t : TableId) (e : Table.Edit) :
    (a.edit t e).Covers (a.edit t e).roots := by
  have hr := reclaimed_settle (a.setTable t ((a.table t).edit e)) (a.table t).references
  have hroots : (a.edit t e).roots = a.roots := hr.roots
  rw [hroots]
  refine Covers.shrinks (h.of_metatables fun u => ?_) hr.shrinks
  unfold metatable?
  rw [table_setTable]
  split
  · rename_i hu
    rw [hu.1]
    exact (Table.lasting_metatable _).edit rfl e
  · rfl

/-- **Every ring has a root**, whatever has happened to the arena. -/
theorem Reached.covers (h : Reached a) : a.Covers a.roots := by
  induction h with
  | empty => exact covers_empty
  | add capacity h ih => exact ih.add h.tidy rfl
  | addList vs h ih => exact ih.add h.tidy ((Table.lasting_metatable none).ofList rfl vs)
  | edit t e _ ih => exact ih.edit t e
  | act e _ ih => exact ih.act e

end Arena

end LuaMachine
