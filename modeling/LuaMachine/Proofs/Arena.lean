import Mathlib.Data.List.Basic
import Mathlib.Data.List.Nodup
import LuaMachine.Arena

/-!
# The tables of an arena

What an arena says about one table after a table was set, discarded or reclaimed.

* `Arena.ids`         the tables that are not reclaimed;
* `Arena.Distinct`    no table is listed twice;
* `Arena.Shrinks`     some tables have been emptied or reclaimed, and all others are as they were;
* `Arena.Reclaimed`   what releasing handles does: only tables that no handle is left to go.
-/

namespace LuaMachine

namespace Arena

variable {a b c : Arena} {t u : TableId} {v : Table}

def ids (a : Arena) : List TableId := a.tables.map Prod.fst

def Distinct (a : Arena) : Prop := a.ids.Nodup

instance (a : Arena) : Decidable a.Distinct := inferInstanceAs (Decidable a.ids.Nodup)

theorem mem_ids_of_mem (h : (t, v) ∈ a.tables) : t ∈ a.ids := List.mem_map_of_mem h

/-! ## one table -/

theorem mem_of_lookup {l : List (TableId × Table)} (h : l.lookup t = some v) : (t, v) ∈ l := by
  obtain ⟨l₁, l₂, rfl, _⟩ := List.lookup_eq_some_iff.mp h
  exact List.mem_append_right _ List.mem_cons_self

theorem lookup_eq_none {l : List (TableId × Table)} :
    l.lookup t = none ↔ t ∉ l.map Prod.fst := by
  rw [List.lookup_eq_none_iff, List.mem_map]
  constructor
  · rintro h ⟨p, hp, rfl⟩
    simpa using h p hp
  · intro h p hp
    simp only [bne_iff_ne]
    rintro rfl
    exact h ⟨p, hp, rfl⟩

theorem table_of_lookup (h : a.tables.lookup t = some v) : a.table t = v := by
  unfold table
  rw [h]
  rfl

theorem table_of_not_mem (h : t ∉ a.ids) : a.table t = Table.empty 0 := by
  unfold table
  rw [lookup_eq_none.mpr h]
  rfl

theorem mem_table (h : t ∈ a.ids) : (t, a.table t) ∈ a.tables := by
  cases hl : a.tables.lookup t with
  | none => exact absurd h (lookup_eq_none.mp hl)
  | some v =>
    rw [table_of_lookup hl]
    exact mem_of_lookup hl

theorem mem_ids_of_metatable (h : a.metatable? t = some u) : t ∈ a.ids := by
  by_contra hn
  unfold metatable? at h
  rw [table_of_not_mem hn] at h
  cases h

theorem mem_ids_of_references (h : u ∈ (a.table t).references) : t ∈ a.ids := by
  by_contra hn
  rw [table_of_not_mem hn] at h
  cases h

theorem Distinct.table_eq (h : a.Distinct) (hv : (t, v) ∈ a.tables) : a.table t = v := by
  have hw := mem_table (mem_ids_of_mem hv)
  exact congrArg Prod.snd (List.inj_on_of_nodup_map h hw hv rfl)

/-! ## changing one table -/

theorem lookup_setTable (l : List (TableId × Table)) :
    (l.map fun (w, old) => (w, if w = t then v else old)).lookup u
      = (l.lookup u).map fun old => if u = t then v else old := by
  induction l with
  | nil => rfl
  | cons p l ih =>
    rw [List.map_cons, List.lookup_cons, List.lookup_cons]
    by_cases hp : u = p.1
    · subst hp
      simp
    · have he : (u == p.1) = false := by simpa using hp
      rw [he]
      exact ih

theorem table_setTable (a : Arena) (t u : TableId) (v : Table) :
    (a.setTable t v).table u = if u = t ∧ t ∈ a.ids then v else a.table u := by
  have hl : (a.setTable t v).tables.lookup u
      = (a.tables.lookup u).map fun old => if u = t then v else old := lookup_setTable a.tables
  unfold table
  rw [hl]
  by_cases hu : u = t
  · subst hu
    cases ha : a.tables.lookup u with
    | none =>
      rw [if_neg fun h => lookup_eq_none.mp ha h.2]
      rfl
    | some old =>
      rw [if_pos ⟨rfl, mem_ids_of_mem (mem_of_lookup ha)⟩]
      simp
  · rw [if_neg fun h => hu h.1]
    simp [hu]

@[simp] theorem ids_setTable (a : Arena) (t : TableId) (v : Table) :
    (a.setTable t v).ids = a.ids := by
  unfold ids setTable
  rw [List.map_map]
  rfl

theorem lookup_discard (l : List (TableId × Table)) :
    (l.filter (·.1 != t)).lookup u = if u = t then none else l.lookup u := by
  induction l with
  | nil => simp
  | cons p l ih =>
    by_cases hp : p.1 = t
    · rw [List.filter_cons_of_neg (by simp [hp]), ih, List.lookup_cons, hp]
      by_cases hu : u = t
      · rw [if_pos hu, if_pos hu]
      · have he : (u == t) = false := by simpa using hu
        rw [he]
    · rw [List.filter_cons_of_pos (by simp [hp]), List.lookup_cons, List.lookup_cons, ih]
      by_cases hu : u = p.1
      · subst hu
        simp [hp]
      · have he : (u == p.1) = false := by simpa using hu
        rw [he]

theorem table_discard (a : Arena) (t u : TableId) :
    (a.discard t).table u = if u = t then Table.empty 0 else a.table u := by
  unfold table discard
  rw [lookup_discard]
  split <;> rfl

/-! ## handles -/

theorem mem_handles : t ∈ a.handles ↔
    t ∈ a.outside ∨ ∃ u v, (u, v) ∈ a.tables ∧ t ∈ v.references := by
  unfold handles stored
  rw [List.mem_append, List.mem_flatMap]
  simp only [Prod.exists]

theorem isAlive_iff : a.isAlive t = true ↔ t ∈ a.handles := by
  rw [mem_handles]
  unfold isAlive
  simp [List.any_eq_true]

/-! ## tables that go -/

/-- Some tables have been emptied or reclaimed, and all others are as they were. -/
def Shrinks (a b : Arena) : Prop := ∀ t, b.table t = a.table t ∨ b.table t = Table.empty 0

theorem Shrinks.refl (a : Arena) : a.Shrinks a := fun _ => .inl rfl

theorem Shrinks.trans (h : a.Shrinks b) (h' : b.Shrinks c) : a.Shrinks c := by
  intro t
  rcases h' t with e | e
  · rw [e]
    exact h t
  · exact .inr e

theorem shrinks_discard (a : Arena) (t : TableId) : a.Shrinks (a.discard t) := by
  intro u
  rw [table_discard]
  split
  · exact .inr rfl
  · exact .inl rfl

/-- What releasing handles does: the tables that stay are as they were, and no handle is left to
those that go. -/
structure Reclaimed (a b : Arena) : Prop where
  outside : b.outside = a.outside
  roots : b.roots = a.roots
  tables : b.tables.Sublist a.tables
  gone : ∀ t v, (t, v) ∈ a.tables → (t, v) ∉ b.tables → t ∉ b.handles
  shrinks : a.Shrinks b

namespace Reclaimed

theorem refl (a : Arena) : a.Reclaimed a :=
  ⟨rfl, rfl, .refl _, fun _ _ h hn => absurd h hn, .refl a⟩

theorem handles_subset (h : a.Reclaimed b) : b.handles ⊆ a.handles := by
  intro t ht
  rw [mem_handles] at ht ⊢
  rcases ht with ht | ⟨u, v, hv, ht⟩
  · rw [h.outside] at ht
    exact .inl ht
  · exact .inr ⟨u, v, h.tables.subset hv, ht⟩

theorem trans (h : a.Reclaimed b) (h' : b.Reclaimed c) : a.Reclaimed c where
  outside := h'.outside.trans h.outside
  roots := h'.roots.trans h.roots
  tables := h'.tables.trans h.tables
  gone := by
    intro t v hv hn
    by_cases hb : (t, v) ∈ b.tables
    · exact h'.gone t v hb hn
    · exact fun hc => h.gone t v hv hb (h'.handles_subset hc)
  shrinks := h.shrinks.trans h'.shrinks

theorem distinct (h : a.Reclaimed b) (hd : a.Distinct) : b.Distinct :=
  hd.sublist (h.tables.map Prod.fst)

end Reclaimed

theorem reclaimed_discard (h : a.isAlive t = false) : a.Reclaimed (a.discard t) where
  outside := rfl
  roots := rfl
  tables := List.filter_sublist
  gone := by
    intro u v hv hn hu
    have hut : u = t := by
      by_contra hne
      exact hn (List.mem_filter.mpr ⟨hv, by simpa using hne⟩)
    have hin : t ∈ a.handles := by
      rw [mem_handles] at hu ⊢
      rw [← hut]
      exact hu.imp id fun ⟨w, x, hx, hr⟩ => ⟨w, x, (List.mem_filter.mp hx).1, hr⟩
    rw [isAlive_iff.mpr hin] at h
    cases h
  shrinks := shrinks_discard a t

theorem reclaimed_reclaim (fuel : Nat) (ts : List TableId) (a : Arena) :
    a.Reclaimed (reclaim fuel ts a) := by
  fun_induction reclaim fuel ts a with
  | case1 => exact .refl _
  | case2 => exact .refl _
  | case3 a fuel t ts halive ih => exact ih
  | case4 a fuel t ts halive ih => exact (reclaimed_discard (by simpa using halive)).trans ih

theorem reclaimed_settle (a : Arena) (ts : List TableId) : a.Reclaimed (a.settle ts) := by
  unfold settle
  split
  · exact .refl a
  · exact reclaimed_reclaim _ _ a

theorem reclaimed_drop (a : Arena) (t : TableId) :
    Reclaimed { a with outside := a.outside.erase t } (a.drop t) := reclaimed_settle _ _

theorem shrinks_drop (a : Arena) (t : TableId) : a.Shrinks (a.drop t) :=
  (reclaimed_drop a t).shrinks

end Arena

end LuaMachine
