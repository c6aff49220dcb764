import Mathlib.Data.List.Perm.Subperm
import LuaMachine.Arena.Sweep
import LuaMachine.Proofs.Reachable
import LuaMachine.Proofs.Ring

/-!
# What a sweep empties

A sweep compares, for each member of a ring, the number of handles stored in the ring with the
number of all handles.  If these agree for all members, no handle to a member is anywhere else.

* `Arena.Enclosed`    all handles to the given tables are stored in these tables;
* `Arena.Reachable`   handles lead to a table from outside all tables;
* `Arena.sweepOver`   a sweep after the given roots;
* `Arena.Swept`       what has become of an arena on the way;
* `Arena.Keeps`       the reachable tables are all there, as they were.

A ring that is enclosed when its turn comes cannot be reached, since nothing that was reachable has
been emptied before.  The handles that emptied tables held are kept to the end of the sweep, so that
a ring which is enclosed at its turn was so from the start.
-/

namespace LuaMachine

/-- The index leads each of its keys to a node with that key. -/
def HashPart.PointsBack (h : HashPart) : Prop :=
  ∀ ix, h.index = some ix → ∀ (k : Value) (i : Nat), ix[k]? = some i →
    (h.nodes[i]?).map Node.key = some k

/-- The handles in the index of a table are handles to keys of its nodes. -/
theorem Table.references_subset {t : Table} (h : t.hash.PointsBack) :
    t.references ⊆ t.contents := by
  intro x hx
  rcases List.mem_append.mp hx with hx | hx
  · exact hx
  · refine List.mem_append_right _ (List.mem_append_right _ ?_)
    unfold HashPart.indexReferences at hx
    cases hix : t.hash.index with
    | none =>
      rw [hix] at hx
      cases hx
    | some ix =>
      rw [hix] at hx
      obtain ⟨k, hk, hkx⟩ := List.mem_filterMap.mp hx
      obtain ⟨i, hi⟩ : ∃ i, ix[k]? = some i :=
        ⟨_, Std.HashMap.getElem?_eq_some_getElem (Std.HashMap.mem_keys.mp hk)⟩
      obtain ⟨n, hn, rfl⟩ := Option.map_eq_some_iff.mp (h ix hix k i hi)
      rw [← Array.getElem?_toList] at hn
      refine List.mem_flatMap.mpr ⟨n, List.mem_of_getElem? hn, List.mem_append_left _ ?_⟩
      exact Option.mem_toList.mpr hkx

theorem Table.WellFormed.references_subset {t : Table} (h : t.WellFormed) :
    t.references ⊆ t.contents :=
  Table.references_subset fun ix hix k i hi => ((h.indexed ix hix k i).mp hi).2

namespace Arena

variable {a b : Arena} {t u root : TableId} {v : Table} {ts : List TableId}

/-- All handles to the given tables are stored in these tables. -/
def Enclosed (a : Arena) (ts : List TableId) : Prop :=
  ∀ t ∈ ts, t ∉ a.outside ∧ ∀ u v, (u, v) ∈ a.tables → t ∈ v.references → u ∈ ts

/-- Handles lead to a table from outside all tables. -/
inductive Reachable (a : Arena) : TableId → Prop
  | outside {t : TableId} (h : t ∈ a.outside) : Reachable a t
  | stored {t u : TableId} (h : Reachable a u) (hr : t ∈ (a.table u).references) : Reachable a t

/-! ## counting handles -/

theorem exists_perm_of_nodup (hn : ts.Nodup) (hs : ts ⊆ a.ids) :
    ∃ rest, a.tables.Perm (ts.map (fun m => (m, a.table m)) ++ rest) := by
  have hn' : (ts.map fun m => (m, a.table m)).Nodup :=
    hn.map fun x y h => (Prod.mk.inj h).1
  have hs' : ts.map (fun m => (m, a.table m)) ⊆ a.tables := by
    intro p hp
    obtain ⟨m, hm, rfl⟩ := List.mem_map.mp hp
    exact mem_table (hs hm)
  obtain ⟨l, hl, hsub⟩ := hn'.subperm hs'
  obtain ⟨rest, hrest⟩ := hsub.exists_perm_append
  exact ⟨rest, hrest.trans (hl.append_right rest)⟩

/-- The handles to a table are those held outside, those in the given tables, and others. -/
theorem count_handles {rest : List (TableId × Table)}
    (hp : a.tables.Perm (ts.map (fun m => (m, a.table m)) ++ rest)) (t : TableId) :
    a.handles.count t
      = a.outside.count t + ((a.inside ts).count t + (rest.flatMap (·.2.references)).count t) := by
  unfold handles stored
  rw [List.count_append, (hp.flatMap_right _).count_eq, List.flatMap_append, List.count_append]
  congr 2
  unfold inside
  rw [List.flatMap_map]

/-- **A ring that is not held is enclosed.** -/
theorem enclosed_of_not_isHeld (hn : ts.Nodup) (hs : ts ⊆ a.ids) (h : a.isHeld ts = false) :
    a.Enclosed ts := by
  obtain ⟨rest, hp⟩ := exists_perm_of_nodup hn hs
  intro t ht
  have hle : a.handles.count t ≤ (a.inside ts).count t := by
    unfold isHeld at h
    dsimp only at h
    rw [List.any_eq_false] at h
    simpa using h t ht
  rw [count_handles hp] at hle
  constructor
  · rw [← List.count_eq_zero]
    omega
  · intro u v hv hr
    rcases List.mem_append.mp (hp.mem_iff.mp hv) with hin | hin
    · obtain ⟨m, hm, he⟩ := List.mem_map.mp hin
      rwa [← (Prod.mk.inj he).1]
    · have hzero : (rest.flatMap (·.2.references)).count t = 0 := by omega
      exact absurd (List.mem_flatMap.mpr ⟨(u, v), hin, hr⟩) (List.count_eq_zero.mp hzero)

/-! ## emptying tables -/

theorem ids_foldl_setTable (ts : List TableId) (v : Table) (a : Arena) :
    (ts.foldl (fun a m => a.setTable m v) a).ids = a.ids := by
  induction ts generalizing a with
  | nil => rfl
  | cons m ts ih => rw [List.foldl_cons, ih, ids_setTable]

theorem table_foldl_setTable (ts : List TableId) (a : Arena) (t : TableId) :
    (ts.foldl (fun a m => a.setTable m (Table.empty 0)) a).table t
      = if t ∈ ts then Table.empty 0 else a.table t := by
  induction ts generalizing a with
  | nil => rfl
  | cons m ts ih =>
    rw [List.foldl_cons, ih, table_setTable]
    by_cases hts : t ∈ ts
    · rw [if_pos hts, if_pos (List.mem_cons_of_mem _ hts)]
    · rw [if_neg hts]
      by_cases hm : t = m
      · subst hm
        rw [if_pos List.mem_cons_self]
        split
        · rfl
        · rename_i hno
          exact table_of_not_mem fun hin => hno ⟨rfl, hin⟩
      · rw [if_neg fun h => hm h.1, if_neg fun h => (List.mem_cons.mp h).elim hm hts]

theorem outside_foldl_setTable (ts : List TableId) (v : Table) (a : Arena) :
    (ts.foldl (fun a m => a.setTable m v) a).outside = a.outside := by
  induction ts generalizing a with
  | nil => rfl
  | cons m ts ih => exact ih _

theorem ids_drain (a : Arena) (ts : List TableId) : (a.drain ts).ids = a.ids :=
  ids_foldl_setTable ts _ a

theorem table_drain (a : Arena) (ts : List TableId) (t : TableId) :
    (a.drain ts).table t = if t ∈ ts then Table.empty 0 else a.table t :=
  table_foldl_setTable ts a t

theorem outside_drain (a : Arena) (ts : List TableId) :
    (a.drain ts).outside = (ts.flatMap fun m => (a.table m).contents) ++ a.outside := by
  unfold drain
  dsimp only
  rw [outside_foldl_setTable]

theorem shrinks_drain (a : Arena) (ts : List TableId) : a.Shrinks (a.drain ts) := by
  intro t
  rw [table_drain]
  split
  · exact .inr rfl
  · exact .inl rfl

/-! ## one root -/

/-- What looking at one root does: nothing, the root not being on a ring or its ring having a root
that is kept; or the root is kept, its ring being held; or its ring, which is not held, is emptied. -/
theorem sweepRoot_cases (s : Sweeping) (root : TableId) :
    (sweepRoot s root = s ∧ ∀ ts, s.arena.ring? root = some ts → ∃ r ∈ s.kept, r ∈ ts) ∨
    (sweepRoot s root = { s with kept := s.kept ++ [root] } ∧
      ∃ ts, s.arena.ring? root = some ts ∧ s.arena.isHeld ts = true) ∨
    ∃ ts, s.arena.ring? root = some ts ∧ s.arena.isHeld ts = false ∧
      sweepRoot s root = { s with
        arena := s.arena.drain ts
        garbage := s.garbage ++ ts.flatMap fun m => (s.arena.table m).contents
        released := s.released + ts.length } := by
  unfold sweepRoot
  cases halive : s.arena.isAlive root with
  | false =>
    refine .inl ⟨rfl, fun ts hts => ?_⟩
    obtain ⟨u, -, hu⟩ :=
      Relation.TransGen.tail'_iff.mp (ring?_isSome.mp (Option.isSome_iff_exists.mpr ⟨ts, hts⟩))
    rw [hu.isAlive] at halive
    cases halive
  | true =>
    rw [if_neg (by simp)]
    cases hring : s.arena.ring? root with
    | none => exact .inl ⟨rfl, nofun⟩
    | some ts =>
      dsimp only
      cases hheld : s.arena.isHeld ts with
      | true =>
        rw [if_pos rfl]
        by_cases hk : s.kept.any ts.contains = true
        · rw [if_pos hk]
          refine .inl ⟨rfl, fun ts' hts' => ?_⟩
          cases hts'
          simpa using hk
        · rw [if_neg hk]
          exact .inr (.inl ⟨rfl, ts, rfl, hheld⟩)
      | false =>
        rw [if_neg (by simp)]
        exact .inr (.inr ⟨ts, rfl, hheld, rfl⟩)

/-! ## all roots -/

def sweepOver (a : Arena) (roots : List TableId) : Sweeping := roots.foldl sweepRoot ⟨a, [], [], 0⟩

theorem sweepOver_append (a : Arena) (roots : List TableId) (root : TableId) :
    a.sweepOver (roots ++ [root]) = sweepRoot (a.sweepOver roots) root := List.foldl_concat ..

/-- What has become of an arena in a sweep: tables were emptied, what they held is garbage, which is
held outside, and no reachable table is among them. -/
structure Swept (a : Arena) (s : Sweeping) : Prop where
  ids : s.arena.ids = a.ids
  outside : s.arena.outside.Perm (s.garbage ++ a.outside)
  emptied : ∀ t, s.arena.table t = a.table t ∨
    s.arena.table t = Table.empty 0 ∧ (a.table t).contents ⊆ s.garbage
  reachable : ∀ t, a.Reachable t → s.arena.table t = a.table t

namespace Swept

variable {s : Sweeping}

theorem shrinks (h : a.Swept s) : a.Shrinks s.arena := fun t => (h.emptied t).imp id And.left

theorem outside_subset (h : a.Swept s) : a.outside ⊆ s.arena.outside := fun _ ht =>
  h.outside.mem_iff.mpr (List.mem_append_right _ ht)

theorem not_mem_of_reachable (h : a.Swept s) (he : s.arena.Enclosed ts) (hr : a.Reachable t) :
    t ∉ ts := by
  -- along the way to the table, the first member would be held by something that is no member
  induction hr with
  | outside ho => exact fun ht => (he _ ht).1 (h.outside_subset ho)
  | @stored t u hu hin ih =>
    intro ht
    have hid : u ∈ s.arena.ids := by
      rw [h.ids]
      exact mem_ids_of_references hin
    have hmem : (u, a.table u) ∈ s.arena.tables := by
      rw [← h.reachable u hu]
      exact mem_table hid
    exact ih ((he t ht).2 u (a.table u) hmem hin)

theorem start (a : Arena) : a.Swept ⟨a, [], [], 0⟩ where
  ids := rfl
  outside := .refl _
  emptied := fun _ => .inl rfl
  reachable := fun _ _ => rfl

theorem drain (h : a.Swept s) (he : s.arena.Enclosed ts) (kept : List TableId) (n : Nat) :
    a.Swept ⟨s.arena.drain ts, s.garbage ++ ts.flatMap fun m => (s.arena.table m).contents,
      kept, n⟩ where
  ids := (ids_drain ..).trans h.ids
  outside := by
    dsimp only
    rw [outside_drain]
    refine (List.Perm.append_left _ h.outside).trans ?_
    rw [← List.append_assoc]
    exact List.perm_append_comm.append_right _
  emptied := by
    intro t
    dsimp only
    rw [table_drain]
    by_cases ht : t ∈ ts
    · rw [if_pos ht]
      right
      refine ⟨rfl, fun x hx => ?_⟩
      rcases h.emptied t with e | ⟨-, hg⟩
      · rw [← e] at hx
        exact List.mem_append_right _ (List.mem_flatMap.mpr ⟨t, ht, hx⟩)
      · exact List.mem_append_left _ (hg hx)
    · rw [if_neg ht]
      exact (h.emptied t).imp id fun ⟨e, hg⟩ => ⟨e, fun x hx => List.mem_append_left _ (hg hx)⟩
  reachable := by
    intro t hr
    dsimp only
    rw [table_drain, if_neg (h.not_mem_of_reachable he hr)]
    exact h.reachable t hr

/-- The members of a ring on the way were its members from the start. -/
theorem enclosed_ring (h : a.Swept s) (hring : s.arena.ring? root = some ts)
    (hheld : s.arena.isHeld ts = false) :
    a.IsRing ts ∧ ts.Nodup ∧ s.arena.Enclosed ts := by
  obtain ⟨hr, hn, -⟩ := ring?_eq_some hring
  exact ⟨h.shrinks.isRing hr, hn, enclosed_of_not_isHeld hn hr.subset_ids hheld⟩

theorem sweepRoot (h : a.Swept s) (root : TableId) : a.Swept (sweepRoot s root) := by
  rcases sweepRoot_cases s root with ⟨e, -⟩ | ⟨e, -⟩ | ⟨ts, hring, hheld, e⟩
  · rw [e]
    exact h
  · rw [e]
    exact ⟨h.ids, h.outside, h.emptied, h.reachable⟩
  · rw [e]
    exact h.drain (h.enclosed_ring hring hheld).2.2 _ _

end Swept

theorem swept_sweepOver (a : Arena) (roots : List TableId) : a.Swept (a.sweepOver roots) := by
  induction roots using List.reverseRecOn with
  | nil => exact .start a
  | append_singleton roots root ih =>
    rw [sweepOver_append]
    exact ih.sweepRoot root

/-- A table that a sweep has emptied lay on a ring that was enclosed when its turn came. -/
theorem enclosed_of_emptied {roots : List TableId}
    (h : (a.sweepOver roots).arena.table t ≠ a.table t) :
    ∃ before root after ts, roots = before ++ root :: after ∧ a.IsRing ts ∧ ts.Nodup ∧ root ∈ ts ∧
      t ∈ ts ∧ (a.sweepOver before).arena.Enclosed ts := by
  induction roots using List.reverseRecOn with
  | nil => exact absurd rfl h
  | append_singleton roots root ih =>
    by_cases hb : (a.sweepOver roots).arena.table t = a.table t
    · have hs := swept_sweepOver a roots
      rw [sweepOver_append] at h
      rcases sweepRoot_cases (a.sweepOver roots) root with
        ⟨e, -⟩ | ⟨e, -⟩ | ⟨ts, hring, hheld, e⟩
      · rw [e] at h
        exact absurd hb h
      · rw [e] at h
        exact absurd hb h
      · obtain ⟨hr, hn, he⟩ := hs.enclosed_ring hring hheld
        rw [e, table_drain] at h
        have ht : t ∈ ts := by
          by_contra hno
          rw [if_neg hno] at h
          exact h hb
        exact ⟨roots, root, [], ts, rfl, hr, hn, (ring?_eq_some hring).2.2, ht, he⟩
    · obtain ⟨before, r, after, ts, rfl, hrest⟩ := ih hb
      exact ⟨before, r, after ++ [root], ts, by simp, hrest⟩

/-- A ring that is enclosed on the way was so from the start: a handle to a member in a table that
has been emptied since would be garbage, which is held outside. -/
theorem Swept.enclosed_start {s : Sweeping} (h : a.Swept s) (hd : a.Distinct)
    (hi : ∀ u v, (u, v) ∈ a.tables → v.references ⊆ v.contents) (he : s.arena.Enclosed ts) :
    a.Enclosed ts := by
  intro t ht
  refine ⟨fun ho => (he t ht).1 (h.outside_subset ho), fun u v hv hr => ?_⟩
  have hid : u ∈ s.arena.ids := by
    rw [h.ids]
    exact mem_ids_of_mem hv
  rcases h.emptied u with e | ⟨-, hg⟩
  · rw [hd.table_eq hv] at e
    exact (he t ht).2 u v (e ▸ mem_table hid) hr
  · rw [hd.table_eq hv] at hg
    have hin : t ∈ s.garbage := hg (hi u v hv hr)
    exact absurd (h.outside.mem_iff.mpr (List.mem_append_left _ hin)) (he t ht).1

/-! ## letting go of the garbage -/

/-- The reachable tables of `a` are all there, as they were, and so are the handles outside. -/
structure Keeps (a b : Arena) : Prop where
  outside : a.outside ⊆ b.outside
  tables : ∀ t v, a.Reachable t → (t, v) ∈ a.tables → (t, v) ∈ b.tables

theorem Keeps.isAlive (h : a.Keeps b) (hr : a.Reachable t) : t ∈ b.handles := by
  rw [mem_handles]
  cases hr with
  | outside ho => exact .inl (h.outside ho)
  | @stored _ u hu hin =>
    have hmem := mem_table (mem_ids_of_references hin)
    exact .inr ⟨u, a.table u, h.tables u _ hu hmem, hin⟩

theorem Keeps.discard (h : a.Keeps b) (hn : b.isAlive t = false) : a.Keeps (b.discard t) where
  outside := h.outside
  tables := by
    intro u v hr hv
    refine List.mem_filter.mpr ⟨h.tables u v hr hv, ?_⟩
    have hne : u ≠ t := by
      rintro rfl
      rw [isAlive_iff.mpr (h.isAlive hr)] at hn
      cases hn
    simpa using hne

theorem Keeps.settle (h : a.Keeps b) (ts : List TableId) : a.Keeps (b.settle ts) := by
  have reclaim : ∀ fuel ts b, a.Keeps b → a.Keeps (Arena.reclaim fuel ts b) := by
    intro fuel ts b
    fun_induction Arena.reclaim fuel ts b with
    | case1 => exact id
    | case2 => exact id
    | case3 b fuel t ts _ ih => exact ih
    | case4 b fuel t ts hn ih => exact fun h => ih (h.discard (by simpa using hn))
  unfold Arena.settle
  split
  · exact h
  · exact reclaim _ _ b h

/-- Releasing the handles to the garbage, what was held outside before being left. -/
theorem Keeps.drops {garbage : List TableId} (h : a.Keeps b)
    (ho : b.outside.Perm (garbage ++ a.outside)) : a.Keeps (garbage.foldl drop b) := by
  induction garbage generalizing b with
  | nil => exact h
  | cons g garbage ih =>
    have ho' : (b.outside.erase g).Perm (garbage ++ a.outside) := by
      have := ho.erase g
      rwa [List.cons_append, List.erase_cons_head] at this
    have hk : a.Keeps { b with outside := b.outside.erase g } :=
      ⟨fun t ht => ho'.mem_iff.mpr (List.mem_append_right _ ht), h.tables⟩
    refine ih (hk.settle [g]) ?_
    have e : (b.drop g).outside = b.outside.erase g := (reclaimed_drop b g).outside
    rw [e]
    exact ho'

theorem handles_drops_subset (garbage : List TableId) (b : Arena) :
    (garbage.foldl drop b).handles ⊆ b.handles := by
  induction garbage generalizing b with
  | nil => exact List.Subset.refl _
  | cons g garbage ih =>
    intro t ht
    have hd := (reclaimed_drop b g).handles_subset (ih (b.drop g) ht)
    rw [mem_handles] at hd ⊢
    exact hd.imp List.mem_of_mem_erase id

/-- Releasing handles: a table stays as it is, or it goes and no handle to it is left. -/
theorem drops_cases {garbage : List TableId} (hv : (t, v) ∈ b.tables) :
    (t, v) ∈ (garbage.foldl drop b).tables ∨ t ∉ (garbage.foldl drop b).handles := by
  induction garbage generalizing b with
  | nil => exact .inl hv
  | cons g garbage ih =>
    by_cases hin : (t, v) ∈ (b.drop g).tables
    · exact ih hin
    · exact .inr fun hh =>
        (reclaimed_drop b g).gone t v hv hin (handles_drops_subset garbage _ hh)

theorem distinct_drops {garbage : List TableId} (hd : b.Distinct) :
    (garbage.foldl drop b).Distinct := by
  induction garbage generalizing b with
  | nil => exact hd
  | cons g garbage ih => exact ih ((reclaimed_drop b g).distinct hd)

/-! ## the whole sweep -/

/-- An arena at the end of a sweep, before the garbage is let go of. -/
def afterSweep (a : Arena) : Arena :=
  let s := a.sweepOver a.roots
  { s.arena with roots := s.kept, sweepAt := max (s.kept.length * 2) sweepThreshold }

theorem collect_fst (a : Arena) :
    a.collect.1 = (a.sweepOver a.roots).garbage.foldl drop a.afterSweep := rfl

theorem distinct_afterSweep (hd : a.Distinct) : a.afterSweep.Distinct := by
  have h := (swept_sweepOver a a.roots).ids
  unfold Distinct at hd ⊢
  rw [← h] at hd
  exact hd

theorem mem_afterSweep (hv : (t, v) ∈ a.tables) (he : a.afterSweep.table t = v) :
    (t, v) ∈ a.afterSweep.tables := by
  have hid : t ∈ a.afterSweep.ids := by
    have h := (swept_sweepOver a a.roots).ids
    change t ∈ (a.sweepOver a.roots).arena.ids
    rw [h]
    exact mem_ids_of_mem hv
  exact he ▸ mem_table hid

theorem keeps_collect (hd : a.Distinct) : a.Keeps a.collect.1 := by
  have hs := swept_sweepOver a a.roots
  rw [collect_fst]
  refine Keeps.drops ⟨hs.outside_subset, fun t v hr hv => ?_⟩ hs.outside
  exact mem_afterSweep hv ((hs.reachable t hr).trans (hd.table_eq hv))

/-- **What a sweep empties.**  A table that a sweep empties lies on a ring of metatables, a root of
which is registered, and when the turn of that root has come, all handles to members of the ring are
stored in members; they were so from the start of the sweep, if the tables are well formed.  A table
that the sweep does not empty stays exactly as it was, unless no handle to it is left in the end.
A table that can be reached from outside the tables stays exactly as it was. -/
theorem sweep_empties_enclosed_rings (a : Arena) (hd : a.Distinct) :
    (∀ t, a.afterSweep.table t ≠ a.table t →
      a.afterSweep.table t = Table.empty 0 ∧
      ∃ before root after ts, a.roots = before ++ root :: after ∧ a.IsRing ts ∧ ts.Nodup ∧
        root ∈ ts ∧ t ∈ ts ∧ (a.sweepOver before).arena.Enclosed ts ∧
        ((∀ u v, (u, v) ∈ a.tables → v.WellFormed) → a.Enclosed ts)) ∧
    (∀ t v, (t, v) ∈ a.tables → a.afterSweep.table t = v →
      (t, v) ∈ a.collect.1.tables ∨ t ∉ a.collect.1.handles) ∧
    (∀ t v, a.Reachable t → (t, v) ∈ a.tables →
      (t, v) ∈ a.collect.1.tables ∧ a.collect.1.table t = v) := by
  refine ⟨fun t ht => ⟨?_, ?_⟩, fun t v hv he => ?_, fun t v hr hv => ?_⟩
  · exact ((swept_sweepOver a a.roots).shrinks t).resolve_left ht
  · obtain ⟨before, root, after, ts, hroots, hring, hn, hroot, hts, he⟩ := enclosed_of_emptied ht
    exact ⟨before, root, after, ts, hroots, hring, hn, hroot, hts, he, fun hw =>
      (swept_sweepOver a before).enclosed_start hd
        (fun u v hv => (hw u v hv).references_subset) he⟩
  · rw [collect_fst]
    exact drops_cases (mem_afterSweep hv he)
  · have hin := (keeps_collect hd).tables t v hr hv
    have hdc : a.collect.1.Distinct := by
      rw [collect_fst]
      exact distinct_drops (distinct_afterSweep hd)
    exact ⟨hin, hdc.table_eq hin⟩

/-- A table that is its own metatable, and two tables with each other as metatables, the first of
which is held outside. -/
def twoRings : Arena where
  tables := [(⟨0⟩, { Table.empty 0 with metatable := some ⟨0⟩ }),
    (⟨1⟩, { Table.empty 0 with metatable := some ⟨2⟩ }),
    (⟨2⟩, { Table.empty 0 with metatable := some ⟨1⟩ })]
  made := 3
  outside := [⟨1⟩]
  roots := [⟨0⟩, ⟨2⟩]
  sweepAt := sweepThreshold

/-- The ring that nothing else holds is emptied, and of the other one the member that is held by the
other member only is left as it was. -/
theorem sweep_of_twoRings :
    twoRings.Distinct ∧
    (∃ ts, twoRings.IsRing ts ∧ (⟨0⟩ : TableId) ∈ ts ∧ ∃ before,
      (twoRings.sweepOver before).arena.Enclosed ts) ∧
    (twoRings.collect.1.table ⟨2⟩).metatable = some ⟨1⟩ := by
  have hd : twoRings.Distinct := by decide
  obtain ⟨hemptied, -, hkept⟩ := sweep_empties_enclosed_rings twoRings hd
  have hne : twoRings.afterSweep.table ⟨0⟩ ≠ twoRings.table ⟨0⟩ := by
    intro h
    have hm : twoRings.afterSweep.metatable? ⟨0⟩ = twoRings.metatable? ⟨0⟩ :=
      congrArg Table.metatable h
    exact absurd hm (by decide)
  obtain ⟨-, before, root, after, ts, -, hring, -, -, hts, he, -⟩ := hemptied ⟨0⟩ hne
  have hr : twoRings.Reachable ⟨2⟩ :=
    .stored (.outside (by decide) : twoRings.Reachable ⟨1⟩) (by decide)
  refine ⟨hd, ⟨ts, hring, hts, before, he⟩, ?_⟩
  rw [(hkept ⟨2⟩ _ hr (.tail _ (.tail _ (.head _)))).2]

end Arena

end LuaMachine
