import LuaMachine.Proofs.Reached

/-!
# Which rings a sweep releases

A ring of metatables is stranded if every handle to a member is stored in a member.  Whatever the
roots are and in whatever order they come, a sweep releases the stranded rings and no others: what has
been released before its turn leaves such a ring as it was, since no member of another ring holds a
handle into it; and once it has been released, its other roots are no longer on a ring.

* `Arena.Stranded`    a table on such a ring;
* `Arena.Released`    a sweep on the way, with the tables that it has released;
* `Released.turn`     the ring of a stranded table is not held when its turn comes;
* `Released.sweepRoot`, `released_sweepOver`   one root, and all roots.
-/

namespace LuaMachine.Arena

open Relation

variable {a b : Arena} {s : Sweeping} {t u root : TableId} {ts ts' done : List TableId}

/-! ## members of a ring -/

theorem IsRing.transGen (h : a.IsRing ts) (ht : t ∈ ts) : TransGen a.Linked t t := by
  obtain ⟨u, hu, hl⟩ := h.linked ht
  exact .head' hl (h.reaches hu ht)

/-! ## stranded rings -/

/-- A table on a ring all handles to which are stored in the ring. -/
def Stranded (a : Arena) (t : TableId) : Prop := ∃ ts, a.IsRing ts ∧ a.Enclosed ts ∧ t ∈ ts

namespace Stranded

theorem enclosed (h : a.Stranded t) (hr : a.IsRing ts) (ht : t ∈ ts) : a.Enclosed ts := by
  obtain ⟨ts', hr', he, ht'⟩ := h
  have hsame := hr.mem_iff hr' ht ht'
  intro x hx
  obtain ⟨hout, hin⟩ := he x ((hsame x).mp hx)
  exact ⟨hout, fun u v hv hx' => (hsame u).mpr (hin u v hv hx')⟩

theorem reaches_back (h : a.Stranded t) (hr : ReflTransGen a.Linked t u) :
    ReflTransGen a.Linked u t := by
  obtain ⟨ts, hring, -, ht⟩ := h
  exact hring.reaches (hring.mem_of_reaches ht hr) ht

end Stranded

/-- **A ring that is enclosed is not held.**  Every handle to a member is counted among those stored
in members. -/
theorem not_isHeld_of_enclosed (hd : a.Distinct) (hn : ts.Nodup) (hs : ts ⊆ a.ids)
    (he : a.Enclosed ts) : a.isHeld ts = false := by
  obtain ⟨rest, hp⟩ := exists_perm_of_nodup hn hs
  -- no member is listed once more among the other tables
  have hrest : ∀ p ∈ rest, p.1 ∉ ts := by
    have hids : (ts ++ rest.map Prod.fst).Nodup := by
      have hnodup := (hp.map Prod.fst).nodup_iff.mp hd
      rwa [List.map_append, List.map_map, Function.comp_def, List.map_id'] at hnodup
    intro p hp hin
    exact List.disjoint_of_nodup_append hids hin (List.mem_map_of_mem hp)
  unfold isHeld
  dsimp only
  rw [List.any_eq_false]
  intro t ht
  have hout : a.outside.count t = 0 := List.count_eq_zero.mpr (he t ht).1
  have hother : (rest.flatMap (·.2.references)).count t = 0 := by
    rw [List.count_eq_zero, List.mem_flatMap]
    rintro ⟨p, hin, hr⟩
    exact hrest p hin ((he t ht).2 p.1 p.2 (hp.mem_iff.mpr (List.mem_append_right _ hin)) hr)
  rw [count_handles hp, hout, hother, Nat.zero_add, Nat.add_zero]
  simp

/-! ## a sweep on the way -/

/-- A sweep on the way has released these tables, each once: they are the ones that are empty now,
what they held is the garbage, they are stranded, with all tables on their rings, and no root that is
kept is stranded. -/
structure Released (a : Arena) (s : Sweeping) (done : List TableId) : Prop where
  nodup : done.Nodup
  count : s.released = done.length
  table : ∀ t, s.arena.table t = if t ∈ done then Table.empty 0 else a.table t
  garbage : s.garbage = done.flatMap fun m => (a.table m).contents
  stranded : ∀ t ∈ done, a.Stranded t
  closed : ∀ t ∈ done, ∀ u, a.Linked t u → u ∈ done
  kept : ∀ t ∈ s.kept, ¬ a.Stranded t

namespace Released

theorem start (a : Arena) : a.Released ⟨a, [], [], 0⟩ [] where
  nodup := List.nodup_nil
  count := rfl
  table _ := rfl
  garbage := rfl
  stranded _ h := absurd h List.not_mem_nil
  closed _ h := absurd h List.not_mem_nil
  kept _ h := absurd h List.not_mem_nil

theorem mem_of_reaches (h : a.Released s done) (ht : t ∈ done) (hr : ReflTransGen a.Linked t u) :
    u ∈ done := by
  induction hr with
  | refl => exact ht
  | tail _ hl ih => exact h.closed _ ih _ hl

theorem not_mem_of_ring (h : a.Released s done) (hr : s.arena.IsRing ts) (ht : t ∈ ts) :
    t ∉ done := by
  intro hd
  obtain ⟨u, -, hl⟩ := hr.linked ht
  unfold Linked metatable? at hl
  rw [h.table, if_pos hd] at hl
  cases hl

/-- What has been released before leaves an enclosed ring enclosed: neither the garbage nor a table
that is left holds a handle into it. -/
theorem enclosed (h : a.Released s done) (hs : a.Swept s) (hd : s.arena.Distinct)
    (he : a.Enclosed ts) (hno : ∀ t ∈ ts, t ∉ done) : s.arena.Enclosed ts := by
  -- only members hold handles to members
  have hinside : ∀ t ∈ ts, ∀ u, t ∈ (a.table u).references → u ∈ ts := fun t ht u hr =>
    (he t ht).2 u _ (mem_table (mem_ids_of_references hr)) hr
  intro t ht
  constructor
  · intro hout
    rcases List.mem_append.mp (hs.outside.mem_iff.mp hout) with hg | hout
    · rw [h.garbage] at hg
      obtain ⟨m, hm, hin⟩ := List.mem_flatMap.mp hg
      exact hno m (hinside t ht m (List.mem_append_left _ hin)) hm
    · exact (he t ht).1 hout
  · intro u v hv hr
    rw [← hd.table_eq hv, h.table] at hr
    split at hr
    · cases hr
    · exact hinside t ht u hr

/-- **The turn of a stranded table**: its ring is there as it was, and it is not held. -/
theorem turn (h : a.Released s done) (hs : a.Swept s) (hd : s.arena.Distinct)
    (hr : a.Stranded root) (hno : root ∉ done) :
    ∃ ts, s.arena.ring? root = some ts ∧ s.arena.isHeld ts = false ∧ ∀ t ∈ ts, a.Stranded t := by
  -- a member that has been released would lead to the root
  have hleft : ∀ u, ReflTransGen a.Linked root u → u ∉ done := fun u hu hmem =>
    hno (h.mem_of_reaches hmem (hr.reaches_back hu))
  have hlinked : ∀ x y, ReflTransGen a.Linked root x → a.Linked x y → s.arena.Linked x y := by
    intro x y hx hxy
    unfold Linked metatable? at hxy ⊢
    rwa [h.table, if_neg (hleft x hx)]
  have hreaches : ∀ u, ReflTransGen a.Linked root u → ReflTransGen s.arena.Linked root u := by
    intro u hu
    induction hu with
    | refl => exact .refl
    | tail hx hxy ih => exact ih.tail (hlinked _ _ hx hxy)
  have hround : TransGen s.arena.Linked root root := by
    obtain ⟨ts, hring, -, hmem⟩ := hr
    obtain ⟨x, hx, hxr⟩ := TransGen.tail'_iff.mp (hring.transGen hmem)
    exact .tail' (hreaches x hx) (hlinked x root hx hxr)
  obtain ⟨ts, hts⟩ := Option.isSome_iff_exists.mp (ring?_isSome.mpr hround)
  obtain ⟨hring, hn, hmem⟩ := ring?_eq_some hts
  have hring' : a.IsRing ts := hs.shrinks.isRing hring
  have he : a.Enclosed ts := hr.enclosed hring' hmem
  have he' : s.arena.Enclosed ts :=
    h.enclosed hs hd he fun t ht => hleft t (hring'.reaches hmem ht)
  exact ⟨ts, hts, not_isHeld_of_enclosed hd hn hring.subset_ids he',
    fun t ht => ⟨ts, hring', he, ht⟩⟩

theorem drain (h : a.Released s done) (hring : s.arena.IsRing ts) (hn : ts.Nodup)
    (hring' : a.IsRing ts) (he : a.Enclosed ts) :
    a.Released { s with
      arena := s.arena.drain ts
      garbage := s.garbage ++ ts.flatMap fun m => (s.arena.table m).contents
      released := s.released + ts.length } (done ++ ts) := by
  have hnew : ∀ t ∈ ts, t ∉ done := fun t ht => h.not_mem_of_ring hring ht
  refine ⟨?_, ?_, fun t => ?_, ?_, fun t ht => ?_, fun t ht u hl => ?_, h.kept⟩
  · exact h.nodup.append hn fun t hd ht => hnew t ht hd
  · rw [List.length_append]
    exact congrArg (· + ts.length) h.count
  · dsimp only
    rw [table_drain, h.table]
    simp only [List.mem_append]
    by_cases ht : t ∈ ts
    · rw [if_pos ht, if_pos (.inr ht)]
    · rw [if_neg ht]
      simp only [ht, or_false]
  · have hsame : (ts.flatMap fun m => (s.arena.table m).contents)
        = ts.flatMap fun m => (a.table m).contents := by
      refine List.flatMap_congr fun m hm => ?_
      rw [h.table, if_neg (hnew m hm)]
    dsimp only
    rw [hsame, h.garbage, List.flatMap_append]
  · rcases List.mem_append.mp ht with ht | ht
    · exact h.stranded t ht
    · exact ⟨ts, hring', he, ht⟩
  · rcases List.mem_append.mp ht with ht | ht
    · exact List.mem_append_left _ (h.closed t ht u hl)
    · obtain ⟨w, hw, hl'⟩ := hring'.linked ht
      rw [hl.unique hl']
      exact List.mem_append_right _ hw

/-- **One root.**  Whatever becomes of it, if it is stranded it has been released afterwards. -/
theorem sweepRoot (h : a.Released s done) (hs : a.Swept s) (ha : a.Tidy) (root : TableId) :
    ∃ done', a.Released (sweepRoot s root) done' ∧ done ⊆ done' ∧
      (a.Stranded root → root ∈ done') := by
  have hd : s.arena.Distinct := by
    unfold Distinct
    rw [hs.ids]
    exact ha.distinct
  rcases sweepRoot_cases s root with ⟨e, hkept⟩ | ⟨e, ts, hts, hheld⟩ | ⟨ts, hts, hheld, e⟩
  · rw [e]
    refine ⟨done, h, List.Subset.refl _, fun hr => ?_⟩
    by_contra hno
    obtain ⟨ts, hts, -, hstranded⟩ := h.turn hs hd hr hno
    obtain ⟨k, hk, hmem⟩ := hkept ts hts
    exact h.kept k hk (hstranded k hmem)
  · -- the ring is held, so it is not a stranded one
    have hno : ¬ a.Stranded root := by
      intro hr
      obtain ⟨hring, -, hmem⟩ := ring?_eq_some hts
      obtain ⟨ts', hts', hheld', -⟩ := h.turn hs hd hr (h.not_mem_of_ring hring hmem)
      rw [hts] at hts'
      obtain rfl := Option.some.inj hts'
      rw [hheld] at hheld'
      cases hheld'
    rw [e]
    refine ⟨done, ⟨h.nodup, h.count, h.table, h.garbage, h.stranded, h.closed, fun k hk => ?_⟩,
      List.Subset.refl _, fun hr => absurd hr hno⟩
    rcases List.mem_append.mp hk with hk | hk
    · exact h.kept k hk
    · rw [List.mem_singleton.mp hk]
      exact hno
  · obtain ⟨hring, -, hmem⟩ := ring?_eq_some hts
    obtain ⟨hring', hn, he⟩ := hs.enclosed_ring hts hheld
    have hstart : a.Enclosed ts := hs.enclosed_start ha.distinct
      (fun u v hv => ha.distinct.table_eq hv ▸ ha.references_subset u) he
    rw [e]
    exact ⟨done ++ ts, h.drain hring hn hring' hstart, List.subset_append_left _ _,
      fun _ => List.mem_append_right _ hmem⟩

end Released

theorem released_sweepOver (ha : a.Tidy) (roots : List TableId) :
    ∃ done, a.Released (a.sweepOver roots) done ∧ ∀ r ∈ roots, a.Stranded r → r ∈ done := by
  induction roots using List.reverseRecOn with
  | nil => exact ⟨[], .start a, fun r hr => absurd hr List.not_mem_nil⟩
  | append_singleton roots root ih =>
    obtain ⟨done, hdone, hroots⟩ := ih
    obtain ⟨done', hdone', hsub, hroot⟩ := hdone.sweepRoot (swept_sweepOver a roots) ha root
    rw [sweepOver_append]
    refine ⟨done', hdone', fun r hr hstranded => ?_⟩
    rcases List.mem_append.mp hr with hr | hr
    · exact hsub (hroots r hr hstranded)
    · rw [List.mem_singleton.mp hr] at hstranded ⊢
      exact hroot hstranded

/-! ## the whole sweep -/

theorem roots_drops (garbage : List TableId) :
    ∀ a : Arena, (garbage.foldl drop a).roots = a.roots := by
  induction garbage with
  | nil => exact fun _ => rfl
  | cons g garbage ih => exact fun a => (ih _).trans (reclaimed_drop a g).roots

theorem outside_drops {held : List TableId} (garbage : List TableId) :
    ∀ a : Arena, a.outside.Perm (garbage ++ held) → (garbage.foldl drop a).outside.Perm held := by
  induction garbage with
  | nil => exact fun _ h => h
  | cons g garbage ih =>
    intro a h
    refine ih _ ?_
    have he : (a.drop g).outside = a.outside.erase g := (reclaimed_drop a g).outside
    have herase := h.erase g
    rw [List.cons_append, List.erase_cons_head] at herase
    rw [he]
    exact herase

/-- A sweep whose roots cover all rings releases the stranded tables: it counts each of them once,
empties them, and leaves neither a root nor a handle. -/
theorem Tidy.collect (ha : a.Tidy) (hc : a.Covers a.roots) :
    ∃ done : List TableId, done.Nodup ∧ (∀ t, t ∈ done ↔ a.Stranded t) ∧
      a.collect.2 = done.length ∧
      ∀ t ∈ done, a.collect.1.table t = Table.empty 0 ∧ t ∉ a.collect.1.roots ∧
        a.collect.1.isAlive t = false := by
  obtain ⟨done, h, hroots⟩ := released_sweepOver ha a.roots
  have hall : ∀ t, t ∈ done ↔ a.Stranded t := by
    intro t
    refine ⟨h.stranded t, fun ht => ?_⟩
    obtain ⟨ts, hring, he, hmem⟩ := ht
    obtain ⟨r, hr, hroot⟩ := hc.ring hring
    exact h.mem_of_reaches (hroots r hroot ⟨ts, hring, he, hr⟩) (hring.reaches hr hmem)
  have htable : ∀ t, a.afterSweep.table t = if t ∈ done then Table.empty 0 else a.table t := h.table
  have hshrinks := (Dwindles.drops (a.sweepOver a.roots).garbage a.afterSweep).shrinks
  refine ⟨done, h.nodup, hall, h.count, fun t ht => ⟨?_, ?_, ?_⟩⟩
  · have he : a.afterSweep.table t = Table.empty 0 := by rw [htable, if_pos ht]
    rw [collect_fst]
    rcases hshrinks t with e | e
    · rw [e, he]
    · exact e
  · rw [collect_fst, roots_drops]
    exact fun hk => h.kept t hk (h.stranded t ht)
  · -- who held it has been released with it
    obtain ⟨ts, hring, he, hmem⟩ := h.stranded t ht
    rw [Bool.eq_false_iff, Ne, isAlive_iff, mem_handles, collect_fst]
    rintro (hout | ⟨u, v, hv, hr⟩)
    · have hperm := outside_drops (a.sweepOver a.roots).garbage a.afterSweep
        (swept_sweepOver a a.roots).outside
      exact (he t hmem).1 (hperm.mem_iff.mp hout)
    · rw [← (distinct_drops (distinct_afterSweep ha.distinct)).table_eq hv] at hr
      rcases hshrinks u with e | e
      · rw [e, htable] at hr
        split at hr
        · cases hr
        · rename_i hno
          have hu := (he t hmem).2 u _ (mem_table (mem_ids_of_references hr)) hr
          exact hno ((hall u).mpr ⟨ts, hring, he, hu⟩)
      · rw [e] at hr
        cases hr

/-- **A sweep releases the stranded rings.**  Take any arena that can be reached, and any further
roots, in any order and as often as you like.  After a sweep every ring all handles to which were
stored in the ring has been emptied; no root of it and no handle to it is left.  The number that the
sweep gives is the number of tables on such rings, each counted once. -/
theorem sweep_releases_stranded_rings {a : Arena} (h : Reached a) {roots : List TableId}
    (hroots : a.roots ⊆ roots) :
    (∀ ts, a.IsRing ts → a.Enclosed ts → ∀ t ∈ ts,
      ({ a with roots } : Arena).collect.1.table t = Table.empty 0 ∧
      t ∉ ({ a with roots } : Arena).collect.1.roots ∧
      ({ a with roots } : Arena).collect.1.isAlive t = false) ∧
    ∃ released : List TableId, released.Nodup ∧
      (∀ t, t ∈ released ↔ ∃ ts, a.IsRing ts ∧ a.Enclosed ts ∧ t ∈ ts) ∧
      ({ a with roots } : Arena).collect.2 = released.length := by
  have ha : Tidy { a with roots } := ⟨h.tidy.distinct, h.tidy.made, h.tidy.pointsBack⟩
  have hc : Covers { a with roots } roots := h.covers.mono hroots
  obtain ⟨done, hn, hall, hcount, hdone⟩ := ha.collect hc
  refine ⟨fun ts hring he t ht => hdone t ((hall t).mpr ⟨ts, hring, he, ht⟩), done, hn, ?_, hcount⟩
  exact fun t => hall t

/-- Two tables with each other as metatables, which also hold each other in an array slot and in the
key of a dead node, and a table that is its own metatable.  Only the third one is held outside. -/
def lostPair : Arena :=
  [.create, .create, .create, .setMetatable ⟨0⟩ (some ⟨1⟩), .setMetatable ⟨1⟩ (some ⟨0⟩),
    .setMetatable ⟨2⟩ (some ⟨2⟩), .put ⟨0⟩ (.integer 1) (.table ⟨1⟩),
    .put ⟨1⟩ (.table ⟨0⟩) (.table ⟨1⟩), .put ⟨1⟩ (.table ⟨0⟩) .nil, .drop ⟨0⟩,
    .drop ⟨1⟩].foldl act empty

/-- The pair is released, though three roots of it are registered; the other ring is not. -/
theorem sweep_releases_stranded_rings_pair :
    let roots : List TableId := [⟨0⟩, ⟨2⟩, ⟨1⟩, ⟨2⟩, ⟨1⟩]
    let b : Arena := { lostPair with roots }
    Reached lostPair ∧ lostPair.roots ⊆ roots ∧ b.collect.1.table ⟨1⟩ = Table.empty 0 ∧
      b.collect.1.isAlive ⟨0⟩ = false ∧ b.collect.2 = 2 ∧
      ∃ released : List TableId, released.length = 2 ∧
        ∀ t, t ∈ released ↔ ∃ ts, lostPair.IsRing ts ∧ lostPair.Enclosed ts ∧ t ∈ ts := by
  intro roots b
  have hreached : Reached lostPair := .foldl_act .empty _
  have hroots : lostPair.roots ⊆ roots := by decide +kernel
  have hring : lostPair.ring? ⟨0⟩ = some [⟨0⟩, ⟨1⟩] := by decide +kernel
  obtain ⟨hchain, hn, -⟩ := ring?_eq_some hring
  have he : lostPair.Enclosed [⟨0⟩, ⟨1⟩] :=
    enclosed_of_not_isHeld hn hchain.subset_ids (by decide +kernel)
  have hcount : b.collect.2 = 2 := by decide +kernel
  obtain ⟨hreleased, released, -, hall, hlength⟩ :=
    sweep_releases_stranded_rings hreached hroots
  refine ⟨hreached, hroots, (hreleased _ hchain he ⟨1⟩ (by decide)).1,
    (hreleased _ hchain he ⟨0⟩ (by decide)).2.2, hcount, released, ?_, hall⟩
  exact hlength.symm.trans hcount

end LuaMachine.Arena
