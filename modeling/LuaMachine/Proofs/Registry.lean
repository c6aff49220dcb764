import LuaMachine.Proofs.Sweep

/-!
# Registered rings

A ring of metatables is made by the link that closes it, and the table that gets this link is
registered.  A ring can break, and its members can become members of other rings; the roots that are
no longer on a ring are forgotten in the next sweep, which keeps one root for each ring it leaves.

* `Arena.ringKey`   the smallest address on a ring, which tells rings apart;
* `Arena.Covers`    every ring has a member among given roots;
* `Arena.Event`     what can happen to an arena, with `Arena.act` its effect.

`Covers` is about one table at a time: a table that is reached from itself also reaches a root.  All
tables that it reaches are on the same ring.
-/

namespace LuaMachine

theorem Table.metatable_rawSet {t t' : Table} {k v : Value} (h : t.rawSet k v = .ok t') :
    t'.metatable = t.metatable := by
  unfold rawSet at h
  split at h
  · cases h
    unfold setKey
    split
    · exact metatable_setInt t _ v
    · rfl
  · cases h

namespace Arena

open Relation

variable {a b : Arena} {t u root : TableId} {roots : List TableId}

/-! ## walks from a ring -/

theorem transGen_of_reaches (h : TransGen a.Linked t t) (hr : ReflTransGen a.Linked t u) :
    TransGen a.Linked u u := by
  induction hr with
  | refl => exact h
  | @tail x y _ hxy ih =>
    obtain ⟨z, hz, hzx⟩ := TransGen.head'_iff.mp ih
    rw [hz.unique hxy] at hzx
    exact .tail' hzx hxy

theorem Shrinks.reaches (h : a.Shrinks b) (ht : TransGen b.Linked t t)
    (hr : ReflTransGen a.Linked t u) : ReflTransGen b.Linked t u := by
  induction hr with
  | refl => exact .refl
  | @tail x y _ hxy ih =>
    obtain ⟨z, hz, -⟩ := TransGen.head'_iff.mp (transGen_of_reaches ht ih)
    rw [(h.linked hz).unique hxy] at hz
    exact ih.tail hz

theorem Shrinks.transGen (h : a.Shrinks b) (ht : TransGen b.Linked t u) :
    TransGen a.Linked t u := TransGen.mono (fun _ _ => h.linked) _ _ ht

theorem reaches_of_isChain {l : List TableId} (h : List.IsChain a.Linked (t :: l))
    (hu : u ∈ t :: l) : ReflTransGen a.Linked t u := by
  induction l generalizing t with
  | nil =>
    rw [List.mem_singleton.mp hu]
  | cons s l ih =>
    obtain ⟨hts, hc⟩ := List.isChain_cons_cons.mp h
    rcases List.mem_cons.mp hu with rfl | hu
    · exact .refl
    · exact .head hts (ih hc hu)

theorem reaches_of_mem_ring {ts : List TableId} (h : a.ring? root = some ts) (hu : u ∈ ts) :
    ReflTransGen a.Linked root u := by
  obtain ⟨rest, rfl, -, hc⟩ := membersUpTo_chain h
  exact reaches_of_isChain hc (List.mem_append_left [root] hu)

/-! ## telling rings apart -/

section
variable {ts us : List TableId} {address : TableId → Nat}

theorem IsRing.reaches (h : a.IsRing ts) (ht : t ∈ ts) (hu : u ∈ ts) :
    ReflTransGen a.Linked t u := by
  cases ts with
  | nil => cases ht
  | cons s ts =>
    have hc : List.IsChain a.Linked (s :: ts ++ [s]) := h
    -- on to the first member, and from there to the other one
    have hfirst : ReflTransGen a.Linked t s := by
      obtain ⟨l₁, l₂, hl⟩ := List.append_of_mem ht
      rw [hl, List.append_assoc] at hc
      exact (transGen_of_isChain (List.isChain_append.mp hc).2.1).to_reflTransGen
    exact hfirst.trans (reaches_of_isChain hc (List.mem_append_left [s] hu))

theorem IsRing.mem_iff (h : a.IsRing ts) (h' : a.IsRing us) (ht : t ∈ ts) (ht' : t ∈ us)
    (u : TableId) : u ∈ ts ↔ u ∈ us :=
  ⟨fun hu => h'.mem_of_reaches ht' (h.reaches ht hu),
    fun hu => h.mem_of_reaches ht (h'.reaches ht' hu)⟩

/-- The smallest address of the given tables. -/
def ringKey (address : TableId → Nat) (ts : List TableId) : Nat := (ts.map address).min?.getD 0

theorem exists_mem_ringKey (address : TableId → Nat) (ht : t ∈ ts) :
    ∃ u ∈ ts, address u = ringKey address ts := by
  unfold ringKey
  cases hk : (ts.map address).min? with
  | none =>
    rw [List.min?_eq_none_iff, List.map_eq_nil_iff] at hk
    rw [hk] at ht
    cases ht
  | some k => exact List.mem_map.mp (List.min?_mem hk)

theorem ringKey_congr (h : ∀ u, u ∈ ts ↔ u ∈ us) : ringKey address ts = ringKey address us := by
  have hle : ∀ k, (∀ b ∈ ts.map address, k ≤ b) ↔ ∀ b ∈ us.map address, k ≤ b := by
    intro k
    simp only [List.mem_map, forall_exists_index, and_imp, forall_apply_eq_imp_iff₂, h]
  unfold ringKey
  cases hk : (ts.map address).min? with
  | none =>
    rw [List.min?_eq_none_iff, List.map_eq_nil_iff] at hk
    have hus : us = [] := List.eq_nil_iff_forall_not_mem.mpr fun u hu => by
      have := (h u).mpr hu
      rw [hk] at this
      cases this
    rw [hus]
    rfl
  | some k =>
    obtain ⟨hmem, hmin⟩ := List.min?_eq_some_iff.mp hk
    obtain ⟨u, hu, rfl⟩ := List.mem_map.mp hmem
    have hus : (us.map address).min? = some (address u) :=
      List.min?_eq_some_iff.mpr ⟨List.mem_map_of_mem ((h u).mp hu), (hle _).mp hmin⟩
    rw [hus]

/-- **Rings with the same key are the same ring**, and so are rings that share a table. -/
theorem IsRing.ringKey_eq_iff (haddress : Function.Injective address) (h : a.IsRing ts)
    (h' : a.IsRing us) (ht : t ∈ ts) : ringKey address ts = ringKey address us ↔ t ∈ us := by
  constructor
  · intro hk
    cases us with
    | nil => exact h'.elim
    | cons u us =>
      obtain ⟨v, hv, ev⟩ := exists_mem_ringKey address ht
      obtain ⟨w, hw, ew⟩ := exists_mem_ringKey address (List.mem_cons_self (l := us))
      cases haddress (ev.trans (hk.trans ew.symm))
      exact (h.mem_iff h' hv hw t).mp ht
  · exact fun ht' => ringKey_congr (h.mem_iff h' ht ht')

/-- Look at the ring of one root, and tell the rings that are left apart by the keys seen. -/
def sweepRootByKey (address : TableId → Nat) (p : Sweeping × List Nat) (root : TableId) :
    Sweeping × List Nat :=
  if !p.1.arena.isAlive root then p
  else
    match p.1.arena.ring? root with
    | none => p
    | some members =>
      if p.1.arena.isHeld members then
        if p.2.contains (ringKey address members) then p
        else ({ p.1 with kept := p.1.kept ++ [root] }, ringKey address members :: p.2)
      else (sweepRoot p.1 root, p.2)

/-- The keys seen are those of the rings that have a root which is kept. -/
def Keyed (a : Arena) (address : TableId → Nat) (p : Sweeping × List Nat) : Prop :=
  ∀ k, k ∈ p.2 ↔ ∃ r ∈ p.1.kept, ∃ ts, a.IsRing ts ∧ r ∈ ts ∧ ringKey address ts = k

variable {p : Sweeping × List Nat}

/-- The key of a ring has been seen exactly if a root on the ring is kept. -/
theorem Keyed.contains_iff (hk : a.Keyed address p) (haddress : Function.Injective address)
    (h : a.IsRing ts) :
    p.2.contains (ringKey address ts) = true ↔ p.1.kept.any ts.contains = true := by
  rw [List.contains_iff_mem, hk, List.any_eq_true]
  constructor
  · rintro ⟨r, hr, us, hus, hrus, e⟩
    exact ⟨r, hr, List.contains_iff_mem.mpr ((hus.ringKey_eq_iff haddress h hrus).mp e)⟩
  · rintro ⟨r, hr, hrts⟩
    exact ⟨r, hr, ts, h, List.contains_iff_mem.mp hrts, rfl⟩

theorem Keyed.keep (hk : a.Keyed address p) (haddress : Function.Injective address)
    (h : a.IsRing ts) (hroot : root ∈ ts) :
    a.Keyed address ({ p.1 with kept := p.1.kept ++ [root] }, ringKey address ts :: p.2) := by
  intro k
  rw [List.mem_cons, hk]
  constructor
  · rintro (rfl | ⟨r, hr, hts⟩)
    · exact ⟨root, List.mem_append_right _ List.mem_cons_self, ts, h, hroot, rfl⟩
    · exact ⟨r, List.mem_append_left _ hr, hts⟩
  · rintro ⟨r, hr, us, hus, hrus, rfl⟩
    rcases List.mem_append.mp hr with hr | hr
    · exact .inr ⟨r, hr, us, hus, hrus, rfl⟩
    · cases List.mem_singleton.mp hr
      exact .inl ((hus.ringKey_eq_iff haddress h hrus).mpr hroot)

/-- A ring that is held: it is left, and what tells it apart is noted. -/
theorem Keyed.sweepRootByKey_held (hk : a.Keyed address p) (haddress : Function.Injective address)
    (h : a.IsRing ts) (halive : p.1.arena.isAlive root = true)
    (hring : p.1.arena.ring? root = some ts) (hheld : p.1.arena.isHeld ts = true) :
    (sweepRootByKey address p root).1 = sweepRoot p.1 root ∧
      a.Keyed address (sweepRootByKey address p root) := by
  have e : sweepRootByKey address p root = if p.2.contains (ringKey address ts) then p
      else ({ p.1 with kept := p.1.kept ++ [root] }, ringKey address ts :: p.2) := by
    simp [sweepRootByKey, halive, hring, hheld]
  have e' : sweepRoot p.1 root = if p.1.kept.any ts.contains then p.1
      else { p.1 with kept := p.1.kept ++ [root] } := by
    simp [sweepRoot, halive, hring, hheld]
  rw [e, e']
  by_cases hseen : p.2.contains (ringKey address ts) = true
  · rw [if_pos hseen, if_pos ((hk.contains_iff haddress h).mp hseen)]
    exact ⟨rfl, hk⟩
  · rw [if_neg hseen, if_neg (mt (hk.contains_iff haddress h).mpr hseen)]
    exact ⟨rfl, hk.keep haddress h (ring?_eq_some hring).2.2⟩

/-- **One root**: keys and membership tell rings apart in the same way. -/
theorem Keyed.sweepRootByKey (hk : a.Keyed address p) (hs : a.Swept p.1)
    (haddress : Function.Injective address) (root : TableId) :
    (sweepRootByKey address p root).1 = sweepRoot p.1 root ∧
      a.Keyed address (sweepRootByKey address p root) := by
  cases halive : p.1.arena.isAlive root with
  | false =>
    have e : Arena.sweepRootByKey address p root = p := by simp [Arena.sweepRootByKey, halive]
    have e' : sweepRoot p.1 root = p.1 := by simp [sweepRoot, halive]
    rw [e, e']
    exact ⟨rfl, hk⟩
  | true =>
    cases hring : p.1.arena.ring? root with
    | none =>
      have e : Arena.sweepRootByKey address p root = p := by simp [Arena.sweepRootByKey, hring]
      have e' : sweepRoot p.1 root = p.1 := by simp [sweepRoot, hring]
      rw [e, e']
      exact ⟨rfl, hk⟩
    | some ts =>
      cases hheld : p.1.arena.isHeld ts with
      | true =>
        have h : a.IsRing ts := hs.shrinks.isRing (ring?_eq_some hring).1
        exact hk.sweepRootByKey_held haddress h halive hring hheld
      | false =>
        have e : Arena.sweepRootByKey address p root = (sweepRoot p.1 root, p.2) := by
          simp [Arena.sweepRootByKey, halive, hring, hheld]
        have hkept : (sweepRoot p.1 root).kept = p.1.kept := by
          simp [sweepRoot, halive, hring, hheld]
        rw [e]
        refine ⟨rfl, fun k => ?_⟩
        dsimp only
        rw [hkept]
        exact hk k

/-- **A sweep may tell the rings that it leaves apart by their smallest address**, whatever the
addresses of the tables are. -/
theorem sweepOver_eq_byKey (haddress : Function.Injective address) (a : Arena)
    (roots : List TableId) :
    (roots.foldl (sweepRootByKey address) (⟨a, [], [], 0⟩, [])).1 = a.sweepOver roots := by
  suffices h : (roots.foldl (sweepRootByKey address) (⟨a, [], [], 0⟩, [])).1 = a.sweepOver roots ∧
      a.Keyed address (roots.foldl (sweepRootByKey address) (⟨a, [], [], 0⟩, [])) from h.1
  induction roots using List.reverseRecOn with
  | nil => exact ⟨rfl, fun k => by simp⟩
  | append_singleton roots root ih =>
    obtain ⟨e, hk⟩ := ih
    rw [List.foldl_concat, sweepOver_append, ← e]
    refine hk.sweepRootByKey ?_ haddress root
    rw [e]
    exact swept_sweepOver a roots

end

/-! ## roots that cover all rings -/

/-- Every ring has a member among the roots. -/
def Covers (a : Arena) (roots : List TableId) : Prop :=
  ∀ t, TransGen a.Linked t t → ∃ r ∈ roots, ReflTransGen a.Linked t r

namespace Covers

theorem ring {ts : List TableId} (h : a.Covers roots) (hr : a.IsRing ts) :
    ∃ t ∈ ts, t ∈ roots := by
  cases ts with
  | nil => exact hr.elim
  | cons t ts =>
    obtain ⟨r, hroot, hreach⟩ := h t hr.head_transGen
    exact ⟨r, hr.mem_of_reaches List.mem_cons_self hreach, hroot⟩

theorem mono {roots' : List TableId} (h : a.Covers roots) (hs : roots ⊆ roots') :
    a.Covers roots' := by
  intro t ht
  obtain ⟨r, hr, hreach⟩ := h t ht
  exact ⟨r, hs hr, hreach⟩

theorem shrinks (h : a.Covers roots) (hs : a.Shrinks b) : b.Covers roots := by
  intro t ht
  obtain ⟨r, hr, hreach⟩ := h t (hs.transGen ht)
  exact ⟨r, hr, hs.reaches ht hreach⟩

/-! ## sweeping -/

/-- The roots that are kept, and those that are still to be looked at, cover what is left. -/
theorem sweepRoot {s : Sweeping} {rest : List TableId}
    (h : s.arena.Covers (s.kept ++ root :: rest)) :
    (sweepRoot s root).arena.Covers ((sweepRoot s root).kept ++ rest) := by
  rcases sweepRoot_cases s root with ⟨e, hkept⟩ | ⟨e, -⟩ | ⟨ts, hring, hheld, e⟩
  · rw [e]
    intro t ht
    obtain ⟨r, hr, hreach⟩ := h t ht
    rcases List.mem_append.mp hr with hr | hr
    · exact ⟨r, List.mem_append_left _ hr, hreach⟩
    rcases List.mem_cons.mp hr with rfl | hr
    · -- the ring of this root has a root that is kept
      obtain ⟨ts, hts⟩ :=
        Option.isSome_iff_exists.mp (ring?_isSome.mpr (transGen_of_reaches ht hreach))
      obtain ⟨k, hk, hkts⟩ := hkept ts hts
      exact ⟨k, List.mem_append_left _ hk, hreach.trans (reaches_of_mem_ring hts hkts)⟩
    · exact ⟨r, List.mem_append_right _ hr, hreach⟩
  · rw [e]
    dsimp only
    rw [List.append_assoc]
    exact h
  · rw [e]
    have hs := shrinks_drain s.arena ts
    intro t ht
    obtain ⟨r, hr, hreach⟩ := h t (hs.transGen ht)
    have hreach' := hs.reaches ht hreach
    have hne : r ≠ root := by
      -- the root has been emptied with its ring
      rintro rfl
      obtain ⟨y, hy, -⟩ := TransGen.head'_iff.mp (transGen_of_reaches ht hreach')
      have hempty : (s.arena.drain ts).table r = Table.empty 0 := by
        rw [table_drain, if_pos (ring?_eq_some hring).2.2]
      unfold Linked metatable? at hy
      rw [hempty] at hy
      cases hy
    refine ⟨r, ?_, hreach'⟩
    rcases List.mem_append.mp hr with hr | hr
    · exact List.mem_append_left _ hr
    · exact List.mem_append_right _ ((List.mem_cons.mp hr).resolve_left hne)

theorem foldl_sweepRoot {rest : List TableId} {s : Sweeping}
    (h : s.arena.Covers (s.kept ++ rest)) :
    (rest.foldl Arena.sweepRoot s).arena.Covers (rest.foldl Arena.sweepRoot s).kept := by
  induction rest generalizing s with
  | nil =>
    rw [List.append_nil] at h
    exact h
  | cons root rest ih => exact ih h.sweepRoot

theorem drop (h : a.Covers a.roots) (t : TableId) : (a.drop t).Covers (a.drop t).roots := by
  rw [(reclaimed_drop a t).roots]
  exact h.shrinks (shrinks_drop a t)

theorem drops {garbage : List TableId} (h : a.Covers a.roots) :
    (garbage.foldl Arena.drop a).Covers (garbage.foldl Arena.drop a).roots := by
  induction garbage generalizing a with
  | nil => exact h
  | cons g garbage ih => exact ih (h.drop g)

/-- **A sweep keeps a root of every ring that it leaves.** -/
theorem collect (h : a.Covers a.roots) : a.collect.1.Covers a.collect.1.roots := by
  rw [collect_fst]
  refine drops ?_
  have hs : (a.sweepOver a.roots).arena.Covers (a.sweepOver a.roots).kept := foldl_sweepRoot h
  exact hs

theorem register (h : a.Covers (a.roots ++ [t])) : (a.register t).Covers (a.register t).roots := by
  unfold Arena.register
  dsimp only
  have h' : Covers { a with roots := a.roots ++ [t] } (a.roots ++ [t]) := h
  split
  · exact h'.collect
  · exact h'

end Covers

/-! ## setting a metatable -/

section link

variable {mt : Option TableId}

/-- The links after a metatable was set: the new one, and those of all other tables. -/
theorem linked_setTable {x y : TableId}
    (h : (a.setTable t { a.table t with metatable := mt }).Linked x y) :
    x = t ∧ mt = some y ∨ x ≠ t ∧ a.Linked x y := by
  unfold Linked metatable? at h
  rw [table_setTable] at h
  by_cases hx : x = t
  · left
    subst hx
    refine ⟨rfl, ?_⟩
    split at h
    · exact h
    · rename_i hno
      have hout : x ∉ a.ids := fun hin => hno ⟨rfl, hin⟩
      rw [table_of_not_mem hout] at h
      cases h
  · rw [if_neg fun e => hx e.1] at h
    exact .inr ⟨hx, h⟩

theorem linked_setTable_of_ne {x y : TableId} (hx : x ≠ t) (h : a.Linked x y) :
    (a.setTable t { a.table t with metatable := mt }).Linked x y := by
  unfold Linked metatable? at h ⊢
  rwa [table_setTable, if_neg fun e => hx e.1]

/-- A way to the table that got the new link does not need that link. -/
theorem reaches_of_setTable
    (h : ReflTransGen (a.setTable t { a.table t with metatable := mt }).Linked u t) :
    ReflTransGen a.Linked u t := by
  induction h using ReflTransGen.head_induction_on with
  | refl => exact .refl
  | head hxy _ ih =>
    rcases linked_setTable hxy with ⟨rfl, -⟩ | ⟨-, hl⟩
    · exact .refl
    · exact .head hl ih

/-- If a table with a new link lies on a ring, the link has closed it. -/
theorem closesRing_of_transGen
    (h : TransGen (a.setTable t { a.table t with metatable := mt }).Linked t t) :
    mt.any (a.closesRing t) = true := by
  obtain ⟨u, hu, hr⟩ := TransGen.head'_iff.mp h
  rcases linked_setTable hu with ⟨-, e⟩ | ⟨hne, -⟩
  · rw [e]
    exact reaches_iff.mpr (reaches_of_setTable hr)
  · exact absurd rfl hne

/-- A walk that does not meet the table with the new link is a walk along the old links. -/
theorem reaches_setTable_iff
    (hn : ¬ ReflTransGen (a.setTable t { a.table t with metatable := mt }).Linked u t)
    {w : TableId} :
    ReflTransGen (a.setTable t { a.table t with metatable := mt }).Linked u w ↔
      ReflTransGen a.Linked u w := by
  constructor
  · intro h
    induction h with
    | refl => exact .refl
    | @tail x y hx hxy ih =>
      rcases linked_setTable hxy with ⟨rfl, -⟩ | ⟨-, hl⟩
      · exact absurd hx hn
      · exact ih.tail hl
  · intro h
    induction h with
    | refl => exact .refl
    | @tail x y _ hxy ih =>
      have hx : x ≠ t := by
        rintro rfl
        exact hn ih
      exact ih.tail (linked_setTable_of_ne hx hxy)

/-- After a metatable was set, the old roots cover all rings, together with the table if its new
link closes a ring. -/
theorem Covers.setTable (h : a.Covers roots) {roots' : List TableId} (hs : roots ⊆ roots')
    (hc : mt.any (a.closesRing t) = true → t ∈ roots') :
    (a.setTable t { a.table t with metatable := mt }).Covers roots' := by
  intro x hx
  by_cases ht : ReflTransGen (a.setTable t { a.table t with metatable := mt }).Linked x t
  · exact ⟨t, hc (closesRing_of_transGen (transGen_of_reaches hx ht)), ht⟩
  · -- the ring of `x` does not contain the table, so it is an old one
    obtain ⟨y, hy, hyx⟩ := TransGen.head'_iff.mp hx
    have hy' : ¬ ReflTransGen (a.setTable t { a.table t with metatable := mt }).Linked y t :=
      fun e => ht (.head hy e)
    have hxy : a.Linked x y := by
      rcases linked_setTable hy with ⟨rfl, -⟩ | ⟨-, hl⟩
      · exact absurd .refl ht
      · exact hl
    obtain ⟨r, hr, hreach⟩ := h x (.head' hxy ((reaches_setTable_iff hy').mp hyx))
    exact ⟨r, hs hr, (reaches_setTable_iff ht).mpr hreach⟩

/-- **Setting a metatable registers the ring that it closes.** -/
theorem Covers.setMetatable (h : a.Covers a.roots) (t : TableId) (mt : Option TableId) :
    (a.setMetatable t mt).Covers (a.setMetatable t mt).roots := by
  have hr := reclaimed_settle (a.setTable t { a.table t with metatable := mt })
    (a.metatable? t).toList
  have hroots : (a.link t mt).roots = a.roots := hr.roots
  unfold Arena.setMetatable
  dsimp only
  split
  · refine register ?_
    rw [hroots]
    exact (h.setTable (List.subset_append_left _ _) fun _ => by simp).shrinks hr.shrinks
  · rename_i hc
    rw [hroots]
    exact (h.setTable (List.Subset.refl _) fun e => absurd e hc).shrinks hr.shrinks

end link

/-! ## what can happen to an arena -/

inductive Event where
  | create
  | hold (t : TableId)
  | drop (t : TableId)
  | put (t : TableId) (key value : Value)
  | setMetatable (t : TableId) (mt : Option TableId)
  | collect

def act (a : Arena) : Event → Arena
  | .create => a.create.1
  | .hold t => a.hold t
  | .drop t => a.drop t
  | .put t key value => a.put t key value
  | .setMetatable t mt => a.setMetatable t mt
  | .collect => a.collect.1

theorem shrinks_create (a : Arena) : a.Shrinks a.create.1 := by
  intro u
  have hl : a.create.1.tables.lookup u
      = if u = ⟨a.made⟩ then some (Table.empty 0) else a.tables.lookup u := by
    show List.lookup u ((⟨a.made⟩, Table.empty 0) :: a.tables) = _
    rw [List.lookup_cons]
    by_cases hu : u = ⟨a.made⟩
    · simp [hu]
    · have he : (u == ⟨a.made⟩) = false := by simpa using hu
      rw [he, if_neg hu]
  unfold table
  rw [hl]
  split
  · exact .inr rfl
  · exact .inl rfl

theorem Covers.of_metatables (h : a.Covers roots) (hm : ∀ t, b.metatable? t = a.metatable? t) :
    b.Covers roots := by
  have hsame : b.Linked = a.Linked := by
    funext x y
    unfold Linked
    rw [hm x]
  unfold Covers at h ⊢
  rw [hsame]
  exact h

/-- Storing entries leaves the links alone, but for those of tables that go. -/
theorem Covers.put (h : a.Covers a.roots) (t : TableId) (key value : Value) :
    (a.put t key value).Covers (a.put t key value).roots := by
  unfold Arena.put
  dsimp only
  cases hset : (a.table t).rawSet key value with
  | error e => exact h
  | ok table =>
    have hr := reclaimed_settle (a.setTable t table)
      (((a.table t).rawGet key).reference?.toList ++ (a.table t).hash.deadReferences)
    rw [hr.roots]
    refine Covers.shrinks (h.of_metatables fun u => ?_) hr.shrinks
    unfold metatable?
    rw [table_setTable]
    split
    · rename_i hu
      rw [Table.metatable_rawSet hset, hu.1]
    · rfl

theorem Covers.act (h : a.Covers a.roots) (e : Event) : (a.act e).Covers (a.act e).roots := by
  cases e with
  | create => exact h.shrinks (shrinks_create a)
  | hold t => exact h
  | drop t => exact h.drop t
  | put t key value => exact h.put t key value
  | setMetatable t mt => exact h.setMetatable t mt
  | collect => exact h.collect

theorem covers_empty : empty.Covers empty.roots := by
  intro t ht
  obtain ⟨u, hu, -⟩ := TransGen.head'_iff.mp ht
  cases hu

theorem covers_foldl_act (es : List Event) :
    (es.foldl act empty).Covers (es.foldl act empty).roots := by
  induction es using List.reverseRecOn with
  | nil => exact covers_empty
  | append_singleton es e ih =>
    rw [List.foldl_concat]
    exact ih.act e

/-- **Every ring of metatables is registered.**  Whatever has happened to an arena, tables that link
round to the first one have a registered table among them.  The search for a table along the links
ends on every arena, with the answer of `closesRing`, which says whether the owner is reached. -/
theorem rings_registered :
    (∀ (es : List Event) (ts : List TableId), (es.foldl act empty).IsRing ts →
      ∃ t ∈ ts, t ∈ (es.foldl act empty).roots) ∧
    (∀ (a : Arena) (owner mt : TableId),
      (∃ r, Search a owner [] mt r) ∧ (∀ r, Search a owner [] mt r → r = a.closesRing owner mt) ∧
      (a.closesRing owner mt = true ↔ ReflTransGen a.Linked mt owner)) := by
  refine ⟨fun es ts hts => (covers_foldl_act es).ring hts, fun a owner mt => ⟨?_, ?_, ?_⟩⟩
  · exact search_ends a owner List.nodup_nil (List.nil_subset _) mt
  · intro r hr
    exact Bool.eq_iff_iff.mpr (hr.iff.trans reaches_iff.symm)
  · exact reaches_iff

end Arena

end LuaMachine
