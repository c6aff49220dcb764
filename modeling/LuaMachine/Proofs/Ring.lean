import Mathlib.Data.List.Chain
import Mathlib.Data.List.Perm.Subperm
import Mathlib.Logic.Relation
import LuaMachine.Arena.Ring
import LuaMachine.Proofs.Arena

/-!
# Links and rings of metatables

Each table has at most one metatable, so the links form a graph in which every walk is determined by
its first table.

* `Arena.Linked`    a table and its metatable;
* `Arena.Search`    the walk that looks for a table and keeps a list of the tables it has met;
* `Arena.IsRing`    tables each of which links to the next, and the last to the first.

The search ends on every graph, and its answer is the one that `Arena.closesRing` computes within a
number of tables fixed beforehand.  `Arena.ring?` gives the members of a ring exactly for the tables
that lie on one.
-/

namespace LuaMachine.Arena

open Relation

variable {a b : Arena} {t u w goal root : TableId} {seen ts : List TableId}

def Linked (a : Arena) (t u : TableId) : Prop := a.metatable? t = some u

theorem Linked.unique (h : a.Linked t u) (h' : a.Linked t w) : u = w :=
  Option.some.inj (h.symm.trans h')

theorem Shrinks.linked (h : a.Shrinks b) (hl : b.Linked t u) : a.Linked t u := by
  unfold Linked metatable? at hl ⊢
  rcases h t with e | e
  · rwa [e] at hl
  · rw [e] at hl
    cases hl

theorem Linked.isAlive (h : a.Linked t u) : a.isAlive u = true := by
  rw [isAlive_iff, mem_handles]
  refine .inr ⟨t, a.table t, mem_table (mem_ids_of_metatable h), ?_⟩
  have hm : (a.table t).metatable = some u := h
  unfold Table.references Table.contents
  rw [hm]
  simp

/-! ## searching along the links -/

/-- The walk that looks for `goal`, from a table on, when the tables in `seen` have been met before:
it is found, or the walk is back at a table that it has met, or there is no metatable. -/
inductive Search (a : Arena) (goal : TableId) : List TableId → TableId → Bool → Prop
  | found {seen : List TableId} : Search a goal seen goal true
  | again {seen : List TableId} {t : TableId} (differs : t ≠ goal) (met : t ∈ seen) :
      Search a goal seen t false
  | ends {seen : List TableId} {t : TableId} (differs : t ≠ goal) (new : t ∉ seen)
      (last : a.metatable? t = none) : Search a goal seen t false
  | next {seen : List TableId} {t u : TableId} {r : Bool} (differs : t ≠ goal) (new : t ∉ seen)
      (link : a.Linked t u) (rest : Search a goal (t :: seen) u r) : Search a goal seen t r

/-- A walk meets each table at most once, and there are no more tables than are listed. -/
theorem length_le_of_nodup (hn : seen.Nodup) (hs : seen ⊆ a.ids) :
    seen.length ≤ a.tables.length := by
  have h := (hn.subperm hs).length_le
  unfold ids at h
  rwa [List.length_map] at h

/-- The search ends, whatever the links are: every step meets one table more. -/
theorem search_ends (a : Arena) (goal : TableId) {seen : List TableId} (hn : seen.Nodup)
    (hs : seen ⊆ a.ids) (t : TableId) : ∃ r, Search a goal seen t r := by
  by_cases hg : t = goal
  · exact ⟨true, hg ▸ .found⟩
  by_cases hm : t ∈ seen
  · exact ⟨false, .again hg hm⟩
  cases hl : a.metatable? t with
  | none => exact ⟨false, .ends hg hm hl⟩
  | some u =>
    have hn' := List.nodup_cons.mpr ⟨hm, hn⟩
    have hs' := List.cons_subset.mpr ⟨mem_ids_of_metatable hl, hs⟩
    have hlen : seen.length + 1 ≤ a.tables.length := length_le_of_nodup hn' hs'
    obtain ⟨r, hr⟩ := search_ends a goal hn' hs' u
    exact ⟨r, .next hg hm hl hr⟩
termination_by a.tables.length - seen.length
decreasing_by
  rw [List.length_cons]
  omega

theorem Search.reaches (h : Search a goal seen t true) : ReflTransGen a.Linked t goal := by
  generalize hr : true = r at h
  induction h with
  | found => exact .refl
  | again => cases hr
  | ends => cases hr
  | next _ _ hl _ ih => exact .head hl (ih hr)

/-- What a set of tables that is closed under links does not contain is not reached from it. -/
theorem not_reaches_of_closed {s : TableId → Prop} (hc : ∀ x y, s x → a.Linked x y → s y)
    (ht : s t) (hg : ¬ s goal) : ¬ ReflTransGen a.Linked t goal := by
  intro h
  induction h with
  | refl => exact hg ht
  | @tail x y hx hxy ih =>
    have hsx : s x := by
      by_contra hn
      exact ih hn
    exact hg (hc x y hsx hxy)

/-- A search that comes back without the goal: the links of the tables met lead to tables met or to
the one it stands on, and none of them is the goal. -/
theorem Search.not_reaches (h : Search a goal seen t false) (hg : goal ∉ seen)
    (hc : ∀ x ∈ seen, ∀ y, a.Linked x y → y = t ∨ y ∈ seen) : ¬ ReflTransGen a.Linked t goal := by
  generalize hr : false = r at h
  induction h with
  | found => cases hr
  | @again seen t _ hm =>
    refine not_reaches_of_closed (s := (· ∈ seen)) (fun x y hx hl => ?_) hm hg
    rcases hc x hx y hl with rfl | hy
    · exact hm
    · exact hy
  | @ends seen t hd _ hl =>
    refine not_reaches_of_closed (s := (· = t)) (fun x y hx hxy => ?_) rfl (Ne.symm hd)
    subst hx
    cases hl.symm.trans hxy
  | @next seen t u r hd _ hl _ ih =>
    have hrest : ¬ ReflTransGen a.Linked u goal := by
      refine ih ?_ ?_ hr
      · rw [List.mem_cons, not_or]
        exact ⟨Ne.symm hd, hg⟩
      · intro x hx y hxy
        rcases List.mem_cons.mp hx with rfl | hx
        · exact .inl (hxy.unique hl)
        · rcases hc x hx y hxy with rfl | hy
          · exact .inr List.mem_cons_self
          · exact .inr (List.mem_cons_of_mem _ hy)
    intro hreach
    rcases hreach.cases_head with rfl | ⟨y, hy, hyg⟩
    · exact hd rfl
    · rw [hy.unique hl] at hyg
      exact hrest hyg

theorem Search.iff {r : Bool} (h : Search a goal [] t r) :
    r = true ↔ ReflTransGen a.Linked t goal := by
  cases r with
  | true => exact iff_of_true rfl h.reaches
  | false => exact iff_of_false nofun (h.not_reaches List.not_mem_nil nofun)

/-! ## searching within a number of tables -/

theorem reachesWithin_sound {fuel : Nat} (h : a.reachesWithin goal fuel t = true) :
    ReflTransGen a.Linked t goal := by
  induction fuel generalizing t with
  | zero => cases h
  | succ fuel ih =>
    unfold reachesWithin at h
    rw [Bool.or_eq_true, beq_iff_eq] at h
    rcases h with rfl | h
    · exact .refl
    · cases hl : a.metatable? t with
      | none =>
        rw [hl] at h
        cases h
      | some u =>
        rw [hl] at h
        exact .head hl (ih h)

/-- As many tables as there are and one more are enough for every search. -/
theorem Search.within (h : Search a goal seen t true) (hn : seen.Nodup) (hs : seen ⊆ a.ids)
    {fuel : Nat} (hf : a.tables.length + 1 ≤ fuel + seen.length) :
    a.reachesWithin goal fuel t = true := by
  generalize hr : true = r at h
  induction h generalizing fuel with
  | @found seen =>
    have := length_le_of_nodup hn hs
    obtain ⟨fuel, rfl⟩ : ∃ n, fuel = n + 1 := ⟨fuel - 1, by omega⟩
    unfold reachesWithin
    simp
  | again => cases hr
  | ends => cases hr
  | @next seen t u r _ hm hl _ ih =>
    have hn' := List.nodup_cons.mpr ⟨hm, hn⟩
    have hs' := List.cons_subset.mpr ⟨mem_ids_of_metatable hl, hs⟩
    have := length_le_of_nodup hn hs
    obtain ⟨fuel, rfl⟩ : ∃ n, fuel = n + 1 := ⟨fuel - 1, by omega⟩
    subst hr
    have hlen : a.tables.length + 1 ≤ fuel + (t :: seen).length := by
      rw [List.length_cons]
      omega
    have hl' : a.metatable? t = some u := hl
    unfold reachesWithin
    rw [hl', Bool.or_eq_true]
    exact .inr (ih hn' hs' hlen rfl)

/-- **Reaching along links is decided by `Arena.reaches`.** -/
theorem reaches_iff : a.reaches t goal = true ↔ ReflTransGen a.Linked t goal := by
  constructor
  · exact reachesWithin_sound
  · intro h
    obtain ⟨r, hr⟩ := search_ends a goal List.nodup_nil (List.nil_subset _) t
    cases hr.iff.mpr h
    exact hr.within List.nodup_nil (List.nil_subset _) le_rfl

/-! ## rings -/

/-- Tables each of which links to the next, and the last to the first. -/
def IsRing (a : Arena) : List TableId → Prop
  | [] => False
  | t :: ts => List.IsChain a.Linked (t :: ts ++ [t])

theorem Shrinks.isRing (h : a.Shrinks b) (hr : b.IsRing ts) : a.IsRing ts := by
  cases ts with
  | nil => exact hr
  | cons t ts => exact List.IsChain.imp (fun _ _ => h.linked) hr

theorem IsRing.linked (h : a.IsRing ts) (ht : t ∈ ts) : ∃ u ∈ ts, a.Linked t u := by
  cases ts with
  | nil => cases ht
  | cons s ts =>
    obtain ⟨l₁, l₂, hl⟩ := List.append_of_mem ht
    have hc : List.IsChain a.Linked (l₁ ++ t :: (l₂ ++ [s])) := by
      have hc : List.IsChain a.Linked (s :: ts ++ [s]) := h
      rw [hl, List.append_assoc, List.cons_append] at hc
      exact hc
    cases hn : l₂ ++ [s] with
    | nil => simp at hn
    | cons u l₃ =>
      rw [hn] at hc
      have hlink : a.Linked t u :=
        (List.isChain_cons_cons.mp (List.isChain_append.mp hc).2.1).1
      have hu : u ∈ l₂ ++ [s] := hn ▸ List.mem_cons_self
      refine ⟨u, ?_, hlink⟩
      rcases List.mem_append.mp hu with hu | hu
      · rw [hl]
        exact List.mem_append_right _ (List.mem_cons_of_mem _ hu)
      · rw [List.mem_singleton.mp hu]
        exact List.mem_cons_self

theorem IsRing.subset_ids (h : a.IsRing ts) : ts ⊆ a.ids := by
  intro t ht
  obtain ⟨u, -, hu⟩ := h.linked ht
  exact mem_ids_of_metatable hu

theorem IsRing.mem_of_reaches (h : a.IsRing ts) (ht : t ∈ ts)
    (hr : ReflTransGen a.Linked t u) : u ∈ ts := by
  induction hr with
  | refl => exact ht
  | tail _ hl ih =>
    obtain ⟨w, hw, hw'⟩ := h.linked ih
    rwa [hl.unique hw']

theorem transGen_of_isChain (h : List.IsChain a.Linked (t :: ts ++ [u])) :
    TransGen a.Linked t u := by
  induction ts generalizing t with
  | nil => exact .single (List.isChain_cons_cons.mp h).1
  | cons s ts ih =>
    obtain ⟨h1, h2⟩ := List.isChain_cons_cons.mp h
    exact .head h1 (ih h2)

theorem IsRing.head_transGen (h : a.IsRing (t :: ts)) : TransGen a.Linked t t :=
  transGen_of_isChain h

/-! ## the ring of a table -/

theorem membersUpTo_isSome (a : Arena) (root : TableId) (fuel : Nat) (t : TableId) :
    (a.membersUpTo root fuel t).isSome = (a.metatable? t).any (a.reachesWithin root fuel) := by
  induction fuel generalizing t with
  | zero =>
    cases a.metatable? t <;> rfl
  | succ fuel ih =>
    unfold membersUpTo
    cases hl : a.metatable? t with
    | none => rfl
    | some u =>
      dsimp only [Option.any_some]
      unfold reachesWithin
      by_cases hu : u = root
      · simp [hu]
      · have he : (u == root) = false := by simpa using hu
        rw [he, Bool.false_or, if_neg Bool.false_ne_true, Option.isSome_map, ih]
        cases a.metatable? u <;> rfl

theorem ring?_isSome : (a.ring? root).isSome = true ↔ TransGen a.Linked root root := by
  unfold ring?
  rw [membersUpTo_isSome, TransGen.head'_iff]
  constructor
  · intro h
    obtain ⟨u, hu, hr⟩ := (Option.any_eq_true _ _).mp h
    exact ⟨u, hu, reachesWithin_sound hr⟩
  · rintro ⟨u, hu, hr⟩
    exact (Option.any_eq_true _ _).mpr ⟨u, hu, reaches_iff.mpr hr⟩

theorem membersUpTo_chain {fuel : Nat} (h : a.membersUpTo root fuel t = some ts) :
    ∃ rest, ts = t :: rest ∧ root ∉ rest ∧ List.IsChain a.Linked (t :: rest ++ [root]) := by
  induction fuel generalizing t ts with
  | zero => cases h
  | succ fuel ih =>
    unfold membersUpTo at h
    cases hl : a.metatable? t with
    | none =>
      rw [hl] at h
      cases h
    | some u =>
      rw [hl] at h
      dsimp only at h
      by_cases hu : u = root
      · rw [if_pos (by simpa using hu)] at h
        cases h
        exact ⟨[], rfl, List.not_mem_nil, by simpa [Linked, hu] using hl⟩
      · rw [if_neg (by simpa using hu)] at h
        obtain ⟨us, hus, rfl⟩ := Option.map_eq_some_iff.mp h
        obtain ⟨rest, rfl, hroot, hc⟩ := ih hus
        refine ⟨u :: rest, rfl, ?_, List.isChain_cons_cons.mpr ⟨hl, hc⟩⟩
        rw [List.mem_cons, not_or]
        exact ⟨Ne.symm hu, hroot⟩

/-- A way along the links to `root` that does not pass it before meets each table once. -/
theorem nodup_of_chain {rest : List TableId} (hc : List.IsChain a.Linked (t :: rest ++ [root]))
    (hroot : root ∉ rest) : (t :: rest).Nodup := by
  induction rest generalizing t with
  | nil => exact List.nodup_singleton t
  | cons u rest ih =>
    rw [List.mem_cons, not_or] at hroot
    obtain ⟨hl, hc'⟩ := List.isChain_cons_cons.mp hc
    have hn := ih hc' hroot.2
    refine List.nodup_cons.mpr ⟨fun ht => ?_, hn⟩
    -- a table that is met again lies on a ring, on which `root` would have been met
    obtain ⟨l₁, l₂, hl₁⟩ := List.append_of_mem ht
    have hring : a.IsRing (t :: l₁) := by
      have hc : List.IsChain a.Linked ((t :: l₁ ++ [t]) ++ (l₂ ++ [root])) := by
        have e : t :: (u :: rest) ++ [root] = (t :: l₁ ++ [t]) ++ (l₂ ++ [root]) := by
          rw [hl₁]
          simp
        rw [← e]
        exact hc
      exact (List.isChain_append.mp hc).1
    have hreach : ReflTransGen a.Linked t root := (transGen_of_isChain hc).to_reflTransGen
    have hmem : root ∈ t :: l₁ := hring.mem_of_reaches List.mem_cons_self hreach
    have hin : root ∈ u :: rest := by
      rcases List.mem_cons.mp hmem with rfl | hmem
      · exact ht
      · rw [hl₁]
        exact List.mem_append_left _ hmem
    rcases List.mem_cons.mp hin with h | h
    · exact hroot.1 h
    · exact hroot.2 h

/-- **The ring of a table**: the members that are given form a ring, each of them once. -/
theorem ring?_eq_some (h : a.ring? root = some ts) :
    a.IsRing ts ∧ ts.Nodup ∧ root ∈ ts := by
  obtain ⟨rest, rfl, hroot, hc⟩ := membersUpTo_chain h
  exact ⟨hc, nodup_of_chain hc hroot, List.mem_cons_self⟩

end LuaMachine.Arena
