import LuaMachine.Proofs.SearchDepth

/-!
# What a search leaves behind

A trail is threaded through all choices of a search and changed in place: a capture takes the next
slot, and a closing parenthesis changes a slot that another item has filled.  Each of the two takes
back its own change when what follows it fails; the other items only pass the trail on.

* `Trail.Unchanged`      the slots in use are as they were;
* `Trail.Settled`        captures may have been closed on the way, and others added;
* `Attempt.Frames`       what the end of a search says about the trail it began with;
* `Attempt.undoes_follow`   every search for items leaves its trail so.

The slots past the level do not count: they hold what choices that failed have left there.
-/

namespace LuaMachine

/-- A capture after a search from `i` to `j`: it is as it was or, if it was open, it has been closed
and ends at a place between. -/
inductive Capture.Settles (i j : Nat) (c : Capture) : Capture → Prop where
  | kept : Settles i j c c
  | closed {length : Nat} : c.extent = .unfinished → i ≤ c.start + length → c.start + length ≤ j →
      Settles i j c ⟨c.start, .closed length⟩

theorem Capture.Settles.mono {i i' j : Nat} {c c' : Capture} (h : c.Settles i j c') (hi : i' ≤ i) :
    c.Settles i' j c' := by
  cases h with
  | kept => exact .kept
  | closed ho hlo hhi => exact .closed ho (Nat.le_trans hi hlo) hhi

namespace Trail

def OpenBefore (t : Trail) (i : Nat) : Prop :=
  ∀ n c, n < t.level → t.slots[n]? = some c → c.extent = .unfinished → c.start ≤ i

/-- A trail with the same slots in use. -/
structure Unchanged (t u : Trail) : Prop where
  level : u.level = t.level
  slots : ∀ n, n < t.level → u.slots[n]? = t.slots[n]?

/-- A trail after a search from `i` to `j`, seen from the slots in use before it. -/
structure Settled (i j : Nat) (t u : Trail) : Prop where
  level : t.level ≤ u.level
  slots : ∀ n c, n < t.level → t.slots[n]? = some c →
    ∃ c', u.slots[n]? = some c' ∧ c.Settles i j c'

variable {t u v : Trail} {i j n : Nat} {c : Capture} {e : Extent}

theorem OpenBefore.mono (h : t.OpenBefore i) (hij : i ≤ j) : t.OpenBefore j :=
  fun n c hn hc ho => Nat.le_trans (h n c hn hc ho) hij

theorem Unchanged.refl (t : Trail) : t.Unchanged t := ⟨rfl, fun _ _ => rfl⟩

theorem Unchanged.trans (h : t.Unchanged u) (h' : u.Unchanged v) : t.Unchanged v where
  level := h'.level.trans h.level
  slots := fun n hn => (h'.slots n (by rw [h.level]; exact hn)).trans (h.slots n hn)

theorem Unchanged.openBefore (h : t.Unchanged u) (ho : t.OpenBefore i) : u.OpenBefore i := by
  intro n c hn hc
  rw [h.level] at hn
  rw [h.slots n hn] at hc
  exact ho n c hn hc

theorem Settled.refl (i j : Nat) (t : Trail) : t.Settled i j t :=
  ⟨Nat.le_refl _, fun _ c _ hc => ⟨c, hc, .kept⟩⟩

theorem Settled.mono {i' : Nat} (h : Settled i j t u) (hi : i' ≤ i) : Settled i' j t u where
  level := h.level
  slots := by
    intro n c hn hc
    obtain ⟨c', hc', hs⟩ := h.slots n c hn hc
    exact ⟨c', hc', hs.mono hi⟩

theorem Settled.of_unchanged (h : t.Unchanged u) (hs : Settled i j u v) : Settled i j t v where
  level := by rw [← h.level]; exact hs.level
  slots := fun n c hn hc =>
    hs.slots n c (by rw [h.level]; exact hn) ((h.slots n hn).trans hc)

/-! ## a capture in the next slot -/

theorem getElem?_push (hn : n < t.level) (c : Capture) : (t.push c).slots[n]? = t.slots[n]? :=
  Array.getElem?_setIfInBounds_ne (Nat.ne_of_gt hn)

theorem OpenBefore.push (h : t.OpenBefore i) (e : Extent) : (t.push ⟨i, e⟩).OpenBefore i := by
  intro n c hn hc ho
  rcases Nat.lt_succ_iff_lt_or_eq.mp hn with hn | rfl
  · rw [getElem?_push hn] at hc
    exact h n c hn hc ho
  · have hslot : (t.slots.setIfInBounds t.level ⟨i, e⟩)[t.level]? = some c := hc
    rw [Array.getElem?_setIfInBounds, if_pos rfl] at hslot
    split at hslot
    · cases hslot
      exact Nat.le_refl i
    · cases hslot

theorem Unchanged.pop (h : (t.push c).Unchanged u) : t.Unchanged { u with level := t.level } where
  level := rfl
  slots := fun n hn => (h.slots n (Nat.lt_succ_of_lt hn)).trans (getElem?_push hn c)

theorem Settled.of_push (h : Settled i j (t.push c) u) : Settled i j t u where
  level := Nat.le_of_succ_le h.level
  slots := fun n c' hn hc =>
    h.slots n c' (Nat.lt_succ_of_lt hn) ((getElem?_push hn c).trans hc)

/-! ## a capture that is closed -/

theorem getElem?_reach (t : Trail) (n : Nat) (e : Extent) (k : Nat) :
    (t.reach n e).slots[k]? =
      if n = k then (t.slots[k]?).map ({ · with extent := e }) else t.slots[k]? := by
  show (t.slots.modify n _)[k]? = _
  rw [Array.getElem?_modify]

theorem OpenBefore.reach (h : t.OpenBefore i) (he : e ≠ .unfinished) :
    (t.reach n e).OpenBefore i := by
  intro k c hk hc ho
  rw [getElem?_reach] at hc
  split at hc
  · obtain ⟨c', _, rfl⟩ := Option.map_eq_some_iff.mp hc
    exact absurd ho he
  · exact h k c hk hc ho

theorem Unchanged.reopen (ho : ∀ c, t.slots[n]? = some c → c.extent = .unfinished)
    (h : (t.reach n e).Unchanged u) : t.Unchanged (u.reach n .unfinished) where
  level := h.level
  slots := by
    intro k hk
    have hu := h.slots k hk
    rw [getElem?_reach] at hu ⊢
    by_cases hnk : n = k
    · subst hnk
      rw [if_pos rfl] at hu ⊢
      rw [hu]
      cases hc : t.slots[n]? with
      | none => rfl
      | some c =>
        obtain ⟨a, x⟩ := c
        cases ho _ hc
        rfl
    · rw [if_neg hnk] at hu ⊢
      exact hu

theorem Settled.of_reach (ho : ∀ c, t.slots[n]? = some c → c.extent = .unfinished)
    {a : Nat} (ha : ∀ c, t.slots[n]? = some c → c.start = a ∧ a ≤ i) (hij : i ≤ j)
    (h : Settled i j (t.reach n (.closed (i - a))) u) : Settled i j t u where
  level := h.level
  slots := by
    intro k c hk hc
    have hslots := h.slots k
    rw [getElem?_reach] at hslots
    by_cases hnk : n = k
    · subst hnk
      rw [if_pos rfl, hc] at hslots
      obtain ⟨c', hc', hs⟩ := hslots _ hk rfl
      refine ⟨c', hc', ?_⟩
      obtain ⟨rfl, hle⟩ := ha c hc
      cases hs with
      | kept => exact .closed (ho c hc) (by omega) (by omega)
      | closed hopen => cases hopen
    · rw [if_neg hnk] at hslots
      exact hslots c hk hc

end Trail

namespace Attempt

/-- What the end of a search from a place says about the trail that it began with. -/
def Frames (i : Nat) (t : Trail) : Attempt → Prop
  | .fault _ => True
  | .failed u => t.Unchanged u
  | .matched j u => i ≤ j ∧ t.Settled i j u

/-- From every trail whose open captures start at the place or before it, a search from the place
that fails takes back what it has done. -/
def Undoes (i : Nat) (search : Trail → Attempt) : Prop :=
  ∀ t : Trail, t.OpenBefore i → Frames i t (search t)

variable {s : Bytes} {i m n depth : Nat} {t u : Trail} {r : Attempt}

theorem Frames.mono (h : Frames m t r) (him : i ≤ m) : Frames i t r := by
  cases r with
  | fault e => trivial
  | failed u => exact h
  | matched j u => exact ⟨Nat.le_trans him h.1, h.2.mono him⟩

theorem Frames.of_unchanged (hu : t.Unchanged u) (h : Frames i u r) : Frames i t r := by
  cases r with
  | fault e => trivial
  | failed v => exact hu.trans h
  | matched j v => exact ⟨h.1, h.2.of_unchanged hu⟩

theorem frames_failed (i : Nat) (t : Trail) : Frames i t (.failed t) := .refl t

theorem frames_matched (i : Nat) (t : Trail) : Frames i t (.matched i t) :=
  ⟨Nat.le_refl i, .refl i i t⟩

/-! ## single searches -/

section
variable {search : Trail → Attempt}

theorem Undoes.mono (h : Undoes m search) (him : i ≤ m) : Undoes i search :=
  fun t ho => (h t (ho.mono him)).mono him

theorem Undoes.nested (h : Undoes i search) (depth : Nat) : Undoes i (nested depth search) := by
  intro t ho
  unfold Attempt.nested
  split
  · trivial
  · exact h t ho

theorem Undoes.capturing (h : Undoes i search) (e : Extent) :
    Undoes i (capturing ⟨i, e⟩ search) := by
  intro t ho
  show Frames i t (if Trail.maxCaptures ≤ t.level then _ else _)
  split
  · trivial
  · have hf := h _ (ho.push e)
    cases hr : search (t.push ⟨i, e⟩) with
    | fault e => trivial
    | failed u =>
      rw [hr] at hf
      exact Trail.Unchanged.pop hf
    | matched j u =>
      rw [hr] at hf
      exact ⟨hf.1, hf.2.of_push⟩

theorem Undoes.closing (h : Undoes i search) : Undoes i (closing i search) := by
  intro t ho
  unfold Attempt.closing
  rcases t.lastUnfinished?_cases t.level with ⟨hnone, _⟩ | ⟨n, hsome, hn, hopen, _⟩
  · rw [hnone]
    trivial
  have hslot : ∀ c, t.slots[n]? = some c → t.slot n = c := by
    intro c hc
    unfold Trail.slot
    rw [Array.getD_eq_getD_getElem?, hc]
    rfl
  have hunfinished : ∀ c, t.slots[n]? = some c → c.extent = .unfinished :=
    fun c hc => hslot c hc ▸ hopen
  have hf := h _ (ho.reach (n := n) (e := .closed (i - (t.slot n).start)) Extent.noConfusion)
  rw [hsome]
  dsimp only
  cases hr : search (t.reach n (.closed (i - (t.slot n).start))) with
  | fault e => trivial
  | failed u =>
    rw [hr] at hf
    exact Trail.Unchanged.reopen hunfinished hf
  | matched j u =>
    rw [hr] at hf
    refine ⟨hf.1, .of_reach hunfinished (fun c hc => ?_) hf.1 hf.2⟩
    rw [hslot c hc]
    exact ⟨rfl, ho n c hn hc (hunfinished c hc)⟩

end

/-! ## repetitions -/

section
variable {search : Nat → Trail → Attempt} (h : ∀ m, i ≤ m → Undoes m (search m))
include h

theorem Undoes.farthestFirst (n : Nat) : Undoes i (farthestFirst search i n) := by
  induction n with
  | zero => exact h i (Nat.le_refl i)
  | succ n ih =>
    intro t ho
    have hlast := (h (i + (n + 1)) (Nat.le_add_right _ _)).mono (Nat.le_add_right _ _) t ho
    unfold Attempt.farthestFirst
    cases hr : search (i + (n + 1)) t with
    | fault e => trivial
    | matched j u =>
      rw [hr] at hlast
      exact hlast
    | failed u =>
      rw [hr] at hlast
      exact (ih u (hlast.openBefore ho)).of_unchanged hlast

theorem Undoes.nearestFirst (s : Bytes) (p : UInt8 → Bool) (n : Nat) :
    Undoes i (nearestFirst s p search i n) := by
  induction n generalizing i with
  | zero => exact h i (Nat.le_refl i)
  | succ n ih =>
    intro t ho
    have hfirst := h i (Nat.le_refl i) t ho
    unfold Attempt.nearestFirst
    cases hr : search i t with
    | fault e => trivial
    | matched j u =>
      rw [hr] at hfirst
      exact hfirst
    | failed u =>
      rw [hr] at hfirst
      dsimp only
      split
      · have hrest := (ih fun m hm => h m (Nat.le_of_succ_le hm)).mono (Nat.le_succ i)
        exact (hrest u (hfirst.openBefore ho)).of_unchanged hfirst
      · exact hfirst

end

theorem le_of_referenced {j : Nat} (h : referenced s n i t = .ok (some j)) : i ≤ j := by
  change (if _ then _ else _) = _ at h
  split at h
  · cases h
  · split at h
    · split at h
      · cases h
        exact Nat.le_add_right _ _
      · cases h
    · cases h

/-! ## items -/

/-- **A search that fails takes back what it has done.**  By induction on the items; an item goes on
at a later place, and only a parenthesis changes the trail itself. -/
theorem undoes_follow (s : Bytes) (is : List Item) (depth i : Nat) :
    Undoes i (follow s is depth i) := by
  induction is generalizing depth i with
  | nil => exact fun t _ => frames_matched i t
  | cons item is ih =>
    have hnext : ∀ j, Undoes j (Attempt.nested depth (follow s is (depth + 1) j)) :=
      fun j => (ih (depth + 1) j).nested depth
    have hlater : ∀ lo m, lo ≤ m → Undoes m (Attempt.nested depth (follow s is (depth + 1) m)) :=
      fun _ m _ => hnext m
    cases item with
    | element e r =>
      cases r with
      | once =>
        intro t ho
        rw [follow]
        split
        · exact (ih depth (i + 1)).mono (Nat.le_succ i) t ho
        · exact frames_failed i t
      | zeroOrMore => exact .farthestFirst (hlater i) _
      | oneOrMore =>
        intro t ho
        rw [follow]
        cases Subject.run s e.test i with
        | zero => exact frames_failed i t
        | succ n => exact (Undoes.farthestFirst (hlater (i + 1)) n).mono (Nat.le_succ i) t ho
      | fewest => exact .nearestFirst (hlater i) s e.test _
      | optional => exact .farthestFirst (hlater i) _
    | opening => exact (hnext i).capturing .unfinished
    | position => exact (hnext i).capturing .position
    | closing => exact (hnext i).closing
    | ending =>
      intro t ho
      rw [follow]
      split
      · exact frames_matched i t
      · exact frames_failed i t
    | balance x y =>
      intro t ho
      rw [follow]
      cases hb : Subject.balance? s x y i with
      | none => exact frames_failed i t
      | some j =>
        have hij : i + 1 < j := (Subject.balance?_eq_some_iff.mp hb).2.1
        exact (hnext j).mono (by omega) t ho
    | frontier set =>
      intro t ho
      rw [follow]
      split
      · exact hnext i t ho
      · exact frames_failed i t
    | reference n =>
      intro t ho
      rw [follow]
      cases hr : referenced s n i t with
      | error e => trivial
      | ok place =>
        cases place with
        | none => exact frames_failed i t
        | some j => exact (hnext j).mono (le_of_referenced hr) t ho

end Attempt

/-! ## from every token of a pattern -/

namespace Bytewise

variable {p : Bytes} {pp i q : Nat} {b : UInt8} {vs : List Nat}

theorem le_size_of_checkSet (h : checkSet p i = .ok q) : q ≤ p.size :=
  (setStop_of_bracket? (checkSet_eq_ok_iff.mp h)).2

theorem le_size_of_checkToken (hi : i < p.size) (h : checkToken p i b = .ok q) : q ≤ p.size := by
  unfold checkToken at h
  split at h
  · split at h
    · cases h
    rename_i hc
    have hlt : i + 1 < p.size := (Array.getElem?_eq_some_iff.mp hc).1
    split at h
    · split at h
      · cases h
      · cases h
        omega
    split at h
    · split at h
      · exact le_size_of_checkSet h
      · cases h
    · cases h
      omega
  split at h
  · exact le_size_of_checkSet h
  · cases h
    omega

/-- The check goes on from each place that it visits, over places visited. -/
theorem visits_of_mem (hi : i ≤ p.size) (h : visits p i = .ok vs) (hpp : pp ∈ vs) :
    pp ≤ p.size ∧ ∃ vs', visits p pp = .ok vs' ∧ ∀ v ∈ vs', v ∈ vs := by
  fun_induction visits p i generalizing vs with
  | case1 i hlt e he => cases h
  | case2 i hlt q hq _ ih =>
    obtain ⟨vs', hv, rfl⟩ := visits_of_map h
    rcases List.mem_cons.mp hpp with rfl | hmem
    · refine ⟨hi, pp :: vs', ?_, fun v hv => hv⟩
      have hrest : Rest p pp (p.toList.drop pp) := ⟨hi, rfl⟩
      rw [List.drop_eq_getElem_cons (by simpa using hlt), Array.getElem_toList] at hrest
      rw [visits_of_token hrest hq, hv]
      rfl
    · obtain ⟨hle, vs'', hv'', hsub⟩ := ih (le_size_of_checkToken hlt hq) hv hmem
      exact ⟨hle, vs'', hv'', fun v hv => List.mem_cons_of_mem i (hsub v hv)⟩
  | case3 i hlt =>
    cases h
    obtain rfl := List.mem_singleton.mp hpp
    refine ⟨hi, [pp], ?_, fun v hv => hv⟩
    rw [visits, dif_neg hlt]

end Bytewise

namespace Pattern

open Bytewise

/-- **A match that fails leaves its state as it found it.**  Take a pattern that passes the check,
any of its tokens, any place of any subject and any number of open searches, and a trail whose open
captures start at that place or before it.  A search that fails gives back the same slots in use;
one that matches keeps the slots that were in use, but may have closed some of their open captures
on its way; and a counter of open searches is afterwards what it was.  The search is the one on
bytes from that token on, which stays in range if the captures lie before the place. -/
theorem failed_match_undone (p : Bytes) (vs : List Nat) (h : Bytewise.visits p 0 = .ok vs) :
    ∀ pp ∈ vs, ∃ is, Item.readAll (p.toList.drop pp) = .ok is ∧
      ∀ (s : Bytes) (i depth : Nat) (t : Trail), t.OpenBefore i →
        ∃ r, Attempt.nested depth (Attempt.follow s is (depth + 1) i) t = r ∧
          (Counting.enter (Counting.follow s is i) t).run depth = (r, depth) ∧
          (∀ u, r = .failed u → t.Unchanged u) ∧
          (∀ j u, r = .matched j u → i ≤ j ∧ t.Settled i j u) ∧
          (i ≤ s.size → t.Sized → Placed i t.captures →
            nested? depth (follow? (fun v => vs.contains v) s p pp (depth + 1) i) t = some r) := by
  intro pp hpp
  obtain ⟨hle, vs', hv', hsub⟩ := visits_of_mem (Nat.zero_le _) h hpp
  have hbs : Rest p pp (p.toList.drop pp) := ⟨hle, rfl⟩
  obtain ⟨is, hread⟩ := readAll_of_visits hbs hv'
  refine ⟨is, hread, fun s i depth t ho => ⟨_, rfl, ?_, ?_, ?_, ?_⟩⟩
  · exact Counting.Keeps.enter (Counting.keeps_follow s is i) t depth
  · intro u hu
    have hf := (Attempt.undoes_follow s is (depth + 1) i).nested depth t ho
    rw [hu] at hf
    exact hf
  · intro j u hu
    have hf := (Attempt.undoes_follow s is (depth + 1) i).nested depth t ho
    rw [hu] at hf
    exact hf
  · intro hi ht hp
    have hall : ∀ v ∈ vs', vs.contains v = true :=
      fun v hv => List.contains_iff_mem.mpr (hsub v hv)
    exact ((realizes_follow hbs hread hv' hall hi hp (depth + 1)).nested depth).eq t ht rfl

/-- The pattern `(a*)b` after its opening parenthesis, from the second byte of `aac` and of `aab`,
with the capture open since the first one: on `aac` it is closed twice, and opened again each time.
-/
theorem failed_match_undone_reopened :
    let p : Bytes := #[0x28, 0x61, 0x2a, 0x29, 0x62]
    let t := Trail.empty.push ⟨0, .unfinished⟩
    ∃ is, Item.readAll (p.toList.drop 1) = .ok is ∧
      (∃ u, Attempt.nested 7 (Attempt.follow #[0x61, 0x61, 0x63] is 8 1) t = .failed u ∧
        t.Unchanged u) ∧
      ∃ u, Attempt.nested 7 (Attempt.follow #[0x61, 0x61, 0x62] is 8 1) t = .matched 3 u ∧
        t.Settled 1 3 u ∧ u.slots[0]? = some ⟨0, .closed 2⟩ := by
  intro p t
  have hv : Bytewise.visits p 0 = .ok [0, 1, 2, 3, 4, 5] := by decide +kernel
  have hopen : t.OpenBefore 1 := by
    intro n c hn hc _
    obtain rfl : n = 0 := Nat.lt_one_iff.mp hn
    cases hc
    exact Nat.zero_le 1
  have hitems : Item.readAll (p.toList.drop 1) = .ok [.element (.byte 0x61) .zeroOrMore, .closing,
      .element (.byte 0x62) .once] := by
    decide +kernel
  obtain ⟨is, hread, hsearch⟩ := failed_match_undone p _ hv 1 (by decide)
  cases hread.symm.trans hitems
  obtain ⟨_, rfl, -, hfailed, -, -⟩ := hsearch #[0x61, 0x61, 0x63] 1 7 t hopen
  obtain ⟨_, rfl, -, -, hmatched, -⟩ := hsearch #[0x61, 0x61, 0x62] 1 7 t hopen
  refine ⟨_, hread, ⟨t, ?_, hfailed t ?_⟩, Trail.empty.push ⟨0, .closed 2⟩, ?_,
    (hmatched 3 _ ?_).2, rfl⟩
  all_goals decide +kernel

end Pattern

end LuaMachine
