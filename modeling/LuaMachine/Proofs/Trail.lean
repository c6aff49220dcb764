import Mathlib.Data.List.Basic
import LuaMachine.Pattern.Trail

/-!
# Trails as lists of captures

A trail has a fixed number of slots; what counts are those in use.

* `Trail.captures`   the captures in use, the first one first;
* `Trail.Sized`      no slot is missing, and no more are in use;
* `Trail.Restores`   a trail with the captures of another one;
* `LastOpen`         the capture that a closing parenthesis closes.

Each change of a trail is a change of the list.  What stands in the other slots, left there by choices
that failed or by earlier attempts, is never read.
-/

namespace LuaMachine

/-- The last capture that is still open, and where it starts. -/
def LastOpen (cs : List Capture) (n start : Nat) : Prop :=
  cs[n]? = some ⟨start, .unfinished⟩ ∧
    ∀ m c, n < m → cs[m]? = some c → c.extent ≠ .unfinished

theorem LastOpen.unique {cs : List Capture} {n n' a a' : Nat} (h : LastOpen cs n a)
    (h' : LastOpen cs n' a') : n = n' ∧ a = a' := by
  have hn : n = n' := by
    rcases Nat.lt_trichotomy n n' with hlt | he | hgt
    · exact absurd rfl (h.2 n' _ hlt h'.1)
    · exact he
    · exact absurd rfl (h'.2 n _ hgt h.1)
  subst hn
  have e := h.1.symm.trans h'.1
  simp only [Option.some.injEq, Capture.mk.injEq, and_true] at e
  exact ⟨rfl, e⟩

namespace Trail

def captures (t : Trail) : List Capture := t.slots.toList.take t.level

structure Sized (t : Trail) : Prop where
  slots : t.slots.size = maxCaptures
  level : t.level ≤ maxCaptures

def Restores (t u : Trail) : Prop := u.Sized ∧ u.captures = t.captures

variable {t u v : Trail} {n : Nat}

theorem Restores.refl (h : t.Sized) : t.Restores t := ⟨h, rfl⟩

theorem Restores.trans (h₁ : t.Restores u) (h₂ : u.Restores v) : t.Restores v :=
  ⟨h₂.1, h₂.2.trans h₁.2⟩

theorem length_captures (h : t.Sized) : t.captures.length = t.level := by
  unfold captures
  rw [List.length_take, Array.length_toList, h.slots]
  exact Nat.min_eq_left h.level

theorem level_eq (h : t.Restores u) (ht : t.Sized) : u.level = t.level := by
  rw [← length_captures h.1, h.2, length_captures ht]

theorem captures_cleared (t : Trail) : t.cleared.captures = [] := rfl

theorem sized_cleared (h : t.slots.size = maxCaptures) : t.cleared.Sized := ⟨h, Nat.zero_le _⟩

/-! ## reading a slot -/

theorem getElem?_captures (h : t.Sized) {i : Nat} (hi : i < t.level) :
    t.captures[i]? = some (t.slot i) := by
  have hs : i < t.slots.size := by
    have := h.level
    rw [h.slots]
    omega
  unfold captures slot
  rw [List.getElem?_take_of_lt hi, Array.getElem?_toList, Array.getD_eq_getD_getElem?,
    Array.getElem?_eq_getElem hs]
  rfl

theorem getElem?_captures_iff (h : t.Sized) {i : Nat} {c : Capture} :
    t.captures[i]? = some c ↔ i < t.level ∧ t.slot i = c := by
  constructor
  · intro e
    have hi : i < t.level := by
      rw [← length_captures h]
      exact (List.getElem?_eq_some_iff.mp e).1
    rw [getElem?_captures h hi] at e
    exact ⟨hi, Option.some.inj e⟩
  · rintro ⟨hi, rfl⟩
    exact getElem?_captures h hi

/-! ## changing slots -/

theorem Sized.push (h : t.Sized) (hl : t.level < maxCaptures) (c : Capture) : (t.push c).Sized := by
  refine ⟨?_, hl⟩
  show (t.slots.setIfInBounds t.level c).size = _
  rw [Array.size_setIfInBounds, h.slots]

theorem captures_push (h : t.Sized) (hl : t.level < maxCaptures) (c : Capture) :
    (t.push c).captures = t.captures ++ [c] := by
  have hlen : t.level < t.slots.toList.length := by
    rw [Array.length_toList, h.slots]
    exact hl
  show (t.slots.setIfInBounds t.level c).toList.take (t.level + 1) = _
  rw [Array.toList_setIfInBounds, List.take_add_one, List.take_set_of_le (Nat.le_refl _),
    List.getElem?_set_self hlen]
  rfl

theorem restores_level (ht : t.Sized) (hl : t.level < maxCaptures) {c : Capture}
    (hu : (t.push c).Restores u) : t.Restores { u with level := t.level } := by
  refine ⟨⟨hu.1.slots, ht.level⟩, ?_⟩
  have hlev : u.level = t.level + 1 := level_eq hu (ht.push hl c)
  have e := hu.2
  rw [captures_push ht hl] at e
  show u.slots.toList.take t.level = _
  have e' : u.slots.toList.take t.level = u.captures.take t.level := by
    unfold captures
    rw [List.take_take, hlev, Nat.min_eq_left (Nat.le_succ _)]
  rw [e', e, List.take_left' (length_captures ht)]

theorem Sized.reach (h : t.Sized) (n : Nat) (e : Extent) : (t.reach n e).Sized := by
  refine ⟨?_, h.level⟩
  show (t.slots.modify n _).size = _
  rw [Array.size_modify, h.slots]

theorem captures_reach (t : Trail) (n : Nat) (e : Extent) :
    (t.reach n e).captures = t.captures.modify n ({ · with extent := e }) := by
  show (t.slots.modify n _).toList.take t.level = _
  rw [Array.toList_modify, List.take_modify]
  rfl

theorem captures_reach_eq_set {a : Nat} {x : Extent} (hn : t.captures[n]? = some ⟨a, x⟩)
    (e : Extent) : (t.reach n e).captures = t.captures.set n ⟨a, e⟩ := by
  rw [captures_reach, List.modify_eq_set_getElem?, hn]
  rfl

theorem restores_reach {a : Nat} {e : Extent} (hn : t.captures[n]? = some ⟨a, .unfinished⟩)
    (hu : (t.reach n e).Restores u) : t.Restores (u.reach n .unfinished) := by
  refine ⟨hu.1.reach n _, ?_⟩
  have hlen : n < t.captures.length := (List.getElem?_eq_some_iff.mp hn).1
  have hset : u.captures[n]? = some ⟨a, e⟩ := by
    rw [hu.2, captures_reach_eq_set hn, List.getElem?_set_self hlen]
  rw [captures_reach_eq_set hset, hu.2, captures_reach_eq_set hn, List.set_set]
  obtain ⟨hlt, hget⟩ := List.getElem?_eq_some_iff.mp hn
  rw [← hget]
  exact List.set_getElem_self hlt

/-! ## the capture that is closed -/

theorem lastUnfinished?_cases (t : Trail) (n : Nat) :
    (t.lastUnfinished? n = none ∧ ∀ m, m < n → (t.slot m).extent ≠ .unfinished) ∨
    ∃ k, t.lastUnfinished? n = some k ∧ k < n ∧ (t.slot k).extent = .unfinished ∧
      ∀ m, k < m → m < n → (t.slot m).extent ≠ .unfinished := by
  induction n with
  | zero => exact .inl ⟨rfl, fun m hm => absurd hm (Nat.not_lt_zero m)⟩
  | succ n ih =>
    unfold lastUnfinished?
    by_cases hn : (t.slot n).extent = .unfinished
    · rw [if_pos hn]
      exact .inr ⟨n, rfl, Nat.lt_succ_self n, hn, fun m h1 h2 => absurd h1 (by omega)⟩
    · rw [if_neg hn]
      rcases ih with ⟨e, h⟩ | ⟨k, e, hk, hu, h⟩
      · refine .inl ⟨e, fun m hm => ?_⟩
        rcases Nat.lt_succ_iff_lt_or_eq.mp hm with hm | rfl
        · exact h m hm
        · exact hn
      · refine .inr ⟨k, e, Nat.lt_succ_of_lt hk, hu, fun m h1 h2 => ?_⟩
        rcases Nat.lt_succ_iff_lt_or_eq.mp h2 with h2 | rfl
        · exact h m h1 h2
        · exact hn

/-- Looking for the last unfinished slot finds the last open capture. -/
theorem lastUnfinished?_spec (h : t.Sized) :
    (t.lastUnfinished? t.level = none ∧ ∀ n a, ¬ LastOpen t.captures n a) ∨
    ∃ n a, t.lastUnfinished? t.level = some n ∧ (t.slot n).start = a ∧
      LastOpen t.captures n a := by
  rcases t.lastUnfinished?_cases t.level with ⟨e, hno⟩ | ⟨k, e, hk, hu, hlast⟩
  · refine .inl ⟨e, fun n a ho => ?_⟩
    obtain ⟨hn, hs⟩ := (getElem?_captures_iff h).mp ho.1
    exact hno n hn (by rw [hs])
  · refine .inr ⟨k, (t.slot k).start, e, rfl, ?_, fun m c hm hc => ?_⟩
    · rw [getElem?_captures h hk, ← hu]
    · obtain ⟨hml, rfl⟩ := (getElem?_captures_iff h).mp hc
      exact hlast m hm hml

end Trail

end LuaMachine
