import LuaMachine.Proofs.Placement

/-!
# Iterators advance and stop

A call of an iterator that finds a match leaves the cursor at the end of that match, and no later
match ends there; a call that finds none leaves it past the end of the subject, where there is
nothing more to find.  So each match uses up at least one of the places at which a match can end.

* `Cursor.calls`      what calls one after the other give;
* `Cursor.Advances`   what one call does to the cursor;
* `Cursor.remaining`  the places at which matches may still end.
-/

namespace LuaMachine

namespace Cursor

/-- What `n` calls one after the other give. -/
def calls (s p : Bytes) : Nat → Cursor → List (Except PatternError (Option Match))
  | 0, _ => []
  | n + 1, c => (c.next s p).1 :: calls s p n (c.next s p).2

def reported? : Except PatternError (Option Match) → Option Match
  | .ok m => m
  | .error _ => none

def reported (rs : List (Except PatternError (Option Match))) : List Match := rs.filterMap reported?

/-! ## one call -/

/-- What one call does.  It may also report that a match has an unfinished capture, and then goes on
as if it had reported the match. -/
inductive Advances (s p : Bytes) (c : Cursor) : Except PatternError (Option Match) → Cursor → Prop
  | fault {e : PatternError} : Advances s p c (.error e) c
  | ended {is : List Item} : Item.readAll p.toList = .ok is →
      Advances s p c (.ok none) { c with place := s.size + 1 }
  | passed {e : PatternError} {stop : Nat} : c.place ≤ stop → stop ≤ s.size → some stop ≠ c.last →
      Advances s p c (.error e) ⟨stop, some stop⟩
  | found {m : Match} : c.place ≤ m.start → m.start ≤ m.stop → m.stop ≤ s.size →
      some m.stop ≠ c.last → Advances s p c (.ok (some m)) ⟨m.stop, some m.stop⟩

theorem advances_next (s p : Bytes) (c : Cursor) : Advances s p c (c.next s p).1 (c.next s p).2 := by
  rcases Pattern.next_cases s p c with
    ⟨e, hn⟩ | ⟨is, hread, hn | ⟨a, j, t, u, hplace, ha, hlast, ht, hmatch, hn⟩⟩
  · rw [hn]
    exact .fault
  · rw [hn]
    exact .ended hread
  · obtain ⟨_, ks, hk⟩ := attempt_matched (Item.endsLast_readAll hread) ha ht hmatch
    obtain ⟨hle, hstop, _⟩ := hk.1.inside ha (Placed.nil _)
    rw [hn]
    cases u.captured with
    | error e => exact .passed (Nat.le_trans hplace hle) hstop hlast
    | ok cs => exact .found hplace hle hstop hlast

/-- The last match, if there was one, ended in the subject and not past the cursor. -/
def Sound (s : Bytes) (c : Cursor) : Prop := ∀ l, c.last = some l → l ≤ c.place ∧ l ≤ s.size

/-- How many places there are at which a match may still end. -/
def remaining (s : Bytes) (c : Cursor) : Nat :=
  match c.last with
  | none => s.size + 1 - c.place
  | some l => s.size - l

/-- A match that may be found from a cursor on. -/
structure Beyond (s : Bytes) (c : Cursor) (m : Match) : Prop where
  place_le : c.place ≤ m.start
  start_le : m.start ≤ m.stop
  stop_le : m.stop ≤ s.size
  lt_stop : ∀ l, c.last = some l → l < m.stop

variable {s p : Bytes} {c c' : Cursor} {r : Except PatternError (Option Match)} {n stop : Nat}

theorem sound_start (s : Bytes) (init : Nat) : (start init).Sound s :=
  fun _ h => absurd h.symm (Option.some_ne_none _)

theorem sound_at (hstop : stop ≤ s.size) : Sound s ⟨stop, some stop⟩ := by
  intro l hl
  cases hl
  exact ⟨Nat.le_refl _, hstop⟩

theorem Sound.lt_stop (hc : c.Sound s) (hplace : c.place ≤ stop) (hlast : some stop ≠ c.last) :
    ∀ l, c.last = some l → l < stop := by
  intro l hl
  have hle : l ≤ stop := Nat.le_trans (hc l hl).1 hplace
  refine Nat.lt_of_le_of_ne hle ?_
  rintro rfl
  exact hlast hl.symm

theorem Sound.remaining_lt (hc : c.Sound s) (hplace : c.place ≤ stop) (hstop : stop ≤ s.size)
    (hlast : some stop ≠ c.last) : remaining s ⟨stop, some stop⟩ < remaining s c := by
  unfold remaining
  cases hl : c.last with
  | none =>
    show s.size - stop < s.size + 1 - c.place
    omega
  | some l =>
    have hlt : l < stop := hc.lt_stop hplace hlast l hl
    show s.size - stop < s.size - l
    omega

theorem Advances.sound (h : Advances s p c r c') (hc : c.Sound s) : c'.Sound s := by
  cases h with
  | fault => exact hc
  | ended _ =>
    intro l hl
    have hle : l ≤ s.size := (hc l hl).2
    exact ⟨Nat.le_succ_of_le hle, hle⟩
  | passed _ hstop _ => exact sound_at hstop
  | found _ _ hstop _ => exact sound_at hstop

theorem Sound.beyond (hc : c.Sound s) (hplace : c.place ≤ stop) (hlast : some stop ≠ c.last)
    {m : Match} (h : Beyond s ⟨stop, some stop⟩ m) : Beyond s c m where
  place_le := Nat.le_trans hplace h.place_le
  start_le := h.start_le
  stop_le := h.stop_le
  lt_stop l hl := Nat.lt_trans (hc.lt_stop hplace hlast l hl) (h.lt_stop stop rfl)

/-! ## calls one after the other -/

theorem calls_succ (s p : Bytes) (n : Nat) (c : Cursor) :
    ∃ r c', Advances s p c r c' ∧ calls s p (n + 1) c = r :: calls s p n c' :=
  ⟨_, _, advances_next s p c, rfl⟩

theorem calls_past {is : List Item} (hread : Item.readAll p.toList = .ok is) (n : Nat)
    (last : Option Nat) : calls s p n ⟨s.size + 1, last⟩ = List.replicate n (.ok none) := by
  have hnext : next s p ⟨s.size + 1, last⟩ = (.ok none, ⟨s.size + 1, last⟩) := by
    unfold next
    rw [hread]
    dsimp only
    rw [Nat.sub_self]
    rfl
  induction n with
  | zero => rfl
  | succ n ih =>
    rw [calls, hnext, ih]
    rfl

theorem reported_replicate (n : Nat) : reported (List.replicate n (.ok none)) = [] := by
  induction n with
  | zero => rfl
  | succ n ih =>
    rw [List.replicate_succ]
    exact ih

theorem Sound.beyond_of_mem (hc : c.Sound s) {m : Match} (hm : m ∈ reported (calls s p n c)) :
    Beyond s c m := by
  induction n generalizing c with
  | zero => cases hm
  | succ n ih =>
    obtain ⟨r, c', h, he⟩ := calls_succ s p n c
    have hc' := h.sound hc
    rw [he] at hm
    cases h with
    | fault => exact ih hc hm
    | ended hread =>
      rw [calls_past hread, ← List.replicate_succ, reported_replicate] at hm
      cases hm
    | passed hplace _ hlast => exact hc.beyond hplace hlast (ih hc' hm)
    | @found m' hplace hle hstop hlast =>
      have hthrough : c.place ≤ m'.stop := Nat.le_trans hplace hle
      rcases List.mem_cons.mp hm with rfl | hm
      · exact ⟨hplace, hle, hstop, hc.lt_stop hthrough hlast⟩
      · exact hc.beyond hthrough hlast (ih hc' hm)

theorem Sound.pairwise_reported (hc : c.Sound s) :
    (reported (calls s p n c)).Pairwise fun a b => a.stop ≤ b.start ∧ a.stop < b.stop := by
  induction n generalizing c with
  | zero => exact .nil
  | succ n ih =>
    obtain ⟨r, c', h, he⟩ := calls_succ s p n c
    have hc' := h.sound hc
    rw [he]
    cases h with
    | fault => exact ih hc
    | ended _ => exact ih hc'
    | passed _ _ _ => exact ih hc'
    | found _ _ _ _ =>
      refine List.pairwise_cons.mpr ⟨fun b hb => ?_, ih hc'⟩
      have hbeyond := hc'.beyond_of_mem hb
      exact ⟨hbeyond.place_le, hbeyond.lt_stop _ rfl⟩

theorem Sound.length_reported (hc : c.Sound s) :
    (reported (calls s p n c)).length ≤ remaining s c := by
  induction n generalizing c with
  | zero => exact Nat.zero_le _
  | succ n ih =>
    obtain ⟨r, c', h, he⟩ := calls_succ s p n c
    have hrest := ih (h.sound hc)
    rw [he]
    cases h with
    | fault => exact hrest
    | ended hread =>
      rw [calls_past hread, ← List.replicate_succ, reported_replicate]
      exact Nat.zero_le _
    | passed hplace hstop hlast =>
      exact Nat.le_trans hrest (Nat.le_of_lt (hc.remaining_lt hplace hstop hlast))
    | found hplace hle hstop hlast =>
      exact Nat.lt_of_le_of_lt hrest (hc.remaining_lt (Nat.le_trans hplace hle) hstop hlast)

theorem calls_after_none {pre post : List (Except PatternError (Option Match))}
    (h : calls s p n c = pre ++ .ok none :: post) : ∀ r ∈ post, r = .ok none := by
  induction n generalizing c pre with
  | zero => cases List.append_eq_nil_iff.mp h.symm |>.2
  | succ n ih =>
    obtain ⟨r, c', ha, he⟩ := calls_succ s p n c
    rw [he] at h
    cases pre with
    | cons r' pre => exact ih (List.cons.inj h).2
    | nil =>
      obtain ⟨rfl, rfl⟩ := List.cons.inj h
      cases ha with
      | ended hread =>
        intro r hr
        rw [calls_past hread] at hr
        exact List.eq_of_mem_replicate hr

/-- An iterator that meets no fault has ended once every place has been used up. -/
theorem Sound.none_of_mem_drop (hc : c.Sound s) (hok : ∀ e, .error e ∉ calls s p n c) :
    ∀ r ∈ (calls s p n c).drop (remaining s c), r = .ok none := by
  induction n generalizing c with
  | zero =>
    intro r hr
    cases List.mem_of_mem_drop hr
  | succ n ih =>
    obtain ⟨r, c', h, he⟩ := calls_succ s p n c
    have hc' := h.sound hc
    rw [he] at hok ⊢
    have hok' : ∀ e, .error e ∉ calls s p n c' := fun e he => hok e (List.mem_cons_of_mem _ he)
    intro r' hr
    cases h with
    | fault => exact absurd List.mem_cons_self (hok _)
    | passed _ _ _ => exact absurd List.mem_cons_self (hok _)
    | ended hread =>
      rw [calls_past hread, ← List.replicate_succ] at hr
      exact List.eq_of_mem_replicate (List.mem_of_mem_drop hr)
    | found hplace hle hstop hlast =>
      have hlt := hc.remaining_lt (Nat.le_trans hplace hle) hstop hlast
      exact ih hc' hok' r' (List.drop_subset_drop_left _ hlt hr)

/-- **Iterators advance and stop.**  Of the matches that calls one after the other report, each
starts at or after the end of the one before and ends strictly later; there are at most as many as
there are places from the start to the end of the subject; once a call has found none, no later call
finds any; and if no call is at fault, this happens as soon as these places are used up. -/
theorem iteration_advances (s p : Bytes) (init n : Nat) :
    let rs := calls s p n (start init)
    (reported rs).Pairwise (fun a b => a.stop ≤ b.start ∧ a.stop < b.stop) ∧
    (∀ m ∈ reported rs, init ≤ m.start ∧ m.start ≤ m.stop ∧ m.stop ≤ s.size) ∧
    (reported rs).length ≤ s.size + 1 - init ∧
    (∀ pre post, rs = pre ++ .ok none :: post → ∀ r ∈ post, r = .ok none) ∧
    ((∀ e, .error e ∉ rs) → ∀ r ∈ rs.drop (s.size + 1 - init), r = .ok none) := by
  intro rs
  have hc := sound_start s init
  refine ⟨hc.pairwise_reported, fun m hm => ?_, hc.length_reported,
    fun pre post h => calls_after_none h, hc.none_of_mem_drop⟩
  have hbeyond := hc.beyond_of_mem hm
  exact ⟨hbeyond.place_le, hbeyond.start_le, hbeyond.stop_le⟩

/-- From the second place of `hello` on, the pattern `l*` is found three times: an empty match, the two
`l`s, and an empty match at the end. -/
theorem iteration_advances_hello :
    let s : Bytes := #[0x68, 0x65, 0x6c, 0x6c, 0x6f]
    let rs := calls s #[0x6c, 0x2a] 6 (start 1)
    reported rs = [⟨1, 1, []⟩, ⟨2, 4, []⟩, ⟨5, 5, []⟩] ∧ (reported rs).length ≤ 5 ∧
      ∀ r ∈ rs.drop 5, r = .ok none := by
  intro s rs
  obtain ⟨_, _, hlength, _, hended⟩ := iteration_advances s #[0x6c, 0x2a] 1 6
  refine ⟨by decide +kernel, hlength, hended fun e he => ?_⟩
  have hfine : ∀ r ∈ rs, r.isOk = true := by decide +kernel
  exact absurd (hfine _ he) Bool.false_ne_true

end Cursor

end LuaMachine
