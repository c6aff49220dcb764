import LuaMachine.Proofs.Traversal

/-!
# Walks

A walk over a table calls `next` again and again, each time with the key that it got last.  Between
two calls a loop body may write to keys that are present.

* `Walk`        the calls of a walk so far, the last one first;
* `Progress`    what holds of a walk under way: all entries that it has passed were visited, and as
                long as it did not go astray, none of the others was;
* `potential`   what every call uses up, so that a walk ends.

A walk misses no entry, and ends.  It meets a key twice exactly if it goes astray.
-/

namespace LuaMachine.Table

structure Call where
  table : Table
  cursor : Value
  key : Value
  value : Value

def cursorAfter (calls : List Call) : Value := (calls.head?.map Call.key).getD .nil

def tableAfter (t : Table) (calls : List Call) : Table := (calls.head?.map Call.table).getD t

/-- A walk that starts with the table `t`, the last call first. -/
inductive Walk (t : Table) : List Call → Prop
  | start : Walk t []
  | call {calls : List Call} (c : Call) : Walk t calls → Touches (tableAfter t calls) c.table →
      c.cursor = cursorAfter calls → c.table.next c.cursor = .ok (some (c.key, c.value)) →
      Walk t (c :: calls)

variable {t T T' : Table} {calls : List Call} {s r : Nat}

/-! ## the end of a walk -/

/-- What is left to a walk at the position `s` if the table started with `entries` entries: calls for
the entries ahead, and for each entry as many as it may take to begin anew. -/
def potential (entries : Nat) (t : Table) (s : Nat) : Nat :=
  t.tape.countP Node.live * (entries + 1) + (t.tape.drop s).countP Node.live

theorem countP_drop_le (ns : List Node) (s : Nat) :
    (ns.drop s).countP Node.live ≤ ns.countP Node.live :=
  (List.drop_sublist s ns).countP_le

theorem Follows.potential_le {s' r' : Nat} (h : Follows T s r T' s' r') {entries : Nat}
    (he : T.tape.countP Node.live ≤ entries) : potential entries T' s' ≤ potential entries T s := by
  have hle := h.entries
  have hdrop := countP_drop_le T'.tape s'
  unfold potential
  by_cases heq : T'.tape.countP Node.live = T.tape.countP Node.live
  · have := h.ahead heq
    rw [heq]
    omega
  · have hmul := Nat.mul_le_mul_right (entries + 1) (Nat.lt_of_le_of_ne hle heq)
    rw [Nat.succ_mul] at hmul
    omega

theorem potential_lt (entries : Nat) {p : Nat} {n : Node} (hn : T.tape[p]? = some n)
    (hl : n.live = true) (hs : s ≤ p) : potential entries T (p + 1) < potential entries T s := by
  obtain ⟨hp, rfl⟩ := List.getElem?_eq_some_iff.mp hn
  have hsub : (T.tape.drop p).countP Node.live ≤ (T.tape.drop s).countP Node.live := by
    obtain ⟨d, rfl⟩ := Nat.exists_eq_add_of_le hs
    rw [← List.drop_drop]
    exact countP_drop_le _ d
  rw [List.drop_eq_getElem_cons hp, List.countP_cons_of_pos hl] at hsub
  unfold potential
  omega

/-! ## a walk under way -/

/-- What holds of a walk after some calls, when the table is `T`, `next` looks from `s` on, and the
walk has got to `r`. -/
structure Progress (t : Table) (calls : List Call) (T : Table) (s r : Nat) : Prop where
  reachable : Reachable T
  standing : Standing (2 ^ 61) T (cursorAfter calls) s r
  /-- no entry is new -/
  old : ∀ m ∈ T.tape, m.live = true → ∃ m₀ ∈ t.tape, m₀.live = true ∧ m₀.key = m.key
  /-- no entry was passed by -/
  visited : ∀ i m, i < r → T.tape[i]? = some m → m.live = true → m.key ∈ calls.map Call.key
  /-- no entry is to come again -/
  fresh : (∀ c ∈ calls, ¬ c.table.Astray c.cursor) →
    ∀ i m, r ≤ i → T.tape[i]? = some m → m.live = true → m.key ∉ calls.map Call.key
  entries_le : T.tape.countP Node.live ≤ t.size
  budget : calls.length + potential t.size T s ≤ t.size * (t.size + 2)

theorem progress_start (h : Reachable t) : Progress t [] t 0 0 where
  reachable := h
  standing := .start
  old := fun m hm hl => ⟨m, hm, hl, rfl⟩
  visited := fun i m hi => absurd hi (Nat.not_lt_zero i)
  fresh := fun _ _ _ _ _ _ => List.not_mem_nil
  entries_le := Nat.le_of_eq h.inv.1.countP_tape
  budget := by
    unfold potential
    rw [List.drop_zero, h.inv.1.countP_tape, List.length_nil, Nat.zero_add, Nat.mul_add, Nat.mul_add,
      Nat.mul_one, Nat.mul_two, Nat.add_assoc]

theorem Progress.touches (h : Progress t calls T s r) (hT : Touches T T') :
    ∃ s' r', Progress t calls T' s' r' := by
  obtain ⟨hreach, s', r', hstand, hf⟩ := h.standing.touches h.reachable hT
  refine ⟨s', r', hreach, hstand, fun m hm hl => ?_, fun i m hi hm hl => ?_, fun hA i m hi hm hl => ?_,
    Nat.le_trans hf.entries h.entries_le, ?_⟩
  · obtain ⟨i, hi⟩ := List.mem_iff_getElem?.mp hm
    obtain ⟨_, m₀, hm₀, hl₀, hk, _⟩ := hf.origin i m hi hl
    rw [← hk]
    exact h.old m₀ (List.mem_of_getElem? hm₀) hl₀
  · obtain ⟨i₀, m₀, hm₀, hl₀, hk, hside⟩ := hf.origin i m hm hl
    rw [← hk]
    exact h.visited i₀ m₀ (hside.mp hi) hm₀ hl₀
  · obtain ⟨i₀, m₀, hm₀, hl₀, hk, hside⟩ := hf.origin i m hm hl
    rw [← hk]
    exact h.fresh hA i₀ m₀ (by omega) hm₀ hl₀
  · have := hf.potential_le h.entries_le
    have := h.budget
    omega

/-- What a call finds: an entry at a position from `s` on, before the position `r` exactly if the
call goes astray. -/
theorem Progress.found (h : Progress t calls T s r) {k v : Value}
    (hn : T.next (cursorAfter calls) = .ok (some (k, v))) :
    ∃ p n, s ≤ p ∧ T.tape[p]? = some n ∧ n.live = true ∧ n.key = k ∧ n.value = v ∧
      (∀ i m, s ≤ i → i < p → T.tape[i]? = some m → m.live = false) ∧
      (T.Astray (cursorAfter calls) ↔ p < r) := by
  have hinv := h.reachable.inv.1
  rw [h.standing.next hinv] at hn
  obtain ⟨p, n, hs, hp, hl, hk, hv, hbefore⟩ := liveFrom_eq_some (Except.ok.inj hn)
  refine ⟨p, n, hs, hp, hl, hk, hv, hbefore, ?_⟩
  rw [h.standing.astray_iff hinv]
  constructor
  · rintro ⟨i, m, hi, hir, hm, hml⟩
    by_contra hpr
    rw [hbefore i m hi (by omega) hm] at hml
    cases hml
  · intro hpr
    exact ⟨p, n, hs, hpr, hp, hl⟩

theorem Progress.call (h : Progress t calls T s r) {k v : Value}
    (hn : T.next (cursorAfter calls) = .ok (some (k, v))) :
    ∃ s' r', Progress t (⟨T, cursorAfter calls, k, v⟩ :: calls) T s' r' := by
  obtain ⟨p, n, hs, hp, hl, rfl, rfl, hbefore, hastray⟩ := h.found hn
  have hsound := h.reachable.inv.1.sound_tape
  have hne : n.key ≠ .nil := hsound.ne_nil_of_holds ⟨n.live_iff.mp hl, List.mem_of_getElem? hp⟩
  refine ⟨p + 1, p + 1, h.reachable, .node hp hne, h.old, fun i m hi hm hml => ?_,
    fun hA i m hi hm hml hmem => ?_, h.entries_le, ?_⟩
  · rw [List.map_cons, List.mem_cons]
    by_cases hip : i = p
    · rw [hip, hp] at hm
      exact .inl (congrArg Node.key (Option.some.inj hm)).symm
    · -- between `s` and the entry found there is none, and before `s` all were visited
      by_cases his : s ≤ i
      · rw [hbefore i m his (by omega) hm] at hml
        cases hml
      · exact .inr (h.visited i m (by have := h.standing.le; omega) hm hml)
  · have hpr : ¬ p < r := fun hpr => hA _ List.mem_cons_self (hastray.mpr hpr)
    rw [List.map_cons, List.mem_cons] at hmem
    rcases hmem with hmk | hmem
    · have := hsound.index_unique hp hm hne hmk.symm
      omega
    · exact h.fresh (fun c hc => hA c (List.mem_cons_of_mem _ hc)) i m (by omega) hm hml hmem
  · have := potential_lt t.size hp hl hs
    have := h.budget
    rw [List.length_cons]
    omega

/-- **The calls of a walk.** -/
theorem Walk.progress (hw : Walk t calls) (h : Reachable t) :
    ∃ s r, Progress t calls (tableAfter t calls) s r := by
  induction hw with
  | start => exact ⟨0, 0, progress_start h⟩
  | call c _ hT hc hn ih =>
    obtain ⟨s, r, hp⟩ := ih
    obtain ⟨s', r', hp'⟩ := hp.touches hT
    rw [hc] at hn
    obtain ⟨table, cursor, key, value⟩ := c
    obtain rfl : cursor = _ := hc
    exact hp'.call hn

/-! ## no key twice -/

/-- **A walk meets a key twice exactly if it goes astray.** -/
theorem walk_nodup_iff {t : Table} (ht : Reachable t) {calls : List Call} (hw : Walk t calls) :
    (calls.map Call.key).Nodup ↔ ∀ c ∈ calls, ¬ c.table.Astray c.cursor := by
  induction hw with
  | start => simp
  | @call calls c hw hT hc hn ih =>
    obtain ⟨s, r, hp⟩ := hw.progress ht
    obtain ⟨s', r', hp'⟩ := hp.touches hT
    rw [hc] at hn
    obtain ⟨p, n, _, hpn, hl, hk, _, _, hastray⟩ := hp'.found hn
    rw [List.map_cons, List.nodup_cons, List.forall_mem_cons, ih, hc, hastray, ← hk]
    constructor
    · rintro ⟨hfresh, hA⟩
      exact ⟨fun hpr => hfresh (hp'.visited p n hpr hpn hl), hA⟩
    · rintro ⟨hpr, hA⟩
      exact ⟨hp'.fresh hA p n (Nat.le_of_not_lt hpr) hpn hl, hA⟩

def four : Table := ofList [.integer 10, .integer 20, .integer 30, .integer 40]

theorem reachable_four : Reachable four := .ofList _ (by decide)

def upToThree : List Call :=
  [⟨four, .integer 2, .integer 3, .integer 30⟩, ⟨four, .integer 1, .integer 2, .integer 20⟩,
    ⟨four, .nil, .integer 1, .integer 10⟩]

theorem walk_upToThree : Walk four upToThree :=
  .call _ (.call _ (.call _ .start .refl rfl rfl) .refl rfl rfl) .refl rfl rfl

def ownCleared : List Call :=
  ⟨four.setInt 3 .nil, .integer 3, .integer 4, .integer 40⟩ :: upToThree

theorem walk_ownCleared : Walk four ownCleared :=
  .call _ walk_upToThree (.single ⟨.integer 3, .nil, by decide +kernel, rfl⟩) rfl (by decide +kernel)

/-- Clearing the entry that the walk stands on does not lead astray. -/
theorem walk_own_entry_cleared :
    Walk four ownCleared ∧ ¬ (four.setInt 3 .nil).Astray (.integer 3) :=
  ⟨walk_ownCleared,
    (walk_nodup_iff reachable_four walk_ownCleared).mp (by decide) _ List.mem_cons_self⟩

/-- At `3`, its own entry is cleared and then that of `1`: the walk comes to `2` again. -/
def backToTwo : List Call :=
  ⟨(four.setInt 3 .nil).setInt 1 .nil, .integer 3, .integer 2, .integer 20⟩ :: upToThree

/-- **A walk may meet a key twice.** -/
theorem walk_meets_key_twice :
    Reachable four ∧ Walk four backToTwo ∧ ¬ (backToTwo.map Call.key).Nodup := by
  refine ⟨reachable_four, .call _ walk_upToThree ?_ rfl (by decide +kernel), by decide⟩
  exact .tail (.single ⟨.integer 3, .nil, by decide +kernel, rfl⟩)
    ⟨.integer 1, .nil, by decide +kernel, rfl⟩

/-! ## no entry missed -/

theorem Walk.entry (hw : Walk t calls) (ht : Reachable t) :
    ∀ c ∈ calls, c.value ≠ .nil ∧ c.table.rawGet c.key = c.value := by
  induction hw with
  | start => exact fun c hc => absurd hc List.not_mem_nil
  | @call calls c hw hT hc hn ih =>
    rw [List.forall_mem_cons]
    refine ⟨?_, ih⟩
    obtain ⟨s, r, hp⟩ := hw.progress ht
    obtain ⟨s', r', hp'⟩ := hp.touches hT
    have hinv := hp'.reachable.inv.1
    rw [hc] at hn
    obtain ⟨p, n, _, hpn, hl, hk, hv, _⟩ := hp'.found hn
    have hholds : Holds c.table.tape c.key c.value := by
      rw [← hk, ← hv]
      exact ⟨n.live_iff.mp hl, List.mem_of_getElem? hpn⟩
    have hkey : c.key.IsKey :=
      hinv.sound_tape.normal _ hholds.2 (hinv.sound_tape.ne_nil_of_holds hholds)
    refine ⟨hholds.1, ?_⟩
    unfold rawGet
    rw [show c.key.key? = some c.key from hkey]
    exact hinv.getKey_of_holds hholds

theorem Progress.all_visited (h : Progress t calls T s r)
    (hend : T.next (cursorAfter calls) = .ok none) {k v : Value} (hk : Holds T.tape k v) :
    k ∈ calls.map Call.key := by
  rw [h.standing.next h.reachable.inv.1] at hend
  obtain ⟨i, hi⟩ := List.mem_iff_getElem?.mp hk.2
  have hl : (⟨k, v⟩ : Node).live = true := (Node.live_iff _).mpr hk.1
  refine h.visited i _ (Nat.lt_of_not_le fun hr => ?_) hi hl
  have := liveFrom_eq_none (Except.ok.inj hend) (Nat.le_trans h.standing.le hr) hi
  rw [hl] at this
  cases this

/-- **A walk misses no entry, and ends.**  The number of its calls is bounded by the number of entries
at the start, and each call gives an entry with its value.  Whatever the loop body wrote to keys that
were present, the next call succeeds; if it finds nothing more, every key that the table had at the
start was visited, or has been cleared. -/
theorem walk_complete {t : Table} (ht : Reachable t)
    (hp : ∀ n ∈ t.hash.nodes.toList, n.live = true → n.key ≠ .float Double.twoPow63)
    {calls : List Call} (hw : Walk t calls) :
    calls.length ≤ t.size * (t.size + 2) ∧
    (∀ c ∈ calls, c.value ≠ .nil ∧ c.table.rawGet c.key = c.value) ∧
    ∀ t', Touches (tableAfter t calls) t' →
      ∃ entry, t'.next (cursorAfter calls) = .ok entry ∧
        (entry = none → ∀ key k, key.key? = some k → k ≠ .float Double.twoPow63 →
          t.contains key = true → k ∈ calls.map Call.key ∨ t'.contains key = false) := by
  obtain ⟨s, r, hprog⟩ := hw.progress ht
  refine ⟨by have := hprog.budget; omega, hw.entry ht, fun t' hT => ?_⟩
  obtain ⟨s', r', hprog'⟩ := hprog.touches hT
  have hinv := hprog'.reachable.inv.1
  refine ⟨_, hprog'.standing.next hinv, fun hend key k hk hne _ => ?_⟩
  cases hc : t'.contains key with
  | false => exact .inr rfl
  | true =>
    -- the float `2^63` is no key, so the key that is read is the one that has a node
    have hplain : ∀ v, ¬ Holds t'.tape (.float Double.twoPow63) v := by
      intro v hv
      obtain ⟨m, hm, hml, hmk⟩ := hprog'.old _ hv.2 ((Node.live_iff _).mpr hv.1)
      rcases List.mem_append.mp hm with hm | hm
      · obtain ⟨_, _, _, rfl⟩ := Node.mem_run hm
        cases hmk
      · exact hp m hm hml hmk
    obtain ⟨v, hv⟩ := hinv.holds_of_contains hk hne hplain hc
    exact .inl (hprog'.all_visited ((hprog'.standing.next hinv).trans (congrArg _ hend)) hv)

/-- The last two entries are cleared when the walk comes to them. -/
theorem walk_cleared_on_the_way :
    ownCleared.length ≤ four.size * (four.size + 2) ∧
    (four.setInt 3 .nil).rawGet (.integer 4) = .integer 40 ∧
    ((four.setInt 3 .nil).setInt 4 .nil).next (.integer 4) = .ok none ∧
    (.integer 3 ∈ ownCleared.map Call.key ∨
      ((four.setInt 3 .nil).setInt 4 .nil).contains (.integer 3) = false) := by
  obtain ⟨hlen, hentry, hnext⟩ :=
    walk_complete reachable_four (by decide +kernel) walk_ownCleared
  obtain ⟨entry, hn, hend⟩ := hnext ((four.setInt 3 .nil).setInt 4 .nil)
    (.single ⟨.integer 4, .nil, by decide +kernel, rfl⟩)
  have hnone : ((four.setInt 3 .nil).setInt 4 .nil).next (.integer 4) = .ok none := by
    decide +kernel
  refine ⟨hlen, (hentry _ List.mem_cons_self).2, hnone, ?_⟩
  exact hend (Except.ok.inj (hn.symm.trans hnone)) (.integer 3) _ rfl (fun he => nomatch he)
    (by decide +kernel)

end LuaMachine.Table
