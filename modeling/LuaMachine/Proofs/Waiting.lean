import LuaMachine.Proofs.Strands

/-!
# Strands that wait

A step of the machine works on the running strand.  Of the strands that wait it touches at most
the first one, and only to go on with it.  So what happens until a waiting thread goes on does not
depend on what its strand is, but only on whose it is.

* `Machine.onto`    a machine with other strands behind the running one;
* `Behind`          what a step does to a waiting strand: it stays, or it goes on;
* `behind_run`      a run in which a thread waits is a run whatever its strand is;
* `surfaces_step`   so is the step with which the thread goes on;
* `surfaces_unique`   there is one moment at which it does.
-/

namespace LuaMachine.Machine

variable {body : Job → Action Turn} {m m' : Machine} {a a' : Action Turn} {c d : ThreadId}
  {o : Option ThreadId} {s : Strand}

/-! ## one step -/

/-- The machine with other strands behind the running one. -/
def onto (m : Machine) (w : List Strand) : Machine := { m with waiting := w }

/-- The last thread of the running strand and some strands behind it. -/
def rear (m : Machine) (front : List Strand) : Option (Option ThreadId) :=
  (m.current.owner :: front.map Strand.owner).getLast?

/-- What a step does to a waiting strand of a thread, whichever strand it is: it stays where it
is, or the running strand is left for it. -/
inductive Behind (body : Job → Action Turn) (m : Machine) (a : Action Turn) (o : Option ThreadId)
    (back front : List Strand) : Prop
  | stays (n : Machine) (a' : Action Turn) (front' : List Strand)
      (rear : n.rear front' = m.rear front)
      (step : ∀ u : Strand, u.owner = o →
        (m.onto (front ++ u :: back)).step body a = .next (n.onto (front' ++ u :: back)) a')
  | surfaces (n : Machine) (a' : Action Turn) (front_eq : front = [])
      (step : ∀ u : Strand, u.owner = o →
        (m.onto (u :: back)).step body a = .next { n with current := u, waiting := back } a')

theorem mark_onto (m : Machine) (w : List Strand) (o : Option ThreadId) (s : Status) :
    (m.onto w).mark o s = (m.mark o s).onto w := by
  cases o <;> rfl

theorem deliver_of_empty {r : Reply} {w : List Strand} (hf : m.current.frames = [])
    (hw : m.waiting = s :: w) : m.deliver r
      = .next { (m.mark m.current.owner .dead).mark s.owner .running with
          current := s, waiting := w } (answer (finalReply r)) := by
  unfold deliver
  rw [hf, hw]

theorem suspend_of_owner {vs : List Value} {k : Reply → Action Turn} {w : List Strand}
    (ho : m.current.owner = some c) (hw : m.waiting = s :: w) : m.suspend vs k
      = .next { (m.setCoroutine c ⟨.suspended, .strand (m.current.push ⟨false, k⟩)⟩).mark
          s.owner .running with current := s, waiting := w } (answer (.ok vs)) := by
  unfold suspend
  rw [ho, hw]

theorem Behind.of_next {back front : List Strand} (n : Machine) (a' : Action Turn)
    (hn : n.current.owner = m.current.owner)
    (h : ∀ w, (m.onto w).step body a = .next (n.onto w) a') : Behind body m a o back front := by
  refine .stays n a' front ?_ fun u _ => h _
  unfold rear
  rw [hn]

theorem Behind.of_leave {back front : List Strand} (n : Machine) (a' : Action Turn)
    (h : ∀ t w, (m.onto (t :: w)).step body a
      = .next { n.mark t.owner .running with current := t, waiting := w } a') :
    Behind body m a o back front := by
  cases front with
  | nil =>
    refine .surfaces (n.mark o .running) a' rfl fun u hu => ?_
    rw [h, hu]
  | cons t front =>
    refine .stays { n.mark t.owner .running with current := t } a' front ?_ fun u _ => h t _
    unfold rear
    simp

theorem behind_deliver (m : Machine) (r : Reply) (o : Option ThreadId) (back front : List Strand) :
    Behind body m (answer r) o back front := by
  have hstep : ∀ w, (m.onto w).step body (answer r) = (m.onto w).deliver r := by
    intro w
    cases r <;> rfl
  cases hf : m.current.frames with
  | cons f rest =>
    refine .of_next { m with current := ⟨m.current.owner, rest,
      if f.isCall then m.current.depth - 1 else m.current.depth⟩ }
      (f.resume (if f.isCall then callReply r else r)) rfl fun w => ?_
    rw [hstep]
    unfold deliver onto
    rw [hf]
  | nil =>
    refine .of_leave (m.mark m.current.owner .dead) (answer (finalReply r)) fun t w => ?_
    rw [hstep, deliver_of_empty (m := m.onto (t :: w)) hf rfl, mark_onto, mark_onto]
    rfl

theorem behind_suspend (m : Machine) (vs : List Value) (k : Reply → Action Turn)
    (o : Option ThreadId) (back front : List Strand) :
    Behind body m (.yield vs k) o back front := by
  cases ho : m.current.owner with
  | none =>
    refine .of_next m (k (.error (.failed (.coroutine .outside)))) rfl fun w => ?_
    show (m.onto w).suspend vs k = _
    unfold suspend onto
    rw [ho]
  | some c =>
    refine .of_leave (m.setCoroutine c ⟨.suspended, .strand (m.current.push ⟨false, k⟩)⟩)
      (answer (.ok vs)) fun t w => ?_
    show (m.onto (t :: w)).suspend vs k = _
    rw [suspend_of_owner (m := m.onto (t :: w)) ho rfl]
    show Progress.next { ((m.setCoroutine c _).onto (t :: w)).mark _ _ with
      current := t, waiting := w } _ = _
    rw [mark_onto]
    rfl

theorem behind_resume (m : Machine) (c : ThreadId) (vs : List Value) (k : Reply → Action Turn)
    (o : Option ThreadId) (back front : List Strand) :
    Behind body m (.resume c vs k) o back front := by
  have hrefuse : ∀ s : Status, (∀ w, (m.onto w).resume c vs k
      = .next (m.onto w) (k (.error (.failed (.coroutine (.notSuspended s)))))) →
      Behind body m (.resume c vs k) o back front := fun s h => .of_next m _ rfl h
  -- entering a coroutine puts the running strand in front of those that wait
  have henter : ∀ (t : Strand) (a' : Action Turn), (∀ w, (m.onto w).resume c vs k
      = .next ({ (m.mark m.current.owner .normal).setCoroutine c ⟨.running, .nothing⟩ with
          current := t }.onto (m.current.push ⟨false, k⟩ :: w)) a') →
      Behind body m (.resume c vs k) o back front := by
    intro t a' h
    refine .stays _ a' (m.current.push ⟨false, k⟩ :: front) ?_ fun u _ => h _
    unfold rear
    rw [List.map_cons, List.getLast?_cons_cons]
    rfl
  cases hco : m.coroutines[c.index]? with
  | none =>
    apply hrefuse .dead
    intro w
    unfold resume onto
    rw [hco]
  | some co =>
    obtain ⟨status, parked⟩ := co
    have hget : ∀ w, (m.onto w).coroutines[c.index]? = some ⟨status, parked⟩ := fun _ => hco
    have hmark : ∀ w, (m.onto w).mark (m.onto w).current.owner .normal
        = (m.mark m.current.owner .normal).onto w := fun w => m.mark_onto w _ _
    cases status with
    | suspended =>
      cases parked with
      | body f =>
        apply henter (Strand.start (some c)) (.run (.function f vs) answer)
        intro w
        unfold resume
        rw [hget]
        simp only [hmark]
        rfl
      | strand t =>
        apply henter t (answer (.ok vs))
        intro w
        unfold resume
        rw [hget]
        simp only [hmark]
        rfl
      | nothing =>
        apply hrefuse .suspended
        intro w
        unfold resume
        rw [hget]
    | _ =>
      apply hrefuse
      intro w
      unfold resume
      rw [hget]

theorem behind_begin (m : Machine) (j : Job) (k : Reply → Action Turn)
    (o : Option ThreadId) (back front : List Strand) : Behind body m (.run j k) o back front := by
  cases j with
  | function f vs =>
    by_cases hfull : Strand.maxDepth ≤ m.current.depth
    · exact .of_next m _ rfl fun w => if_pos hfull
    · exact .of_next { m with current := m.current.push ⟨true, k⟩ } _ rfl fun w => if_neg hfull
  | _ => exact .of_next { m with current := m.current.push ⟨false, k⟩ } _ rfl fun w => rfl

/-- **A step does not look at a strand that waits.** -/
theorem behind_step (m : Machine) (a : Action Turn) (o : Option ThreadId)
    (back front : List Strand) : Behind body m a o back front := by
  cases a with
  | done t =>
    cases t with
    | finish vs => exact m.behind_deliver (.ok vs) o back front
    | again j => exact .of_next m _ rfl fun w => rfl
  | exit e => exact m.behind_deliver (.error e) o back front
  | read k => exact .of_next m (k m.heap) rfl fun w => rfl
  | write f k => exact .of_next { m with heap := f m.heap } _ rfl fun w => rfl
  | run j k => exact m.behind_begin j k o back front
  | spawn f k =>
    exact .of_next { m with coroutines := m.coroutines.push ⟨.suspended, .body f⟩ }
      (k ⟨m.coroutines.size⟩) rfl fun w => rfl
  | resume c vs k => exact m.behind_resume c vs k o back front
  | yield vs k => exact m.behind_suspend vs k o back front
  | inspect k => exact .of_next m (k m.roster) rfl fun w => rfl

/-! ## runs -/

theorem Inv.owner_ne_of_waiting (h : m.Inv) (hs : s ∈ m.waiting) : s.owner ≠ m.current.owner := by
  have hn := h.nodup_owners
  change (m.current.owner :: m.waiting.map Strand.owner).Nodup at hn
  rw [List.nodup_cons] at hn
  exact fun e => hn.1 (e ▸ List.mem_map_of_mem hs)

/-- What happens while a thread waits does not depend on its strand. -/
theorem behind_run {u : Strand} {back front : List Strand} {x : Moment} (hu : u.owner = o)
    (hr : RunWithout body o (m.onto (front ++ u :: back), a) x) (hx : x.1.current.owner ≠ o) :
    ∃ (n : Machine) (b : Action Turn) (front' : List Strand), n.rear front' = m.rear front ∧
      x = (n.onto (front' ++ u :: back), b) ∧
      ∀ u' : Strand, u'.owner = o → RunWithout body o (m.onto (front ++ u' :: back), a)
        (n.onto (front' ++ u' :: back), b) := by
  induction hr with
  | refl => exact ⟨m, a, front, rfl, rfl, fun _ _ => .refl⟩
  | tail _ hs ih =>
    obtain ⟨n, b, front', hrear, rfl, hall⟩ := ih hs.2
    have hb : Behind body n b o back front' := n.behind_step b o back front'
    cases hb with
    | stays n' b' front'' hrear' hstep =>
      cases hs.1.eq_of_next (hstep u hu)
      exact ⟨n', b', front'', hrear'.trans hrear, rfl,
        fun u' hu' => (hall u' hu').tail ⟨.step (hstep u' hu'), hs.2⟩⟩
    | surfaces n' b' hfront hstep =>
      subst hfront
      cases hs.1.eq_of_next (hstep u hu)
      exact absurd hu hx

/-- **A thread that waits goes on where the one in front of it leaves**, whatever its strand is. -/
theorem surfaces_step {u : Strand} {back front : List Strand} {y : Moment} (hu : u.owner = o)
    (h : (m.onto (front ++ u :: back)).Inv) (hs : Proceeds body (m.onto (front ++ u :: back), a) y)
    (hy : y.1.current.owner = o) :
    front = [] ∧ ∃ (n : Machine) (b : Action Turn),
      y = ({ n with current := u, waiting := back }, b) ∧
      ∀ u' : Strand, u'.owner = o → Proceeds body (m.onto (u' :: back), a)
        ({ n with current := u', waiting := back }, b) := by
  have h' : y.1.Inv := Inv.proceeds (x := (_, a)) h hs
  have hb : Behind body m a o back front := m.behind_step a o back front
  cases hb with
  | stays n b front' _ hstep =>
    cases hs.eq_of_next (hstep u hu)
    have hin : u ∈ front' ++ u :: back := by simp
    exact absurd (hu.trans hy.symm) (h'.owner_ne_of_waiting hin)
  | surfaces n b hfront hstep =>
    subst hfront
    cases hs.eq_of_next (hstep u hu)
    exact ⟨rfl, n, b, rfl, fun u' hu' => .step (hstep u' hu')⟩

theorem RunWithout.eq_of_owner {x y : Moment} (hr : RunWithout body o x y)
    (hx : x.1.current.owner = o) : y = x := by
  rcases hr.cases_head with e | ⟨_, hs, _⟩
  · exact e.symm
  · exact absurd hx hs.2

theorem surfaces_unique {u : Strand} {back front : List Strand} {y y' : Moment} (hu : u.owner = o)
    (hr : RunWithout body o (m.onto (front ++ u :: back), a) y) (hy : y.1.current.owner = o)
    (hr' : RunWithout body o (m.onto (front ++ u :: back), a) y') (hy' : y'.1.current.owner = o) :
    y' = y := by
  generalize hx : (m.onto (front ++ u :: back), a) = x at hr hr'
  induction hr using Relation.ReflTransGen.head_induction_on generalizing m front a with
  | refl => exact hr'.eq_of_owner hy
  | head hs hrest ih =>
    subst hx
    rcases hr'.cases_head with e | ⟨x', hs', hrest'⟩
    · exact absurd (e ▸ hy') hs.2
    · have hb : Behind body m a o back front := m.behind_step a o back front
      cases hb with
      | stays n b front' _ hstep =>
        cases hs.1.eq_of_next (hstep u hu)
        cases hs'.1.eq_of_next (hstep u hu)
        exact ih rfl hrest'
      | surfaces n b hfront hstep =>
        subst hfront
        cases hs.1.eq_of_next (hstep u hu)
        cases hs'.1.eq_of_next (hstep u hu)
        rw [RunWithout.eq_of_owner hrest hu, RunWithout.eq_of_owner hrest' hu]

end LuaMachine.Machine
