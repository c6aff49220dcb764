import LuaMachine.Proofs.Resuming
import LuaMachine.Proofs.Steady

/-!
# Functions stay

A coroutine changes no function of the heap, whatever it calls and whatever coroutines it
resumes.  So a function that was there when a coroutine was resumed is there when the coroutine
leaves.

* `Spared`             one step retains the functions, and what comes after it spares them;
* `Steadfast`          what coroutines have begun is steady, at every moment of every program;
* `Resumed.retains`    a resume retains the functions;
* `Calm`               so is what the top level has begun since it had `n` frames;
* `Returns.retains`    the functions stay until the top level is back.

At the top level a program may run any action, also one that replaces functions.
-/

namespace LuaMachine.Machine

variable {m m' : Machine} {a a' : Action Turn} {c : ThreadId} {o : Option ThreadId}
  {x y z : Moment} {n : Nat}

open LuaMachine.Action

theorem steady_answer (r : Reply) : (answer r).Steady := by
  cases r with
  | ok vs => exact steady_done _
  | error e => exact steady_exit e

theorem steady_entry (m : Machine) (c : ThreadId) (vs : List Value) : (m.entry c vs).Steady := by
  unfold entry
  split
  · exact fun _ r h => steady_answer r h
  · exact steady_answer _

/-- A step of an action that spares the functions does, and what comes after it spares them too. -/
structure Spared (m m' : Machine) (a' : Action Turn) : Prop where
  retains : m.heap.Retains m'.heap
  spares : a'.Spares m'.heap

theorem Spared.of_heap (hh : m'.heap = m.heap) (ha : a'.Spares m.heap) : Spared m m' a' := by
  refine ⟨Heap.retains_of_functions_eq (by rw [hh]), ?_⟩
  rw [hh]
  exact ha

theorem spared_deliver {r : Reply} (hf : ∀ f ∈ m.current.frames.head?, ∀ r, (f.resume r).Steady)
    (hs : m.deliver r = .next m' a') : Spared m m' a' := by
  unfold deliver at hs
  split at hs
  · rename_i f rest hfr
    cases hs
    exact .of_heap rfl (hf f (by rw [hfr]; rfl) _ _)
  · split at hs
    · cases hs
    · cases hs
      refine .of_heap ?_ (steady_answer _ _)
      show (mark _ _ _).heap = _
      rw [heap_mark, heap_mark]

theorem spared_suspend {vs : List Value} {k : Reply → Action Turn} (hk : ∀ r, (k r).Steady)
    (hs : m.suspend vs k = .next m' a') : Spared m m' a' := by
  unfold suspend at hs
  split at hs
  · cases hs
    refine .of_heap ?_ (steady_answer _ _)
    show (mark _ _ _).heap = _
    rw [heap_mark]
    rfl
  · cases hs
    exact .of_heap rfl (hk _ _)

theorem Inv.spared_resume (h : m.Inv) {vs : List Value} {k : Reply → Action Turn}
    (hk : ∀ r, (k r).Steady) (hs : m.resume c vs k = .next m' a') : Spared m m' a' := by
  by_cases hst : m.roster.status c = .suspended
  · rw [h.resume_suspended hst] at hs
    cases hs
    refine .of_heap ?_ (m.steady_entry c vs _)
    show (mark _ _ _).heap = _
    rw [heap_mark]
  · rw [h.resume_refused hst] at hs
    cases hs
    exact .of_heap rfl (hk _ _)

theorem spared_begin {j : Job} {k : Reply → Action Turn} (hk : ∀ r, (k r).Steady)
    (hs : m.begin Job.body j k = .next m' a') : Spared m m' a' := by
  unfold begin at hs
  split at hs
  · split at hs
    · cases hs
      exact .of_heap rfl (hk _ _)
    · cases hs
      exact .of_heap rfl (Job.steady_body _ _)
  · cases hs
    exact .of_heap rfl (Job.steady_body _ _)

theorem Inv.spared_step (h : m.Inv) (hf : ∀ f ∈ m.current.frames.head?, ∀ r, (f.resume r).Steady)
    (ha : a.Spares m.heap) (hs : m.step Job.body a = .next m' a') : Spared m m' a' := by
  cases a with
  | done t =>
    cases t with
    | finish vs => exact spared_deliver hf hs
    | again j =>
      cases hs
      exact .of_heap rfl (j.steady_body _)
  | exit e => exact spared_deliver hf hs
  | read k =>
    cases hs
    exact .of_heap rfl ha
  | write f k =>
    cases hs
    exact ⟨ha.1, ha.2⟩
  | run j k => exact spared_begin ha hs
  | spawn f k =>
    cases hs
    exact .of_heap rfl (ha _)
  | resume c vs k => exact h.spared_resume ha hs
  | yield vs k => exact spared_suspend ha hs
  | inspect k =>
    cases hs
    exact .of_heap rfl (ha _)

/-! ## what is steady on a strand -/

/-- The frames with `n` or more frames below them go on in a steady way. -/
def SteadyAbove (n : Nat) : List Frame → Prop
  | [] => True
  | f :: rest => (n ≤ rest.length → ∀ r, (f.resume r).Steady) ∧ SteadyAbove n rest

theorem SteadyAbove.head? {fs : List Frame} (h : SteadyAbove n fs) (hn : fs = [] ∨ n < fs.length) :
    ∀ f ∈ fs.head?, ∀ r, (f.resume r).Steady := by
  cases fs with
  | nil => exact fun _ hf => absurd hf (Option.not_mem_none _)
  | cons g rest =>
    intro f hf
    cases hf
    exact h.1 (Nat.le_of_lt_succ (hn.resolve_left (List.cons_ne_nil _ _)))

theorem steadyAbove_of_length_le {fs : List Frame} (h : fs.length ≤ n) : SteadyAbove n fs := by
  induction fs with
  | nil => trivial
  | cons f rest ih =>
    rw [List.length_cons] at h
    exact ⟨fun hn => absurd hn (by omega), ih (Nat.le_of_succ_le h)⟩

theorem Asks.steady {f : Frame} {heap : Heap} (hf : Asks a f) (ha : a.Spares heap) (r : Reply) :
    (f.resume r).Steady := by
  cases hf <;> exact ha r

theorem Turns.steadyAbove {s s' : Strand} {heap : Heap} (ht : Turns x y s s')
    (ha : x.2.Spares heap) (h : SteadyAbove n s.frames) : SteadyAbove n s'.frames := by
  cases ht with
  | same => exact h
  | push f hasks _ => exact ⟨fun _ => hasks.steady ha, h⟩
  | pop f r hf _ _ _ _ =>
    rw [hf] at h
    exact h.2
  | ended _ => trivial

/-! ## coroutines -/

/-- Whatever the top level may do, what coroutines have begun changes no function. -/
structure Steadfast (x : Moment) : Prop where
  frames : ∀ c, SteadyAbove 0 (x.1.strandOf (some c)).frames
  action : x.1.current.owner ≠ none → x.2.Spares x.1.heap

theorem steadfast_initial (heap : Heap) (a : Action Turn) : Steadfast (initial heap, a) where
  frames := fun _ => trivial
  action := fun ho => absurd rfl ho

theorem Steadfast.with_action (hx : Steadfast x) (ha : a.Steady) : Steadfast (x.1, a) :=
  ⟨hx.frames, fun _ => ha _⟩

theorem Steadfast.at_top (hx : Steadfast x) (ho : x.1.current.owner = none) (a : Action Turn) :
    Steadfast (x.1, a) :=
  ⟨hx.frames, fun hne => absurd ho hne⟩

theorem Inv.frames_current (h : m.Inv) (hx : Steadfast (m, a)) (ho : m.current.owner ≠ none) :
    ∀ f ∈ m.current.frames.head?, ∀ r, (f.resume r).Steady := by
  obtain ⟨c, hc⟩ := Option.ne_none_iff_exists'.mp ho
  have hcur := h.strandOf_current
  rw [hc] at hcur
  have hf : SteadyAbove 0 (m.strandOf (some c)).frames := hx.frames c
  rw [hcur] at hf
  refine hf.head? ?_
  cases m.current.frames with
  | nil => exact .inl rfl
  | cons f rest => exact .inr (Nat.succ_pos _)

/-- The top level hands control to a coroutine only by entering it. -/
theorem Move.steady_of_top (hm : Move m a m' a') (ho : m.current.owner = none)
    (ho' : m'.current.owner ≠ none) : a'.Steady := by
  cases hm with
  | stay hcur _ _ => exact absurd (by rw [hcur, ho]) ho'
  | push f _ _ hcur _ _ => exact absurd (by rw [hcur]; exact ho) ho'
  | pop f r _ hcur _ _ _ _ => exact absurd (by rw [hcur, ho]) ho'
  | enter c vs k _ _ _ ha =>
    rw [ha]
    exact m.steady_entry c vs
  | park c vs k _ hc _ _ _ _ => cases ho.symm.trans hc
  | finish c r _ _ hc _ _ _ _ => cases ho.symm.trans hc

theorem Steadfast.proceeds (hx : Steadfast x) (h : x.1.Inv) (hs : Proceeds Job.body x y) :
    Steadfast y := by
  constructor
  · intro c
    obtain ⟨ht, hother⟩ := h.turns hs (some c)
    by_cases hc : some c = x.1.current.owner
    · exact ht.steadyAbove (hx.action (by rw [← hc]; exact Option.some_ne_none c)) (hx.frames c)
    · rw [hother hc]
      exact hx.frames c
  · intro ho'
    cases hs with
    | restart hs heap a' => exact absurd rfl ho'
    | @step m m' a a' hs =>
      by_cases ho : m.current.owner = none
      · exact (h.move_step hs).steady_of_top ho ho' _
      · exact (h.spared_step (h.frames_current hx ho) (hx.action ho) hs).spares

theorem Steadfast.run (hx : Steadfast x) (h : x.1.Inv) (hr : Run Job.body x y) : Steadfast y := by
  induction hr with
  | refl => exact hx
  | tail hxy hs ih => exact ih.proceeds (h.run hxy) hs

/-- A coroutine that waits for another one, or the top level, is behind a coroutine. -/
theorem Inv.owner_ne_none (h : m.Inv) {s : Strand} (hs : s ∈ m.waiting) :
    m.current.owner ≠ none := by
  obtain ⟨s', w, hw⟩ := List.exists_cons_of_ne_nil (List.ne_nil_of_mem hs)
  obtain ⟨c, _, ho, _⟩ := h.pending_cons hw
  rw [ho]
  exact Option.some_ne_none c

theorem Steadfast.retains_waiting {u : Strand} {front back : List Strand}
    (hx : Steadfast (m.onto (front ++ u :: back), a)) (h : (m.onto (front ++ u :: back)).Inv)
    (hu : u.owner = o) (hr : RunWithout Job.body o (m.onto (front ++ u :: back), a) y) :
    m.heap.Retains y.1.heap := by
  induction hr with
  | refl => exact .refl _
  | @tail x y hxy hs ih =>
    have hrun := RunWithout.run hxy
    have hi : x.1.Inv := Inv.run (x := (_, a)) h hrun
    have hst := hx.run h hrun
    obtain ⟨l, b, front', _, rfl, _⟩ := behind_run hu hxy hs.2
    have ho : l.current.owner ≠ none :=
      hi.owner_ne_none (s := u) (List.mem_append_right _ List.mem_cons_self)
    cases hs.1 with
    | restart hs' => exact absurd (hi.owner_halt hs') ho
    | step hs' =>
      exact ih.trans (hi.spared_step (hi.frames_current hst ho) (hst.action ho) hs').retains

/-- **A resume retains the functions.** -/
theorem Resumed.retains {vs : List Value} {r : Except Failure (List Value)}
    (hr : Resumed Job.body c m vs r m') (h : m.Inv) (hx : Steadfast (m, .resume c vs answer)) :
    m.heap.Retains m'.heap := by
  by_cases hst : m.roster.status c = .suspended
  · have hpush : (m.current.push ⟨false, answer⟩).owner = m.current.owner := rfl
    have hs : Proceeds Job.body (m, .resume c vs answer)
        (m.awaited c vs (m.current.push ⟨false, answer⟩)) := .step (h.step_resume hst rfl vs answer)
    have hheap : (m.entered c answer).heap = m.heap := m.heap_mark _ _
    rw [← hheap]
    exact (hx.proceeds h hs).retains_waiting (h.awaited hst vs hpush) hpush
      (hr.surfaces h hst hpush).1
  · cases hr with
    | refused _ => exact .refl _
    | left hst' => exact absurd hst' hst

/-! ## the top level -/

/-- The top level had `n` frames, and what it has begun since then changes no function; nor does what
coroutines have begun. -/
structure Calm (n : Nat) (x : Moment) : Prop where
  steadfast : Steadfast x
  top : SteadyAbove n (x.1.strandOf none).frames
  action : x.2.Spares x.1.heap

theorem Calm.frames_current (hx : Calm n (m, a)) (h : m.Inv)
    (hn : n < (m.strandOf none).frames.length) :
    ∀ f ∈ m.current.frames.head?, ∀ r, (f.resume r).Steady := by
  by_cases ho : m.current.owner = none
  · have hcur := h.strandOf_current
    have htop : SteadyAbove n (m.strandOf none).frames := hx.top
    rw [ho] at hcur
    rw [hcur] at htop hn
    exact htop.head? (.inr hn)
  · exact h.frames_current hx.steadfast ho

theorem Calm.proceeds (hx : Calm n x) (h : x.1.Inv) (hn : n < (x.1.strandOf none).frames.length)
    (hs : Proceeds Job.body x y) : x.1.heap.Retains y.1.heap ∧ Calm n y := by
  obtain ⟨ht, _⟩ := h.turns hs none
  have hst := hx.steadfast.proceeds h hs
  have htop := ht.steadyAbove hx.action hx.top
  cases hs with
  | @step m m' a a' hs' =>
    have hsp := h.spared_step (hx.frames_current h hn) hx.action hs'
    exact ⟨hsp.retains, hst, htop, hsp.spares⟩
  | restart hs' => exact absurd hs' (h.not_halt hn)

/-- **The functions stay until the top level is back.** -/
theorem Returns.retains (hr : Returns Job.body none n x z) (h : x.1.Inv) (hx : Calm n x) :
    x.1.heap.Retains z.1.heap ∧ Calm n z := by
  induction hr with
  | back _ => exact ⟨.refl _, hx⟩
  | later hn hs _ ih =>
    obtain ⟨hret, hy⟩ := hx.proceeds h hn hs
    obtain ⟨hret', hz⟩ := ih (h.proceeds hs) hy
    exact ⟨hret.trans hret', hz⟩

end LuaMachine.Machine
