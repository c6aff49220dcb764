import Mathlib.Data.List.Nodup
import LuaMachine.Proofs.Coroutine

/-!
# The strands of a machine

Every thread of control, the top level or a coroutine, has one strand: it runs, it waits in a
resume, or it is parked with its coroutine.  A step changes the strand of the thread that runs and
no other one: it puts a frame on it, hands a reply to the innermost frame, or ends it.

* `Machine.strandOf`   the strand of a thread of control;
* `Move`               what a step does to the strands of a machine;
* `Turns`              what it does to one strand;
* `Strand.Counts`      the depth of a strand is the number of its open calls, within the limit;
* `Returns`            the first moment at which a thread is back to a number of frames.

A thread that is back has the strand that it had before: the frames below a call are not touched
until the call has its reply.
-/

namespace LuaMachine

namespace Strand

def opened (s : Strand) : Nat := s.frames.countP Frame.isCall

/-- The depth is the number of open calls, and these are no more than the limit allows. -/
def Counts (s : Strand) : Prop := s.depth = s.opened ∧ s.opened ≤ maxDepth

theorem counts_start (o : Option ThreadId) : (start o).Counts := ⟨rfl, Nat.zero_le _⟩

theorem opened_of_cons {s s' : Strand} {f : Frame} (h : s.frames = f :: s'.frames) :
    s.opened = s'.opened + if f.isCall then 1 else 0 := by
  unfold opened
  rw [h, List.countP_cons]

theorem Counts.push {s : Strand} (h : s.Counts) {f : Frame}
    (hroom : f.isCall = true → s.depth < maxDepth) : (s.push f).Counts := by
  obtain ⟨hd, hle⟩ := h
  have ho : (s.push f).opened = s.opened + if f.isCall then 1 else 0 := opened_of_cons rfl
  have hdepth : (s.push f).depth = if f.isCall then s.depth + 1 else s.depth := rfl
  unfold Counts
  rw [ho, hdepth]
  by_cases hf : f.isCall = true
  · have := hroom hf
    rw [if_pos hf, if_pos hf]
    omega
  · rw [if_neg hf, if_neg hf]
    exact ⟨hd, hle⟩

theorem Counts.pop {s s' : Strand} (h : s.Counts) {f : Frame} (hf : s.frames = f :: s'.frames)
    (hd : s'.depth = if f.isCall then s.depth - 1 else s.depth) : s'.Counts := by
  obtain ⟨hs, hle⟩ := h
  rw [opened_of_cons hf] at hs hle
  unfold Counts
  rw [hd, hs]
  split
  · rename_i hc
    rw [if_pos hc] at hle
    omega
  · rename_i hc
    rw [if_neg hc] at hle
    exact ⟨rfl, hle⟩

theorem Counts.ext {s s' : Strand} (h : s.Counts) (h' : s'.Counts) (hf : s'.frames = s.frames)
    (ho : s'.owner = s.owner) : s' = s := by
  obtain ⟨owner, frames, depth⟩ := s
  obtain ⟨owner', frames', depth'⟩ := s'
  cases hf
  cases ho
  rw [Strand.mk.injEq]
  exact ⟨rfl, rfl, h'.1.trans h.1.symm⟩

end Strand

namespace Machine

variable {m m' : Machine} {c d : ThreadId} {o : Option ThreadId} {s : Strand}

def resting (m : Machine) (c : ThreadId) : Strand :=
  match (m.coroutine? c).map Coroutine.parked with
  | some (.strand s) => s
  | _ => Strand.start (some c)

/-- The strand of a thread of control. -/
def strandOf (m : Machine) (o : Option ThreadId) : Strand :=
  match m.strands.find? (·.owner = o), o with
  | some s, _ => s
  | none, some c => m.resting c
  | none, none => Strand.start none

theorem find?_of_nodup {l : List Strand} (hn : (l.map Strand.owner).Nodup) (hs : s ∈ l) :
    l.find? (·.owner = s.owner) = some s := by
  induction l with
  | nil => cases hs
  | cons u l ih =>
    rw [List.map_cons, List.nodup_cons] at hn
    rcases List.mem_cons.mp hs with rfl | hs
    · exact List.find?_cons_of_pos (by simp)
    · have hne : u.owner ≠ s.owner := fun e => hn.1 (e ▸ List.mem_map_of_mem hs)
      rw [List.find?_cons_of_neg (by simpa using hne)]
      exact ih hn.2 hs

theorem Inv.nodup_owners (h : m.Inv) : (m.strands.map Strand.owner).Nodup := by
  show m.owners.Nodup
  rw [h.owners, List.nodup_append]
  refine ⟨h.nodup.map fun _ _ => Option.some.inj, List.nodup_singleton _, ?_⟩
  simp

theorem Inv.strandOf_of_mem (h : m.Inv) (hs : s ∈ m.strands) : m.strandOf s.owner = s := by
  unfold strandOf
  rw [find?_of_nodup h.nodup_owners hs]

theorem Inv.strandOf_current (h : m.Inv) : m.strandOf m.current.owner = m.current :=
  h.strandOf_of_mem List.mem_cons_self

theorem strandOf_resting (hc : c ∉ m.pending) : m.strandOf (some c) = m.resting c := by
  have hnone : m.strands.find? (·.owner = some c) = none := by
    rw [List.find?_eq_none]
    intro s hs ho
    exact hc (List.mem_filterMap.mpr ⟨s, hs, by simpa using ho⟩)
  unfold strandOf
  rw [hnone]

theorem Inv.strandOf_cases (h : m.Inv) (o : Option ThreadId) :
    (∃ s ∈ m.strands, s.owner = o ∧ m.strandOf o = s) ∨
      ∃ c, o = some c ∧ c ∉ m.pending ∧ m.strandOf o = m.resting c := by
  have hmem : o ∈ m.owners → ∃ s ∈ m.strands, s.owner = o ∧ m.strandOf o = s := by
    intro ho
    obtain ⟨s, hs, rfl⟩ := List.mem_map.mp ho
    exact ⟨s, hs, rfl, h.strandOf_of_mem hs⟩
  cases o with
  | none =>
    apply Or.inl (hmem _)
    rw [h.owners]
    simp
  | some c =>
    by_cases hc : c ∈ m.pending
    · apply Or.inl (hmem _)
      rw [h.owners]
      simp [hc]
    · exact .inr ⟨c, rfl, hc, strandOf_resting hc⟩

theorem Inv.owner_resting (h : m.Inv) (c : ThreadId) : (m.resting c).owner = some c := by
  unfold resting
  cases hco : m.coroutine? c with
  | none => rfl
  | some co =>
    have hf := h.fits c co hco
    obtain ⟨status, parked⟩ := co
    cases parked with
    | strand s =>
      cases status with
      | suspended => exact hf.2
      | _ => exact hf.elim
    | _ => rfl

theorem Inv.owner_strandOf (h : m.Inv) (o : Option ThreadId) : (m.strandOf o).owner = o := by
  rcases h.strandOf_cases o with ⟨s, _, ho, e⟩ | ⟨c, rfl, _, e⟩
  · rw [e, ho]
  · rw [e, h.owner_resting]

/-! ## what a step does to the strands -/

/-- The frame that waits for the reply to what an action asks for. -/
inductive Asks : Action Turn → Frame → Prop
  | call {f : FunctionId} {vs : List Value} {k : Reply → Action Turn} :
      Asks (.run (.function f vs) k) ⟨true, k⟩
  | loop {j : Job} {k : Reply → Action Turn} : (∀ f vs, j ≠ .function f vs) →
      Asks (.run j k) ⟨false, k⟩
  | resume {c : ThreadId} {vs : List Value} {k : Reply → Action Turn} :
      Asks (.resume c vs k) ⟨false, k⟩
  | yield {vs : List Value} {k : Reply → Action Turn} : Asks (.yield vs k) ⟨false, k⟩

/-- A coroutine is left alone, or it has just been created. -/
def Kept (m m' : Machine) (d : ThreadId) : Prop :=
  m'.coroutine? d = m.coroutine? d ∨
    m.coroutine? d = none ∧ ∃ f, m'.coroutine? d = some ⟨.suspended, .body f⟩

theorem Kept.of_eq (h : m'.coroutines = m.coroutines) (d : ThreadId) : Kept m m' d :=
  .inl (coroutine?_congr h d)

theorem Kept.resting (h : Kept m m' d) : m'.resting d = m.resting d := by
  unfold Machine.resting
  rcases h with e | ⟨e, f, e'⟩
  · rw [e]
  · rw [e, e']
    rfl

def entered (m : Machine) (c : ThreadId) (k : Reply → Action Turn) : Machine :=
  { (m.mark m.current.owner .normal).setCoroutine c ⟨.running, .nothing⟩ with
    current := m.resting c
    waiting := m.current.push ⟨false, k⟩ :: m.waiting }

/-- What a coroutine does when it is entered: its body begins, or its yield has its reply. -/
def entry (m : Machine) (c : ThreadId) (vs : List Value) : Action Turn :=
  match (m.coroutine? c).map Coroutine.parked with
  | some (.body f) => .run (.function f vs) answer
  | _ => answer (.ok vs)

/-- What a step does to the strands: nothing, it puts a frame on the running one, it hands a reply
to its innermost frame, it enters a coroutine, or it leaves the running one, which is parked or
has ended. -/
inductive Move (m : Machine) (a : Action Turn) (m' : Machine) (a' : Action Turn) : Prop
  | stay (current : m'.current = m.current) (waiting : m'.waiting = m.waiting)
      (kept : ∀ d, Kept m m' d)
  | push (f : Frame) (asks : Asks a f)
      (room : f.isCall = true → m.current.depth < Strand.maxDepth)
      (current : m'.current = m.current.push f) (waiting : m'.waiting = m.waiting)
      (kept : ∀ d, Kept m m' d)
  | pop (f : Frame) (r : Reply) (frames : m.current.frames = f :: m'.current.frames)
      (owner : m'.current.owner = m.current.owner)
      (depth : m'.current.depth = if f.isCall then m.current.depth - 1 else m.current.depth)
      (waiting : m'.waiting = m.waiting) (kept : ∀ d, Kept m m' d)
      (action : a' = f.resume (if f.isCall then callReply r else r))
  | enter (c : ThreadId) (vs : List Value) (k : Reply → Action Turn) (asks : a = .resume c vs k)
      (suspended : m.roster.status c = .suspended) (machine : m' = m.entered c k)
      (action : a' = m.entry c vs)
  | park (c : ThreadId) (vs : List Value) (k : Reply → Action Turn) (asks : a = .yield vs k)
      (owner : m.current.owner = some c) (waiting : m.waiting = m'.current :: m'.waiting)
      (own : m'.coroutine? c = some ⟨.suspended, .strand (m.current.push ⟨false, k⟩)⟩)
      (kept : ∀ d, d ∉ m.pending → Kept m m' d) (action : a' = answer (.ok vs))
  | finish (c : ThreadId) (r : Reply) (replies : a = answer r) (frames : m.current.frames = [])
      (owner : m.current.owner = some c) (waiting : m.waiting = m'.current :: m'.waiting)
      (own : m'.coroutine? c = some ⟨.dead, .nothing⟩)
      (kept : ∀ d, d ∉ m.pending → Kept m m' d) (action : a' = answer (finalReply r))

variable {body : Job → Action Turn} {a a' : Action Turn}

theorem owner_waiting_ne {w : List Strand} (hw : m.waiting = s :: w)
    (hd : d ∉ m.pending) : s.owner ≠ some d := by
  intro ho
  apply hd
  refine List.mem_filterMap.mpr ⟨s, ?_, ho⟩
  show s ∈ m.current :: m.waiting
  rw [hw]
  simp

/-- The running coroutine is put in another state, and the strand behind it goes on. -/
theorem Inv.kept_left (h : m.Inv) {w : List Strand} (hw : m.waiting = s :: w)
    (ho : m.current.owner = some c) (co : Coroutine)
    (hc : ∀ d, m'.coroutine? d = ((m.setCoroutine c co).mark s.owner .running).coroutine? d) :
    m'.coroutine? c = some co ∧ ∀ d, d ∉ m.pending → Kept m m' d := by
  obtain ⟨c', rest, ho', hp, hrest⟩ := h.pending_cons hw
  cases ho.symm.trans ho'
  have hn := h.nodup
  rw [hp, List.nodup_cons] at hn
  have hcs : s.owner ≠ some c := by
    rw [← head?_of_map_append hrest]
    exact fun e => hn.1 (List.mem_of_mem_head? e)
  constructor
  · obtain ⟨co', hco'⟩ := h.known c (by rw [hp]; exact List.mem_cons_self)
    rw [hc, coroutine?_mark, if_neg hcs, coroutine?_setCoroutine, if_pos rfl, hco']
    rfl
  · intro d hd
    have hcd : c ≠ d := by
      rintro rfl
      exact hd (by rw [hp]; exact List.mem_cons_self)
    apply Or.inl
    rw [hc, coroutine?_mark, if_neg (owner_waiting_ne hw hd), coroutine?_setCoroutine,
      if_neg hcd]

theorem Inv.move_deliver (h : m.Inv) {r : Reply} (hs : m.deliver r = .next m' a') :
    Move m (answer r) m' a' := by
  unfold deliver at hs
  split at hs
  · rename_i f rest hf
    cases hs
    exact .pop f r hf rfl rfl rfl (.of_eq rfl) rfl
  · rename_i hf
    split at hs
    · cases hs
    · rename_i s w hw
      obtain ⟨c, _, ho, _⟩ := h.pending_cons hw
      obtain ⟨hm, ha⟩ := Progress.next.inj hs
      have hc : ∀ d, m'.coroutine? d
          = ((m.setCoroutine c ⟨.dead, .nothing⟩).mark s.owner .running).coroutine? d := by
        intro d
        rw [← hm, ho]
        rfl
      obtain ⟨hown, hkept⟩ := h.kept_left hw ho _ hc
      exact .finish c r rfl hf ho (by rw [← hm]; exact hw) hown hkept ha.symm

theorem Inv.move_suspend (h : m.Inv) {vs : List Value} {k : Reply → Action Turn}
    (hs : m.suspend vs k = .next m' a') : Move m (.yield vs k) m' a' := by
  unfold suspend at hs
  split at hs
  · rename_i c s w ho hw
    obtain ⟨hm, ha⟩ := Progress.next.inj hs
    have hc : ∀ d, m'.coroutine? d
        = ((m.setCoroutine c ⟨.suspended, .strand (m.current.push ⟨false, k⟩)⟩).mark s.owner
          .running).coroutine? d := by
      intro d
      rw [← hm]
      rfl
    obtain ⟨hown, hkept⟩ := h.kept_left hw ho _ hc
    exact .park c vs k rfl ho (by rw [← hm]; exact hw) hown hkept ha.symm
  · cases hs
    exact .stay rfl rfl (.of_eq rfl)

theorem Inv.resume_refused (h : m.Inv) (hs : m.roster.status c ≠ .suspended) (vs : List Value)
    (k : Reply → Action Turn) : m.resume c vs k
      = .next m (k (.error (.failed (.coroutine (.notSuspended (m.roster.status c)))))) := by
  rcases h.resume_cases c vs k with ⟨_, e⟩ | ⟨hs', _⟩
  · exact e
  · exact absurd hs' hs

theorem coroutine?_of_suspended (hs : m.roster.status c = .suspended) :
    ∃ co, m.coroutine? c = some co ∧ co.status = .suspended := by
  rw [status_roster] at hs
  cases hco : m.coroutine? c with
  | none =>
    rw [hco] at hs
    cases hs
  | some co =>
    rw [hco] at hs
    exact ⟨co, rfl, hs⟩

theorem Inv.resume_suspended (h : m.Inv) (hs : m.roster.status c = .suspended) (vs : List Value)
    (k : Reply → Action Turn) : m.resume c vs k = .next (m.entered c k) (m.entry c vs) := by
  obtain ⟨⟨status, parked⟩, hco, hst⟩ := coroutine?_of_suspended hs
  have hget : m.coroutines[c.index]? = some ⟨status, parked⟩ := hco
  have hf := h.fits c _ hco
  unfold entered entry resting resume
  rw [hco, hget]
  cases hst
  cases parked with
  | body f => rfl
  | strand s => rfl
  | nothing => exact hf.elim

theorem Inv.not_pending_of_suspended (h : m.Inv) (hs : m.roster.status c = .suspended) :
    c ∉ m.pending := by
  obtain ⟨co, hco, hst⟩ := coroutine?_of_suspended hs
  exact ((h.fits c co hco).suspended hst).1

theorem Inv.kept_entered (h : m.Inv) (k : Reply → Action Turn) (hd : d ∉ m.pending)
    (hdc : d ≠ c) : Kept m (m.entered c k) d := by
  have hne : m.current.owner ≠ some d := by
    rw [← h.head?_pending]
    exact fun e => hd (List.mem_of_mem_head? e)
  apply Or.inl
  show ((m.mark m.current.owner .normal).setCoroutine c ⟨.running, .nothing⟩).coroutine? d = _
  rw [coroutine?_setCoroutine, if_neg (Ne.symm hdc), coroutine?_mark, if_neg hne]

theorem Inv.move_resume (h : m.Inv) {vs : List Value} {k : Reply → Action Turn}
    (hs : m.resume c vs k = .next m' a') : Move m (.resume c vs k) m' a' := by
  by_cases hst : m.roster.status c = .suspended
  · rw [h.resume_suspended hst] at hs
    cases hs
    exact .enter c vs k rfl hst rfl rfl
  · rw [h.resume_refused hst] at hs
    cases hs
    exact .stay rfl rfl (.of_eq rfl)

theorem move_begin {j : Job} {k : Reply → Action Turn} (hs : m.begin body j k = .next m' a') :
    Move m (.run j k) m' a' := by
  unfold begin at hs
  split at hs
  · split at hs
    · cases hs
      exact .stay rfl rfl (.of_eq rfl)
    · rename_i hroom
      cases hs
      exact .push ⟨true, k⟩ .call (fun _ => Nat.lt_of_not_le hroom) rfl rfl (.of_eq rfl)
  · rename_i hj
    cases hs
    exact .push ⟨false, k⟩ (.loop hj) nofun rfl rfl (.of_eq rfl)

theorem kept_spawn (m : Machine) (f : FunctionId) (d : ThreadId) :
    Kept m { m with coroutines := m.coroutines.push ⟨.suspended, .body f⟩ } d := by
  unfold Kept coroutine?
  rw [Array.getElem?_push]
  by_cases hd : d.index = m.coroutines.size
  · rw [if_pos hd]
    exact .inr ⟨Array.getElem?_eq_none (Nat.le_of_eq hd.symm), f, rfl⟩
  · rw [if_neg hd]
    exact .inl rfl

/-- **What one step does to the strands.** -/
theorem Inv.move_step (h : m.Inv) (hs : m.step body a = .next m' a') : Move m a m' a' := by
  cases a with
  | done t =>
    cases t with
    | finish vs => exact h.move_deliver (r := .ok vs) hs
    | again j =>
      cases hs
      exact .stay rfl rfl (.of_eq rfl)
  | exit e => exact h.move_deliver (r := .error e) hs
  | read k =>
    cases hs
    exact .stay rfl rfl (.of_eq rfl)
  | write f k =>
    cases hs
    exact .stay rfl rfl (.of_eq rfl)
  | run j k => exact move_begin hs
  | spawn f k =>
    cases hs
    exact .stay rfl rfl (m.kept_spawn f)
  | resume c vs k => exact h.move_resume hs
  | yield vs k => exact h.move_suspend hs
  | inspect k =>
    cases hs
    exact .stay rfl rfl (.of_eq rfl)

/-! ## what a step does to one strand -/

/-- What happens to one strand between two moments: nothing, a frame is put on it, its innermost
frame gets a reply and the strand goes on, or it has ended. -/
inductive Turns (x y : Moment) : Strand → Strand → Prop
  | same {s : Strand} : Turns x y s s
  | push {s : Strand} (f : Frame) (asks : Asks x.2 f)
      (room : f.isCall = true → s.depth < Strand.maxDepth) : Turns x y s (s.push f)
  | pop {s s' : Strand} (f : Frame) (r : Reply) (frames : s.frames = f :: s'.frames)
      (owner : s'.owner = s.owner)
      (depth : s'.depth = if f.isCall then s.depth - 1 else s.depth) (current : y.1.current = s')
      (action : y.2 = f.resume (if f.isCall then callReply r else r)) : Turns x y s s'
  | ended {s : Strand} (frames : s.frames = []) : Turns x y s (Strand.start s.owner)

theorem Move.mem_strands (hm : Move m a m' a') (hs : s ∈ m.waiting) : s ∈ m'.strands := by
  have hkeep : m'.waiting = m.waiting → s ∈ m'.strands := by
    intro e
    show s ∈ m'.current :: m'.waiting
    rw [e]
    exact List.mem_cons_of_mem _ hs
  cases hm with
  | stay _ hw _ => exact hkeep hw
  | push _ _ _ _ hw _ => exact hkeep hw
  | pop _ _ _ _ _ hw _ _ => exact hkeep hw
  | enter c vs k _ _ hm _ =>
    rw [hm]
    exact List.mem_cons_of_mem _ (List.mem_cons_of_mem _ hs)
  | park c vs k _ _ hw _ _ _ =>
    rw [hw] at hs
    exact hs
  | finish c r _ _ _ hw _ _ _ =>
    rw [hw] at hs
    exact hs

theorem pending_eq_of_strands (hc : m'.current.owner = m.current.owner)
    (hw : m'.waiting = m.waiting) : m'.pending = m.pending := by
  apply pending_congr
  show m'.current.owner :: m'.waiting.map Strand.owner
    = m.current.owner :: m.waiting.map Strand.owner
  rw [hc, hw]

theorem not_pending_of_left (hw : m.waiting = m'.current :: m'.waiting)
    (hd : d ∉ m.pending) : d ∉ m'.pending := by
  intro hin
  obtain ⟨s, hs, ho⟩ := List.mem_filterMap.mp hin
  refine hd (List.mem_filterMap.mpr ⟨s, ?_, ho⟩)
  show s ∈ m.current :: m.waiting
  rw [hw]
  exact List.mem_cons_of_mem _ hs

theorem Inv.pending_entered (h : m.Inv) (c : ThreadId) (k : Reply → Action Turn) :
    (m.entered c k).pending = c :: m.pending := by
  show List.filterMap Strand.owner (m.resting c :: m.current.push ⟨false, k⟩ :: m.waiting) = _
  rw [List.filterMap_cons, h.owner_resting]
  rfl

/-- **A step changes no strand but the running one.** -/
theorem Move.strandOf_of_ne (hm : Move m a m' a') (h : m.Inv) (h' : m'.Inv)
    (ho : o ≠ m.current.owner) : m'.strandOf o = m.strandOf o := by
  rcases h.strandOf_cases o with ⟨s, hs, rfl, e⟩ | ⟨d, rfl, hd, e⟩
  · rcases List.mem_cons.mp hs with rfl | hs
    · exact absurd rfl ho
    · rw [e, h'.strandOf_of_mem (hm.mem_strands hs)]
  · rw [e]
    have hkeep : d ∉ m'.pending → Kept m m' d → m'.strandOf (some d) = m.resting d :=
      fun hd' hk => (strandOf_resting hd').trans hk.resting
    cases hm with
    | stay hc hw hk => exact hkeep (by rw [pending_eq_of_strands (by rw [hc]) hw]; exact hd) (hk d)
    | push f _ _ hc hw hk =>
      exact hkeep (by rw [pending_eq_of_strands (by rw [hc]; rfl) hw]; exact hd) (hk d)
    | pop f r _ hc _ hw hk _ => exact hkeep (by rw [pending_eq_of_strands hc hw]; exact hd) (hk d)
    | enter c vs k _ _ hm _ =>
      subst hm
      by_cases hdc : d = c
      · subst hdc
        have e' := h'.strandOf_current
        change (m.entered d k).strandOf (m.resting d).owner = m.resting d at e'
        rw [h.owner_resting] at e'
        exact e'
      · refine hkeep ?_ (h.kept_entered k hd hdc)
        rw [h.pending_entered, List.mem_cons]
        exact fun hin => hin.elim hdc hd
    | park c vs k _ _ hw _ hk _ => exact hkeep (not_pending_of_left hw hd) (hk d hd)
    | finish c r _ _ _ hw _ hk _ => exact hkeep (not_pending_of_left hw hd) (hk d hd)

theorem Inv.not_pending_left (h : m.Inv) (ho : m.current.owner = some c)
    (hw : m.waiting = m'.current :: m'.waiting) : c ∉ m'.pending := by
  intro hin
  obtain ⟨s, hs, hso⟩ := List.mem_filterMap.mp hin
  have hn := h.nodup_owners
  change (m.current.owner :: m.waiting.map Strand.owner).Nodup at hn
  rw [List.nodup_cons, ho, ← hso, hw] at hn
  exact hn.1 (List.mem_map_of_mem hs)

theorem Move.turns_current (hm : Move m a m' a') (h : m.Inv) (h' : m'.Inv) :
    Turns (m, a) (m', a') m.current (m'.strandOf m.current.owner) := by
  cases hm with
  | stay hc _ _ =>
    rw [← hc, h'.strandOf_current]
    exact .same
  | push f hasks hroom hc _ _ =>
    have ho : m'.current.owner = m.current.owner := by rw [hc]; rfl
    rw [← ho, h'.strandOf_current, hc]
    exact .push f hasks hroom
  | pop f r hf ho hd _ _ ha =>
    rw [← ho, h'.strandOf_current]
    exact .pop f r hf ho hd rfl ha
  | enter c vs k hasks _ hm _ =>
    subst hm hasks
    have e := h'.strandOf_of_mem (List.mem_cons_of_mem _ List.mem_cons_self)
    change (m.entered c k).strandOf m.current.owner = m.current.push ⟨false, k⟩ at e
    rw [e]
    exact .push _ .resume nofun
  | park c vs k hasks ho hw hown _ _ =>
    subst hasks
    rw [ho, strandOf_resting (h.not_pending_left ho hw)]
    unfold resting
    rw [hown]
    exact .push ⟨false, k⟩ .yield nofun
  | finish c r _ hf ho hw hown _ _ =>
    rw [ho, strandOf_resting (h.not_pending_left ho hw)]
    unfold resting
    rw [hown, ← ho]
    exact .ended hf

theorem frames_halt {r : Reply} (hs : m.step body a = .halt m' r) : m.current.frames = [] := by
  obtain ⟨r', hd⟩ := deliver_of_halt hs
  unfold deliver at hd
  split at hd
  · cases hd
  · assumption

theorem Inv.owner_halt (h : m.Inv) {r : Reply} (hs : m.step body a = .halt m' r) :
    m.current.owner = none := by
  rw [← h.head?_pending, h.pending_halt (halt_cases hs).2]
  rfl

theorem Inv.not_halt (h : m.Inv) {n : Nat} (hn : n < (m.strandOf none).frames.length) {r : Reply} :
    m.step body a ≠ .halt m' r := by
  intro hs
  have hcur := h.strandOf_current
  rw [h.owner_halt hs] at hcur
  rw [hcur, frames_halt hs] at hn
  exact absurd hn (Nat.not_lt_zero n)

theorem strandOf_restart (heap : Heap) (m : Machine) (o : Option ThreadId) :
    ({ initial heap with coroutines := m.coroutines } : Machine).strandOf o
      = match o with
        | some c => m.resting c
        | none => Strand.start none := by
  cases o <;> rfl

/-- **What comes next does to each strand one thing**, and nothing to those that do not run. -/
theorem Inv.turns {x y : Moment} (h : x.1.Inv) (hs : Proceeds body x y) (o : Option ThreadId) :
    Turns x y (x.1.strandOf o) (y.1.strandOf o) ∧
      (o ≠ x.1.current.owner → y.1.strandOf o = x.1.strandOf o) := by
  have h' := h.proceeds hs
  cases hs with
  | @step m m' a a' hs =>
    have hm := h.move_step hs
    have hother : o ≠ m.current.owner → m'.strandOf o = m.strandOf o := hm.strandOf_of_ne h h'
    refine ⟨?_, hother⟩
    by_cases ho : o = m.current.owner
    · subst ho
      show Turns (m, a) (m', a') (m.strandOf m.current.owner) _
      rw [h.strandOf_current]
      exact hm.turns_current h h'
    · show Turns (m, a) (m', a') (m.strandOf o) (m'.strandOf o)
      rw [hother ho]
      exact .same
  | @restart m m' a r hs heap a' =>
    obtain ⟨rfl, hw⟩ := halt_cases hs
    have hp := h.pending_halt hw
    have hcur := h.owner_halt hs
    cases o with
    | none =>
      refine ⟨?_, fun hne => absurd hcur.symm hne⟩
      show Turns _ _ (m'.strandOf none) (Strand.start none)
      rw [← hcur, h.strandOf_current]
      exact .ended (frames_halt hs)
    | some c =>
      have e : ({ initial heap with coroutines := m'.coroutines } : Machine).strandOf (some c)
          = m'.strandOf (some c) := by
        rw [strandOf_restart, strandOf_resting (by rw [hp]; exact List.not_mem_nil)]
      refine ⟨?_, fun _ => e⟩
      show Turns _ _ (m'.strandOf (some c)) (Machine.strandOf _ (some c))
      rw [e]
      exact .same

/-! ## counting open calls -/

theorem Turns.counts {x y : Moment} {s s' : Strand} (ht : Turns x y s s') (h : s.Counts) :
    s'.Counts := by
  cases ht with
  | same => exact h
  | push f _ hroom => exact h.push hroom
  | pop f r hf _ hd _ _ => exact h.pop hf hd
  | ended _ => exact Strand.counts_start _

theorem counts_initial (heap : Heap) (o : Option ThreadId) :
    ((initial heap).strandOf o).Counts := by
  cases o with
  | none => exact Strand.counts_start none
  | some c => exact Strand.counts_start (some c)

theorem Inv.counts_run {x y : Moment} (h : x.1.Inv) (hc : ∀ o, (x.1.strandOf o).Counts)
    (hr : Run body x y) (o : Option ThreadId) : (y.1.strandOf o).Counts := by
  induction hr with
  | refl => exact hc o
  | tail hxy hs ih => exact ((h.run hxy).turns hs o).1.counts ih

abbrev RunWithout (body : Job → Action Turn) (o : Option ThreadId) : Moment → Moment → Prop :=
  Relation.ReflTransGen fun x y => Proceeds body x y ∧ x.1.current.owner ≠ o

theorem RunWithout.run {x y : Moment} (hr : RunWithout body o x y) : Run body x y := by
  induction hr with
  | refl => exact .refl
  | tail _ hs ih => exact ih.tail hs.1

theorem Inv.strandOf_runWithout {x y : Moment} (h : x.1.Inv) (hr : RunWithout body o x y) :
    y.1.strandOf o = x.1.strandOf o := by
  induction hr with
  | refl => rfl
  | tail hxy hs ih => rw [((h.run (RunWithout.run hxy)).turns hs.1 o).2 hs.2.symm, ih]

/-! ## returning -/

/-- What comes after a step that does not end the program is that step. -/
theorem Proceeds.eq_of_next {y : Moment} (hy : Proceeds body (m, a) y)
    (hs : m.step body a = .next m' a') : y = (m', a') := by
  cases hy with
  | step hs' =>
    obtain ⟨rfl, rfl⟩ := Progress.next.inj (hs.symm.trans hs')
    rfl
  | restart hs' => cases hs.symm.trans hs'

/-- The first moment, from a moment on, at which a thread has no more than `n` frames. -/
inductive Returns (body : Job → Action Turn) (o : Option ThreadId) (n : Nat) :
    Moment → Moment → Prop
  | back {x : Moment} : (x.1.strandOf o).frames.length ≤ n → Returns body o n x x
  | later {x y z : Moment} : n < (x.1.strandOf o).frames.length → Proceeds body x y →
      Returns body o n y z → Returns body o n x z

/-- **A frame stays until it has its reply**, and the strand below it stays as it is. -/
theorem Returns.strand {x z : Moment} {n : Nat} (hr : Returns body o n x z) {base : Strand}
    {f : Frame} (h : x.1.Inv) (hc : (x.1.strandOf o).Counts) (hb : base.Counts)
    (ho : base.owner = o) (hn : base.frames.length = n)
    (hf : ∃ above, (x.1.strandOf o).frames = above ++ f :: base.frames) :
    z.1.current = base ∧ ∃ r, z.2 = f.resume (if f.isCall then callReply r else r) := by
  induction hr with
  | back hle =>
    obtain ⟨above, e⟩ := hf
    rw [e, List.length_append, List.length_cons] at hle
    omega
  | @later x y z _ hs hyz ih =>
    have ⟨ht, _⟩ := h.turns hs o
    have hown : (y.1.strandOf o).owner = o := (h.proceeds hs).owner_strandOf o
    obtain ⟨above, e⟩ := hf
    -- as long as the frame is there, later moments decide
    have hstays : (∃ above, (y.1.strandOf o).frames = above ++ f :: base.frames) →
        z.1.current = base ∧ ∃ r, z.2 = f.resume (if f.isCall then callReply r else r) :=
      fun hf => ih (h.proceeds hs) (ht.counts hc) hf
    generalize x.1.strandOf o = s at ht e hc
    generalize hs' : y.1.strandOf o = s' at ht hown hstays
    cases ht with
    | same => exact hstays ⟨above, e⟩
    | push g _ _ => exact hstays ⟨g :: above, congrArg (g :: ·) e⟩
    | ended hnil =>
      rw [e] at hnil
      simp at hnil
    | pop g r hg _ hd hcur hact =>
      rw [e] at hg
      cases above with
      | cons g' above => exact hstays ⟨above, (List.cons.inj hg).2.symm⟩
      | nil =>
        -- the frame itself has its reply, and the thread is back
        obtain ⟨rfl, hrest⟩ := List.cons.inj hg
        have hback : s' = base :=
          Strand.Counts.ext hb (hc.pop (by rw [e, ← hrest]; rfl) hd) hrest.symm (hown.trans ho.symm)
        cases hyz with
        | back _ => exact ⟨hcur.trans hback, r, hact⟩
        | later hlt _ _ =>
          rw [hs', hback] at hlt
          omega

theorem Returns.eq_of_back {x z : Moment} {n : Nat} (hr : Returns body o n x z)
    (hle : (x.1.strandOf o).frames.length ≤ n) : z = x := by
  cases hr with
  | back _ => rfl
  | later hlt _ _ => omega

theorem Inv.returns_push (h : m.Inv) (hc : ∀ o, (m.strandOf o).Counts) {x y z : Moment} {f : Frame}
    (hx : x.1 = m) (hs : Proceeds body x y)
    (hpush : y.1.strandOf m.current.owner = m.current.push f)
    (hr : Returns body m.current.owner m.current.frames.length y z) :
    z.1.current = m.current ∧ ∃ r, z.2 = f.resume (if f.isCall then callReply r else r) := by
  subst hx
  have hcur := hc x.1.current.owner
  rw [h.strandOf_current] at hcur
  refine hr.strand (h.proceeds hs) ?_ hcur rfl rfl ⟨[], by rw [hpush]; rfl⟩
  exact (h.turns hs _).1.counts (hc _)

theorem Inv.returns_same (h : m.Inv) {y z : Moment} (hy : y.1 = m)
    (hr : Returns body m.current.owner m.current.frames.length y z) : z = y := by
  have hcur : y.1.strandOf m.current.owner = m.current := by rw [hy, h.strandOf_current]
  exact hr.eq_of_back (Nat.le_of_eq (congrArg (fun s => s.frames.length) hcur))

/-- **A call returns to where it was made.** -/
theorem Inv.returns_call (h : m.Inv) (hc : ∀ o, (m.strandOf o).Counts) {f : FunctionId}
    {vs : List Value} {k : Reply → Action Turn} {y z : Moment}
    (hs : Proceeds body (m, .run (.function f vs) k) y)
    (hr : Returns body m.current.owner m.current.frames.length y z) :
    z.1.current = m.current ∧ ∃ r, z.2 = k (callReply r) := by
  by_cases hfull : Strand.maxDepth ≤ m.current.depth
  · cases hs.eq_of_next (if_pos hfull)
    rw [h.returns_same rfl hr]
    exact ⟨rfl, .error (.failed .stackOverflow), rfl⟩
  · cases hs.eq_of_next (if_neg hfull)
    exact h.returns_push hc rfl hs (h.proceeds hs).strandOf_current hr

/-- **So does a resume**, whether the coroutine yields, ends, fails or is aborted. -/
theorem Inv.returns_resume (h : m.Inv) (hc : ∀ o, (m.strandOf o).Counts) {vs : List Value}
    {k : Reply → Action Turn} {y z : Moment} (hs : Proceeds body (m, .resume c vs k) y)
    (hr : Returns body m.current.owner m.current.frames.length y z) :
    z.1.current = m.current ∧ ∃ r, z.2 = k r := by
  by_cases hst : m.roster.status c = .suspended
  · cases hs.eq_of_next (h.resume_suspended hst vs k)
    have hin : m.current.push ⟨false, k⟩ ∈ (m.entered c k).strands :=
      List.mem_cons_of_mem _ List.mem_cons_self
    exact h.returns_push hc rfl hs ((h.proceeds hs).strandOf_of_mem hin) hr
  · cases hs.eq_of_next (h.resume_refused hst vs k)
    rw [h.returns_same rfl hr]
    exact ⟨rfl, _, rfl⟩

end Machine

end LuaMachine
