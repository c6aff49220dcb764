import LuaMachine.Proofs.Wrapping

/-!
# A call does not look at its caller

A frame waits for a reply and says how to go on with it.  Until the reply is there nothing looks at
what the frame will do.  So a call gives the same reply, and leaves the same machine, whatever its
caller does with the reply.

* `Strand.refit`, `Machine.refit`   a machine in which one frame goes on in another way;
* `refit_step`        a step that leaves the frame where it is does not depend on it;
* `refit_reply`       the step that replies to the frame depends on it only in how it goes on;
* `Returns.refit`     what a frame gets does not depend on what it does with it;
* `Answered`          what a call, a resume or a yield gives to every caller;
* `answered_of_returns`   to know it, look at one caller.
-/

namespace LuaMachine

/-! ## frames that go on in another way -/

/-- The frame that has `n` frames below it goes on in another way. -/
def refitFrames (n : Nat) (k : Reply → Action Turn) : List Frame → List Frame
  | [] => []
  | f :: rest =>
    if rest.length = n then { f with resume := k } :: rest else f :: refitFrames n k rest

section
variable {n : Nat} {k : Reply → Action Turn} {f : Frame} {fs rest : List Frame}

theorem refitFrames_at (h : rest.length = n) :
    refitFrames n k (f :: rest) = { f with resume := k } :: rest := if_pos h

theorem refitFrames_above (h : rest.length ≠ n) :
    refitFrames n k (f :: rest) = f :: refitFrames n k rest := if_neg h

theorem length_refitFrames (n : Nat) (k : Reply → Action Turn) (fs : List Frame) :
    (refitFrames n k fs).length = fs.length := by
  induction fs with
  | nil => rfl
  | cons f rest ih =>
    unfold refitFrames
    split
    · rfl
    · rw [List.length_cons, ih, List.length_cons]

theorem refitFrames_short (h : fs.length ≤ n) : refitFrames n k fs = fs := by
  induction fs with
  | nil => rfl
  | cons f rest ih =>
    rw [List.length_cons] at h
    rw [refitFrames_above (by omega), ih (by omega)]

end

namespace Strand

def refit (o : Option ThreadId) (n : Nat) (k : Reply → Action Turn) (s : Strand) : Strand :=
  { s with frames := if s.owner = o then refitFrames n k s.frames else s.frames }

variable {o : Option ThreadId} {n : Nat} {k : Reply → Action Turn} {s : Strand}

theorem refit_start (c : Option ThreadId) : (start c).refit o n k = start c := by
  show ({ start c with frames := if c = o then [] else [] } : Strand) = start c
  rw [ite_self]
  rfl

theorem length_refit (s : Strand) : (s.refit o n k).frames.length = s.frames.length := by
  show (if s.owner = o then refitFrames n k s.frames else s.frames).length = _
  split
  · exact length_refitFrames n k _
  · rfl

theorem refit_push (h : s.owner = o → n < s.frames.length) (f : Frame) :
    (s.push f).refit o n k = (s.refit o n k).push f := by
  show (⟨s.owner, if s.owner = o then refitFrames n k (f :: s.frames) else f :: s.frames, _⟩ : Strand)
    = ⟨s.owner, f :: if s.owner = o then refitFrames n k s.frames else s.frames, _⟩
  by_cases ho : s.owner = o
  · rw [if_pos ho, if_pos ho, refitFrames_above (by have := h ho; omega)]
    rfl
  · rw [if_neg ho, if_neg ho]
    rfl

theorem refit_short (h : s.owner = o → s.frames.length ≤ n) : s.refit o n k = s := by
  unfold refit
  split
  · rename_i ho
    rw [refitFrames_short (h ho)]
  · rfl

end Strand

def Coroutine.refit (o : Option ThreadId) (n : Nat) (k : Reply → Action Turn) (co : Coroutine) :
    Coroutine :=
  match co.parked with
  | .strand s => { co with parked := .strand (s.refit o n k) }
  | _ => co

namespace Machine

/-- The machine in which one frame of a thread goes on in another way, wherever its strand is. -/
def refit (m : Machine) (o : Option ThreadId) (n : Nat) (k : Reply → Action Turn) : Machine where
  heap := m.heap
  coroutines := m.coroutines.map (Coroutine.refit o n k)
  current := m.current.refit o n k
  waiting := m.waiting.map (Strand.refit o n k)

variable {body : Job → Action Turn} {m m' : Machine} {a a' : Action Turn} {c : ThreadId}
  {o o' : Option ThreadId} {n : Nat} {k : Reply → Action Turn} {s : Strand} {x y z : Moment}

theorem status_refit (co : Coroutine) : (co.refit o n k).status = co.status := by
  obtain ⟨status, parked⟩ := co
  cases parked <;> rfl

theorem roster_refit (m : Machine) : (m.refit o n k).roster = m.roster := by
  show Roster.mk ((m.coroutines.map _).map _) m.current.owner = Roster.mk _ _
  rw [Array.map_map]
  congr 1
  refine Array.map_congr_left fun co _ => ?_
  exact status_refit co

theorem coroutine?_refit (m : Machine) (c : ThreadId) :
    (m.refit o n k).coroutine? c = (m.coroutine? c).map (Coroutine.refit o n k) := by
  show (m.coroutines.map _)[c.index]? = _
  rw [Array.getElem?_map]
  rfl

theorem setCoroutine_refit (m : Machine) (c : ThreadId) (co : Coroutine) :
    (m.setCoroutine c co).refit o n k = (m.refit o n k).setCoroutine c (co.refit o n k) := by
  unfold setCoroutine refit
  dsimp only
  rw [Array.map_setIfInBounds]

theorem mark_refit (m : Machine) (o' : Option ThreadId) (s : Status) :
    (m.mark o' s).refit o n k = (m.refit o n k).mark o' s := by
  cases o' with
  | none => rfl
  | some c => exact m.setCoroutine_refit c ⟨s, .nothing⟩

theorem resting_refit (m : Machine) (c : ThreadId) :
    (m.refit o n k).resting c = (m.resting c).refit o n k := by
  unfold resting
  rw [coroutine?_refit]
  cases m.coroutine? c with
  | none => exact (Strand.refit_start (some c)).symm
  | some co =>
    obtain ⟨status, parked⟩ := co
    cases parked with
    | strand s => rfl
    | body f => exact (Strand.refit_start (some c)).symm
    | nothing => exact (Strand.refit_start (some c)).symm

theorem strandOf_refit (m : Machine) (o' : Option ThreadId) :
    (m.refit o n k).strandOf o' = (m.strandOf o').refit o n k := by
  have hstrands : (m.refit o n k).strands = m.strands.map (Strand.refit o n k) := rfl
  have hfind : (m.refit o n k).strands.find? (·.owner = o')
      = (m.strands.find? (·.owner = o')).map (Strand.refit o n k) := by
    rw [hstrands, List.find?_map]
    rfl
  unfold strandOf
  rw [hfind]
  cases m.strands.find? (·.owner = o') with
  | some s => rfl
  | none =>
    cases o' with
    | some c => exact m.resting_refit c
    | none => exact (Strand.refit_start none).symm

theorem Inv.refit_short (h : m.Inv) (hle : (m.strandOf o).frames.length ≤ n) :
    m.refit o n k = m := by
  have hstrand : ∀ s ∈ m.strands, s.refit o n k = s := by
    intro s hs
    refine Strand.refit_short fun ho => ?_
    rw [← h.strandOf_of_mem hs, ho]
    exact hle
  have hco : m.coroutines.map (Coroutine.refit o n k) = m.coroutines := by
    apply Array.ext_getElem?
    intro i
    rw [Array.getElem?_map]
    cases hget : m.coroutines[i]? with
    | none => rfl
    | some co =>
      have hf := h.fits ⟨i⟩ co hget
      obtain ⟨status, parked⟩ := co
      refine congrArg some ?_
      cases parked with
      | body f => rfl
      | nothing => rfl
      | strand s =>
        cases status with
        | suspended =>
          show Coroutine.mk _ (.strand (s.refit o n k)) = _
          rw [Strand.refit_short fun ho => ?_]
          rw [← ho, hf.2, strandOf_resting hf.1] at hle
          unfold resting at hle
          rw [show m.coroutine? ⟨i⟩ = _ from hget] at hle
          exact hle
        | _ => exact hf.elim
  have hw : m.waiting.map (Strand.refit o n k) = m.waiting :=
    (List.map_congr_left fun s hs => hstrand s (List.mem_cons_of_mem _ hs)).trans (List.map_id' _)
  unfold refit
  rw [hco, hw, hstrand m.current List.mem_cons_self]

/-! ## steps that leave the frame where it is -/

theorem Inv.refit_deliver {r : Reply} (h' : m'.Inv) (hs : m.deliver r = .next m' a')
    (hy : n < (m'.strandOf o).frames.length) (k : Reply → Action Turn) :
    (m.refit o n k).deliver r = .next (m'.refit o n k) a' := by
  unfold deliver at hs
  split at hs
  · rename_i f rest hf
    obtain ⟨hm, ha⟩ := Progress.next.inj hs
    -- the frame that gets the reply is another one, since the thread keeps more than `n` frames
    have hne : m.current.owner = o → rest.length ≠ n := by
      intro ho hlen
      have e := h'.strandOf_current
      rw [← hm] at e
      change Machine.strandOf _ m.current.owner = _ at e
      rw [← hm, ← ho, e] at hy
      exact absurd hlen (Nat.ne_of_gt hy)
    have hframes : (m.refit o n k).current.frames
        = f :: ((⟨m.current.owner, rest, m.current.depth⟩ : Strand).refit o n k).frames := by
      show (if m.current.owner = o then refitFrames n k m.current.frames else m.current.frames)
        = f :: if m.current.owner = o then refitFrames n k rest else rest
      rw [hf]
      split
      · rename_i ho
        exact refitFrames_above (hne ho)
      · rfl
    unfold deliver
    rw [hframes, ← hm, ← ha]
    rfl
  · rename_i hf
    split at hs
    · cases hs
    · rename_i u w hw
      obtain ⟨hm, ha⟩ := Progress.next.inj hs
      have hf' : (m.refit o n k).current.frames = [] := by
        rw [← List.length_eq_zero_iff, show (m.refit o n k).current = m.current.refit o n k from rfl,
          Strand.length_refit, hf]
        rfl
      have hw' : (m.refit o n k).waiting = u.refit o n k :: w.map (Strand.refit o n k) := by
        show m.waiting.map _ = _
        rw [hw]
        rfl
      rw [deliver_of_empty hf' hw', ← hm, ← ha]
      show Progress.next { ((m.refit o n k).mark m.current.owner .dead).mark u.owner .running with
        current := u.refit o n k, waiting := w.map (Strand.refit o n k) } _ = _
      rw [← mark_refit, ← mark_refit]
      rfl

theorem refit_suspend {vs : List Value} {q : Reply → Action Turn}
    (hs : m.suspend vs q = .next m' a')
    (hcur : m.current.owner = o → n < m.current.frames.length) (k : Reply → Action Turn) :
    (m.refit o n k).suspend vs q = .next (m'.refit o n k) a' := by
  cases ho : m.current.owner with
  | none =>
    have e : ∀ m₁ : Machine, m₁.current.owner = none → m₁.suspend vs q
        = .next m₁ (q (.error (.failed (.coroutine .outside)))) := by
      intro m₁ h₁
      unfold suspend
      rw [h₁]
    rw [e m ho] at hs
    cases hs
    exact e _ ho
  | some c =>
    cases hw : m.waiting with
    | nil =>
      have e : ∀ m₁ : Machine, m₁.waiting = [] → m₁.suspend vs q
          = .next m₁ (q (.error (.failed (.coroutine .outside)))) := by
        intro m₁ h₁
        unfold suspend
        rw [h₁]
        cases m₁.current.owner <;> rfl
      rw [e m hw] at hs
      cases hs
      exact e _ (by show m.waiting.map _ = []; rw [hw]; rfl)
    | cons u w =>
      have hw' : (m.refit o n k).waiting = u.refit o n k :: w.map (Strand.refit o n k) := by
        show m.waiting.map _ = _
        rw [hw]
        rfl
      rw [suspend_of_owner ho hw] at hs
      obtain ⟨hm, ha⟩ := Progress.next.inj hs
      rw [suspend_of_owner (m := m.refit o n k) ho hw', ← hm, ← ha]
      show Progress.next { ((m.refit o n k).setCoroutine c
          ⟨.suspended, .strand ((m.current.refit o n k).push ⟨false, q⟩)⟩).mark u.owner .running with
        current := u.refit o n k, waiting := w.map (Strand.refit o n k) } _ = _
      rw [← Strand.refit_push hcur]
      have e := m.setCoroutine_refit (o := o) (n := n) (k := k) c
        ⟨.suspended, .strand (m.current.push ⟨false, q⟩)⟩
      change _ = (m.refit o n k).setCoroutine c
        ⟨.suspended, .strand ((m.current.push ⟨false, q⟩).refit o n k)⟩ at e
      rw [← e, ← mark_refit]
      rfl

theorem refit_resume {vs : List Value} {q : Reply → Action Turn}
    (hs : m.resume c vs q = .next m' a')
    (hcur : m.current.owner = o → n < m.current.frames.length) (k : Reply → Action Turn) :
    (m.refit o n k).resume c vs q = .next (m'.refit o n k) a' := by
  have hget : (m.refit o n k).coroutines[c.index]?
      = (m.coroutines[c.index]?).map (Coroutine.refit o n k) := m.coroutine?_refit c
  -- the machine that is left, around the strand that is entered
  have henter : ∀ t : Strand, ({ ((m.refit o n k).mark m.current.owner .normal).setCoroutine c
        ⟨.running, .nothing⟩ with
        current := t.refit o n k
        waiting := (m.current.refit o n k).push ⟨false, q⟩ :: m.waiting.map (Strand.refit o n k) } :
        Machine)
      = ({ (m.mark m.current.owner .normal).setCoroutine c ⟨.running, .nothing⟩ with
          current := t, waiting := m.current.push ⟨false, q⟩ :: m.waiting } : Machine).refit o n k := by
    intro t
    have e := (m.mark m.current.owner .normal).setCoroutine_refit (o := o) (n := n) (k := k) c
      ⟨.running, .nothing⟩
    change _ = Machine.setCoroutine _ c ⟨.running, .nothing⟩ at e
    rw [← mark_refit, ← e, ← Strand.refit_push hcur]
    rfl
  unfold resume at hs ⊢
  rw [hget]
  cases hco : m.coroutines[c.index]? with
  | none =>
    rw [hco] at hs
    cases hs
    rfl
  | some co =>
    rw [hco] at hs
    obtain ⟨status, parked⟩ := co
    cases status with
    | suspended =>
      cases parked with
      | body f =>
        cases hs
        have e := henter (Strand.start (some c))
        rw [Strand.refit_start] at e
        exact congrArg (Progress.next · _) e
      | strand t =>
        cases hs
        exact congrArg (Progress.next · _) (henter t)
      | nothing =>
        cases hs
        rfl
    | running =>
      cases hs
      cases parked <;> rfl
    | normal =>
      cases hs
      cases parked <;> rfl
    | dead =>
      cases hs
      cases parked <;> rfl

theorem refit_begin {j : Job} {q : Reply → Action Turn} (hs : m.begin body j q = .next m' a')
    (hcur : m.current.owner = o → n < m.current.frames.length) (k : Reply → Action Turn) :
    (m.refit o n k).begin body j q = .next (m'.refit o n k) a' := by
  have hpush : ∀ f : Frame, ({ m.refit o n k with current := (m.current.refit o n k).push f } :
      Machine) = ({ m with current := m.current.push f } : Machine).refit o n k := by
    intro f
    rw [← Strand.refit_push hcur]
    rfl
  unfold begin at hs ⊢
  cases j with
  | function f vs =>
    change (if Strand.maxDepth ≤ m.current.depth then _ else _) = _ at hs
    show (if Strand.maxDepth ≤ m.current.depth then _ else _) = _
    split
    · rename_i hfull
      rw [if_pos hfull] at hs
      cases hs
      rfl
    · rename_i hfull
      rw [if_neg hfull] at hs
      cases hs
      exact congrArg (Progress.next · _) (hpush _)
  | whileLoop _ _ _ =>
    cases hs
    exact congrArg (Progress.next · _) (hpush _)
  | each _ _ _ _ =>
    cases hs
    exact congrArg (Progress.next · _) (hpush _)

/-- **A step that leaves a frame where it is does not look at it.** -/
theorem Inv.refit_step (h : m.Inv) (hs : m.step body a = .next m' a')
    (hx : n < (m.strandOf o).frames.length) (hy : n < (m'.strandOf o).frames.length)
    (k : Reply → Action Turn) : (m.refit o n k).step body a = .next (m'.refit o n k) a' := by
  have h' : m'.Inv := h.of_shift (h.shift_step hs)
  have hcur : m.current.owner = o → n < m.current.frames.length := by
    rintro rfl
    rw [h.strandOf_current] at hx
    exact hx
  cases a with
  | done t =>
    cases t with
    | finish vs => exact h'.refit_deliver hs hy k
    | again j =>
      cases hs
      rfl
  | exit e => exact h'.refit_deliver hs hy k
  | read q =>
    cases hs
    rfl
  | write f q =>
    cases hs
    rfl
  | run j q => exact refit_begin hs hcur k
  | spawn f q =>
    cases hs
    show Progress.next { m.refit o n k with
      coroutines := (m.coroutines.map _).push ⟨.suspended, .body f⟩ }
      (q ⟨(m.coroutines.map _).size⟩) = Progress.next (refit _ o n k) _
    rw [Array.size_map]
    unfold refit
    dsimp only
    rw [Array.map_push]
    rfl
  | resume c vs q => exact refit_resume hs hcur k
  | yield vs q => exact refit_suspend hs hcur k
  | inspect q =>
    cases hs
    show Progress.next (m.refit o n k) (q (m.refit o n k).roster) = _
    rw [roster_refit]

theorem refit_halt {r : Reply} (hs : m.step body a = .halt m' r) (k : Reply → Action Turn) :
    (m.refit o n k).step body a = .halt (m'.refit o n k) r := by
  have hdeliver : ∀ r', m.deliver r' = .halt m' r →
      (m.refit o n k).deliver r' = .halt (m'.refit o n k) r := by
    intro r' hd
    unfold deliver at hd
    split at hd
    · cases hd
    · rename_i hf
      split at hd
      · rename_i hw
        cases hd
        have hf' : (m.refit o n k).current.frames = [] := by
          rw [← List.length_eq_zero_iff, show (m.refit o n k).current = m.current.refit o n k from rfl,
            Strand.length_refit, hf]
          rfl
        have hw' : (m.refit o n k).waiting = [] := by
          show m.waiting.map _ = []
          rw [hw]
          rfl
        unfold deliver
        rw [hf', hw']
      · cases hd
  cases a with
  | done t =>
    cases t with
    | finish vs => exact hdeliver _ hs
    | again j => cases hs
  | exit e => exact hdeliver _ hs
  | run j q =>
    change m.begin body j q = _ at hs
    unfold begin at hs
    split at hs
    · split at hs <;> cases hs
    · cases hs
  | resume c vs q =>
    change m.resume c vs q = _ at hs
    unfold resume at hs
    dsimp only at hs
    split at hs
    · cases hs
    · split at hs <;> cases hs
  | yield vs q =>
    change m.suspend vs q = _ at hs
    unfold suspend at hs
    split at hs <;> cases hs
  | _ => cases hs

/-! ## the step that replies to the frame -/

theorem Inv.answer_of_pop (h : m.Inv) (hs : m.step body a = .next m' a')
    (ho : m'.current.owner = m.current.owner) {f : Frame}
    (hf : m.current.frames = f :: m'.current.frames) : ∃ r, a = answer r := by
  have hsame : m'.current ≠ m.current := by
    intro e
    rw [e] at hf
    exact List.cons_ne_self _ _ hf.symm
  have hpush : ∀ g, m'.current ≠ m.current.push g := by
    intro g e
    have hlen := congrArg List.length hf
    rw [e] at hlen
    change m.current.frames.length = m.current.frames.length + 1 + 1 at hlen
    omega
  cases a with
  | done t =>
    cases t with
    | finish vs => exact ⟨.ok vs, rfl⟩
    | again j =>
      cases hs
      exact absurd rfl hsame
  | exit e => exact ⟨.error e, rfl⟩
  | run j q =>
    change m.begin body j q = _ at hs
    unfold begin at hs
    split at hs
    · split at hs
      · cases hs
        exact absurd rfl hsame
      · cases hs
        exact absurd rfl (hpush _)
    · cases hs
      exact absurd rfl (hpush _)
  | resume c vs q =>
    by_cases hst : m.roster.status c = .suspended
    · -- the coroutine that is entered is not the running one
      obtain ⟨hm, _⟩ := Progress.next.inj ((h.resume_suspended hst vs q).symm.trans hs)
      rw [← hm, ← h.head?_pending] at ho
      change (m.resting c).owner = _ at ho
      rw [h.owner_resting] at ho
      exact absurd (List.mem_of_mem_head? ho.symm) (h.not_pending_of_suspended hst)
    · cases (h.resume_refused hst vs q).symm.trans hs
      exact absurd rfl hsame
  | yield vs q =>
    change m.suspend vs q = _ at hs
    unfold suspend at hs
    split at hs
    · rename_i c u w hc hw
      cases hs
      exact absurd ho (h.owner_ne_of_waiting (by rw [hw]; exact List.mem_cons_self))
    · cases hs
      exact absurd rfl hsame
  | read q =>
    cases hs
    exact absurd rfl hsame
  | write g q =>
    cases hs
    exact absurd rfl hsame
  | spawn g q =>
    cases hs
    exact absurd rfl hsame
  | inspect q =>
    cases hs
    exact absurd rfl hsame

/-- **The step that replies to a frame depends on it only in how it goes on.** -/
theorem Inv.refit_reply (h : m.Inv) (hs : m.step body a = .next m' a') {f : Frame}
    {above base : List Frame} (hf : (m.strandOf o).frames = above ++ f :: base)
    (hn : base.length = n) (hy : (m'.strandOf o).frames.length ≤ n) :
    ∃ r, a' = f.resume r ∧ ∀ k, (m.refit o n k).step body a = .next m' (k r) := by
  have h' : m'.Inv := h.of_shift (h.shift_step hs)
  have hlen := congrArg List.length hf
  rw [List.length_append, List.length_cons] at hlen
  obtain ⟨ht, hother⟩ := h.turns (.step hs) o
  have ho : o = m.current.owner := by
    by_contra hne
    have e : m'.strandOf o = m.strandOf o := hother hne
    rw [e] at hy
    omega
  subst ho
  change Turns _ _ (m.strandOf m.current.owner) (m'.strandOf m.current.owner) at ht
  rw [h.strandOf_current] at ht hf hlen
  generalize hs' : m'.strandOf m.current.owner = s' at ht hy
  generalize hcur : m.current = s at ht
  cases ht with
  | same =>
    rw [hcur] at hlen
    omega
  | push g _ _ =>
    rw [hcur] at hlen
    change s.frames.length + 1 ≤ n at hy
    omega
  | ended hnil =>
    rw [hcur, hnil] at hlen
    simp at hlen
  | pop g r hg hown _ hcurrent hact =>
    subst hcur
    change m'.current = s' at hcurrent
    have hg' : m.current.frames = g :: m'.current.frames := by rw [hcurrent, hg]
    have hlen' := congrArg List.length hg'
    rw [List.length_cons, hcurrent] at hlen'
    -- the frame that is taken off is the one in question
    have habove : above = [] := List.length_eq_zero_iff.mp (by omega)
    rw [habove, List.nil_append, hg'] at hf
    obtain ⟨rfl, hbase⟩ := List.cons.inj hf
    obtain ⟨r', rfl⟩ := h.answer_of_pop hs (by rw [hcurrent, hown]) hg'
    rw [step_answer] at hs
    unfold deliver at hs
    rw [hg'] at hs
    obtain ⟨hm, ha⟩ := Progress.next.inj hs
    refine ⟨_, ha.symm, fun k => ?_⟩
    have hframes : (m.refit m.current.owner n k).current.frames
        = { g with resume := k } :: m'.current.frames := by
      show (if m.current.owner = m.current.owner then refitFrames n k m.current.frames else _) = _
      rw [if_pos rfl, hg', refitFrames_at (by rw [hbase]; exact hn)]
    have hshort := h'.refit_short (o := m.current.owner) (n := n) (k := k) (by rw [hs']; exact hy)
    have hcos : m.coroutines.map (Coroutine.refit m.current.owner n k) = m.coroutines := by
      have := congrArg Machine.coroutines hshort
      rw [← hm] at this
      exact this
    have hw : m.waiting.map (Strand.refit m.current.owner n k) = m.waiting := by
      have := congrArg Machine.waiting hshort
      rw [← hm] at this
      exact this
    rw [step_answer]
    unfold deliver
    rw [hframes]
    refine congrArg (Progress.next · _) ?_
    rw [← hm]
    unfold refit
    dsimp only
    rw [hcos, hw]
    rfl

/-! ## returning to the frame -/

/-- **What a frame gets does not depend on what it does with it**, and neither does the machine that
is left. -/
theorem Returns.refit (hr : Returns body o n x z) (h : x.1.Inv) {f : Frame} {base : List Frame}
    (hf : ∃ above, (x.1.strandOf o).frames = above ++ f :: base) (hn : base.length = n) :
    ∃ r, z.2 = f.resume r ∧ ∀ k, Returns body o n (x.1.refit o n k, x.2) (z.1, k r) := by
  induction hr with
  | back hle =>
    obtain ⟨above, e⟩ := hf
    rw [e, List.length_append, List.length_cons] at hle
    omega
  | @later x y z hlt hs hyz ih =>
    obtain ⟨above, e⟩ := hf
    have hturns := h.turns hs o
    have h' := h.proceeds hs
    have hlt' : ∀ k, n < ((x.1.refit o n k).strandOf o).frames.length := by
      intro k
      rw [strandOf_refit, Strand.length_refit]
      exact hlt
    -- as long as the thread keeps more than `n` frames, the frame is there
    have hstays : n < (y.1.strandOf o).frames.length →
        ∃ above, (y.1.strandOf o).frames = above ++ f :: base := by
      intro hy
      generalize x.1.strandOf o = s at hturns e
      generalize y.1.strandOf o = s' at hturns hy
      cases hturns.1 with
      | same => exact ⟨above, e⟩
      | push g _ _ => exact ⟨g :: above, congrArg (g :: ·) e⟩
      | ended hnil =>
        rw [e] at hnil
        simp at hnil
      | pop g r hg _ _ _ _ =>
        rw [e] at hg
        cases above with
        | cons g' above => exact ⟨above, (List.cons.inj hg).2.symm⟩
        | nil =>
          rw [← (List.cons.inj hg).2] at hy
          omega
    cases hs with
    | @step m m' a a' hs =>
      by_cases hy : n < (m'.strandOf o).frames.length
      · obtain ⟨r, hz, hall⟩ := ih h' (hstays hy)
        exact ⟨r, hz, fun k => .later (hlt' k) (.step (h.refit_step hs hlt hy k)) (hall k)⟩
      · have hy' := Nat.le_of_not_lt hy
        obtain ⟨r, ha, hall⟩ := h.refit_reply hs e hn hy'
        cases hyz.eq_of_back hy'
        exact ⟨r, ha, fun k => .later (hlt' k) (.step (hall k)) (.back hy')⟩
    | @restart m m' a r hs heap a' =>
      obtain ⟨rfl, _⟩ := halt_cases hs
      -- the top level has ended, so the thread is another one and keeps its strand
      have hne : o ≠ m'.current.owner := by
        rintro rfl
        change n < (m'.strandOf m'.current.owner).frames.length at hlt
        rw [h.strandOf_current, frames_halt hs] at hlt
        exact absurd hlt (Nat.not_lt_zero n)
      have hy : n < (Machine.strandOf { initial heap with coroutines := m'.coroutines }
          o).frames.length := by
        rw [show Machine.strandOf _ o = m'.strandOf o from hturns.2 hne]
        exact hlt
      obtain ⟨q, hz, hall⟩ := ih h' (hstays hy)
      refine ⟨q, hz, fun k => .later (hlt' k) (.restart (refit_halt hs k) heap a') ?_⟩
      have e' : ({ initial heap with coroutines := m'.coroutines } : Machine).refit o n k
          = { initial heap with coroutines := (m'.refit o n k).coroutines } := by
        unfold Machine.refit
        dsimp only
        rw [show (initial heap).current = Strand.start none from rfl, Strand.refit_start]
        rfl
      rw [← e']
      exact hall k

/-! ## calls, resumes and yields -/

/-- What can be asked for with a frame that waits for the reply: a job, a resume, or a yield. -/
inductive Request : ((Reply → Action Turn) → Action Turn) → Prop
  | run (j : Job) : Request (.run j)
  | resume (c : ThreadId) (vs : List Value) : Request (.resume c vs)
  | yield (vs : List Value) : Request (.yield vs)

/-- A request has its reply, whoever makes it; the machine that it leaves. -/
def Answered (body : Job → Action Turn) (ask : (Reply → Action Turn) → Action Turn) (m : Machine)
    (r : Reply) (m' : Machine) : Prop :=
  ∀ k, ∃ y, Proceeds body (m, ask k) y ∧
    Returns body m.current.owner m.current.frames.length y (m', k r)

/-- A request is replied to at once, or its frame waits on the strand of the thread. -/
inductive Posed (body : Job → Action Turn) (ask : (Reply → Action Turn) → Action Turn) (m : Machine) :
    Prop
  | once (r : Reply) (step : ∀ k, m.step body (ask k) = .next m (k r))
  | waits (isCall : Bool) (wait : (Reply → Action Turn) → Machine) (a' : Action Turn)
      (step : ∀ k, m.step body (ask k) = .next (wait k) a')
      (strand : ∀ k, (wait k).strandOf m.current.owner = m.current.push ⟨isCall, k⟩)
      (refit : ∀ k k', (wait k).refit m.current.owner m.current.frames.length k' = wait k')

variable {ask : (Reply → Action Turn) → Action Turn}

theorem Inv.refit_current (h : m.Inv) (k : Reply → Action Turn) :
    m.refit m.current.owner m.current.frames.length k = m :=
  h.refit_short (Nat.le_of_eq (by rw [h.strandOf_current]))

theorem refit_push_current (s : Strand) (isCall : Bool) (k k' : Reply → Action Turn) :
    (s.push ⟨isCall, k⟩).refit s.owner s.frames.length k' = s.push ⟨isCall, k'⟩ := by
  show (⟨s.owner, if s.owner = s.owner then refitFrames s.frames.length k' (⟨isCall, k⟩ :: s.frames)
    else _, _⟩ : Strand) = _
  rw [if_pos rfl, refitFrames_at rfl]
  rfl

theorem Inv.posed_push (h : m.Inv) (isCall : Bool) (a' : Action Turn)
    (hs : ∀ k, m.step body (ask k)
      = .next { m with current := m.current.push ⟨isCall, k⟩ } a') : Posed body ask m := by
  refine .waits isCall (fun k => { m with current := m.current.push ⟨isCall, k⟩ }) a' hs
    (fun k => ?_) fun k k' => ?_
  · exact (h.of_shift (h.shift_step (hs k))).strandOf_current
  · have e := h.refit_current k'
    unfold refit at e ⊢
    dsimp only
    rw [refit_push_current, show m.coroutines.map _ = _ from congrArg Machine.coroutines e,
      show m.waiting.map _ = _ from congrArg Machine.waiting e]

theorem Inv.posed_resume (h : m.Inv) (c : ThreadId) (vs : List Value) :
    Posed body (.resume c vs) m := by
  by_cases hst : m.roster.status c = .suspended
  · refine .waits false (m.entered c) (m.entry c vs) (fun k => h.resume_suspended hst vs k)
      (fun k => ?_) fun k k' => ?_
    · have hs : m.step body (.resume c vs k) = .next (m.entered c k) (m.entry c vs) :=
        h.resume_suspended hst vs k
      exact (h.of_shift (h.shift_step hs)).strandOf_of_mem
        (List.mem_cons_of_mem _ List.mem_cons_self)
    · have e := h.refit_current k'
      have hcos := (m.mark m.current.owner .normal).setCoroutine_refit
        (o := m.current.owner) (n := m.current.frames.length) (k := k') c ⟨.running, .nothing⟩
      change _ = Machine.setCoroutine _ c ⟨.running, .nothing⟩ at hcos
      rw [mark_refit, e] at hcos
      have hrest := m.resting_refit (o := m.current.owner) (n := m.current.frames.length) (k := k') c
      rw [e] at hrest
      have hcos' : (m.entered c k).coroutines.map (Coroutine.refit m.current.owner
          m.current.frames.length k') = (m.entered c k').coroutines :=
        congrArg Machine.coroutines hcos
      show Machine.mk _ (Array.map _ _) ((m.resting c).refit _ _ k')
        ((m.current.push ⟨false, k⟩).refit _ _ k' :: m.waiting.map _) = _
      rw [← hrest, refit_push_current, show m.waiting.map _ = _ from congrArg Machine.waiting e, hcos']
      rfl
  · exact .once _ fun k => h.resume_refused hst vs k

theorem Inv.posed_yield (h : m.Inv) (vs : List Value) : Posed body (.yield vs) m := by
  cases ho : m.current.owner with
  | none =>
    refine .once (.error (.failed (.coroutine .outside))) fun k => ?_
    show m.suspend vs k = _
    unfold suspend
    rw [ho]
  | some c =>
    cases hw : m.waiting with
    | nil =>
      refine .once (.error (.failed (.coroutine .outside))) fun k => ?_
      show m.suspend vs k = _
      unfold suspend
      rw [ho, hw]
    | cons u w =>
      have hs : ∀ k, m.step body (.yield vs k) = .next _ (answer (.ok vs)) :=
        fun k => suspend_of_owner ho hw
      refine .waits false _ _ hs (fun k => ?_) fun k k' => ?_
      · have hc : ∀ d, coroutine? { (m.setCoroutine c ⟨.suspended, .strand
            (m.current.push ⟨false, k⟩)⟩).mark u.owner .running with current := u, waiting := w } d
            = ((m.setCoroutine c ⟨.suspended, .strand (m.current.push ⟨false, k⟩)⟩).mark u.owner
              .running).coroutine? d := fun _ => rfl
        obtain ⟨hown, _⟩ := h.kept_left hw ho _ hc
        rw [ho, strandOf_resting (h.not_pending_left ho hw)]
        unfold resting
        rw [hown]
        rfl
      · have e := h.refit_current k'
        have hcos := m.setCoroutine_refit (o := m.current.owner) (n := m.current.frames.length)
          (k := k') c ⟨.suspended, .strand (m.current.push ⟨false, k⟩)⟩
        change _ = Machine.setCoroutine _ c
          ⟨.suspended, .strand ((m.current.push ⟨false, k⟩).refit _ _ k')⟩ at hcos
        rw [e, refit_push_current] at hcos
        have hmark := (m.setCoroutine c ⟨.suspended, .strand (m.current.push ⟨false, k⟩)⟩).mark_refit
          (o := m.current.owner) (n := m.current.frames.length) (k := k') u.owner .running
        rw [hcos] at hmark
        have hwait := congrArg Machine.waiting e
        change m.waiting.map _ = m.waiting at hwait
        rw [hw, List.map_cons] at hwait
        obtain ⟨hu, hrest⟩ := List.cons.inj hwait
        show Machine.mk _ (Array.map _ _) (u.refit _ _ k') (w.map _) = _
        rw [hu, hrest, show Array.map _ _ = _ from congrArg Machine.coroutines hmark]
        simp only [heap_mark]
        rfl

theorem Inv.posed (h : m.Inv) (hq : Request ask) : Posed body ask m := by
  cases hq with
  | run j =>
    cases j with
    | function f vs =>
      by_cases hfull : Strand.maxDepth ≤ m.current.depth
      · exact .once _ fun k => if_pos hfull
      · exact h.posed_push true _ fun k => if_neg hfull
    | whileLoop _ _ _ => exact h.posed_push false _ fun k => rfl
    | each _ _ _ _ => exact h.posed_push false _ fun k => rfl
  | resume c vs => exact h.posed_resume c vs
  | yield vs => exact h.posed_yield vs

/-- **A request gives to every caller what it gives to one.** -/
theorem Inv.answered_of_returns (h : m.Inv) (hq : Request ask) {k : Reply → Action Turn}
    (hs : Proceeds body (m, ask k) y)
    (hr : Returns body m.current.owner m.current.frames.length y z) :
    ∃ r, z.2 = k r ∧ Answered body ask m r z.1 := by
  have hposed : Posed body ask m := h.posed hq
  cases hposed with
  | once r hstep =>
    cases hs.eq_of_next (hstep k)
    cases h.returns_same rfl hr
    refine ⟨r, rfl, fun k' => ⟨_, .step (hstep k'), .back ?_⟩⟩
    exact Nat.le_of_eq (by rw [h.strandOf_current])
  | waits isCall wait a' hstep hstrand hrefit =>
    cases hs.eq_of_next (hstep k)
    have h' : (wait k).Inv := h.of_shift (h.shift_step (hstep k))
    have hbase : ∃ above, ((wait k).strandOf m.current.owner).frames
        = above ++ ⟨isCall, k⟩ :: m.current.frames := ⟨[], by rw [hstrand]; rfl⟩
    obtain ⟨r, hz, hall⟩ := hr.refit h' hbase rfl
    refine ⟨r, hz, fun k' => ⟨_, .step (hstep k'), ?_⟩⟩
    have hk := hall k'
    rw [hrefit] at hk
    exact hk

theorem Answered.current {r : Reply} (ha : Answered body ask m r m') (hq : Request ask)
    (h : m.Inv) (hc : ∀ o, (m.strandOf o).Counts) : m'.current = m.current := by
  obtain ⟨y, hs, hr⟩ := ha answer
  have hposed : Posed body ask m := h.posed hq
  cases hposed with
  | once r hstep =>
    cases hs.eq_of_next (hstep answer)
    exact congrArg (fun x => x.1.current) (h.returns_same rfl hr)
  | waits isCall wait a' hstep hstrand _ =>
    cases hs.eq_of_next (hstep answer)
    exact (h.returns_push hc rfl hs (hstrand answer) hr).1

theorem Returns.run (hr : Returns body o n x z) : Run body x z := by
  induction hr with
  | back _ => exact .refl
  | later _ hs _ ih => exact .head hs ih

end Machine

end LuaMachine
