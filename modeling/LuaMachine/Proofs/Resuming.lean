import LuaMachine.Proofs.Waiting

/-!
# Resuming a coroutine

A resume of a suspended coroutine lets it go on until it leaves: it yields, or its body returns,
fails or is aborted.  What its resumer then gets depends on the coroutine alone and not on the
frames of the resumer.  A coroutine that is not suspended refuses, and nothing changes.

* `Rooted`                the last frame of a coroutine is the call of its body;
* `Leaves`                the ways in which a coroutine leaves;
* `Resumed`               what a resume gives, and the machine that it leaves;
* `returns_iff_resumed`   a resume returns to the frames of its resumer with just that.
-/

namespace LuaMachine.Machine

variable {body : Job → Action Turn} {m m' : Machine} {a a' : Action Turn} {c d : ThreadId}
  {o : Option ThreadId} {s : Strand}

/-! ## the root of a coroutine -/

theorem answer_injective : Function.Injective answer := by
  intro r r' h
  cases r <;> cases r' <;> cases h <;> rfl

/-- The last frame of a coroutine is the call of its body.  A coroutine without frames is about to
make that call, or has its reply, or does not run and waits for nothing. -/
def Rooted (c : ThreadId) (x : Moment) : Prop :=
  (∃ above, (x.1.strandOf (some c)).frames = above ++ [⟨true, answer⟩]) ∨
  ((x.1.strandOf (some c)).frames = [] ∧ (∀ s ∈ x.1.waiting, s.owner ≠ some c) ∧
    (x.1.current.owner = some c →
      (∃ f vs, x.2 = .run (.function f vs) answer) ∨ ∃ r, x.2 = answer (callReply r)))

theorem rooted_initial (heap : Heap) (a : Action Turn) (c : ThreadId) :
    Rooted c (initial heap, a) :=
  .inr ⟨rfl, fun _ hs => absurd hs List.not_mem_nil, nofun⟩

/-- A coroutine that does not run is rooted whatever the machine is about to do. -/
theorem Rooted.with_action {x : Moment} (h : Rooted c x) (hc : x.1.current.owner ≠ some c)
    (a : Action Turn) : Rooted c (x.1, a) := by
  rcases h with h | ⟨hnil, hw, _⟩
  · exact .inl h
  · exact .inr ⟨hnil, hw, fun e => absurd e hc⟩

/-- A step of another thread enters a coroutine only from its start. -/
theorem Move.rooted_other (hm : Move m a m' a') (hc : m.current.owner ≠ some c)
    (hw : ∀ s ∈ m.waiting, s.owner ≠ some c) :
    (∀ s ∈ m'.waiting, s.owner ≠ some c) ∧
    (m'.current.owner = some c →
      (∃ f vs, a' = .run (.function f vs) answer) ∨ ∃ r, a' = answer (callReply r)) := by
  cases hm with
  | stay hcur hwait _ =>
    rw [hcur, hwait]
    exact ⟨hw, fun e => absurd e hc⟩
  | push f _ _ hcur hwait _ =>
    rw [hcur, hwait]
    exact ⟨hw, fun e => absurd e hc⟩
  | pop f r _ ho _ hwait _ _ =>
    rw [ho, hwait]
    exact ⟨hw, fun e => absurd e hc⟩
  | enter d vs k _ _ hm' ha =>
    subst hm'
    refine ⟨?_, fun _ => ?_⟩
    · intro s hs
      rcases List.mem_cons.mp hs with rfl | hs
      · exact hc
      · exact hw s hs
    · rw [ha]
      unfold entry
      split
      · exact .inl ⟨_, vs, rfl⟩
      · exact .inr ⟨.ok vs, rfl⟩
  | park d vs k _ _ hwait _ _ _ =>
    rw [hwait] at hw
    exact ⟨fun s hs => hw s (List.mem_cons_of_mem _ hs),
      fun e => absurd e (hw m'.current List.mem_cons_self)⟩
  | finish d r _ _ _ hwait _ _ _ =>
    rw [hwait] at hw
    exact ⟨fun s hs => hw s (List.mem_cons_of_mem _ hs),
      fun e => absurd e (hw m'.current List.mem_cons_self)⟩

theorem step_answer (m : Machine) (r : Reply) : m.step body (answer r) = m.deliver r := by
  cases r <;> rfl

theorem Turns.frames_of_answer {x y : Moment} {s s' : Strand} {r : Reply} (ht : Turns x y s s')
    (ha : x.2 = answer r) (hnil : s.frames = []) : s'.frames = [] := by
  cases ht with
  | same => exact hnil
  | push f hasks _ =>
    rw [ha] at hasks
    cases r <;> cases hasks
  | pop f r hf _ _ _ _ =>
    rw [hnil] at hf
    cases hf
  | ended _ => rfl

/-- The call of the body puts the root of the coroutine, and its reply ends the coroutine. -/
theorem Inv.rooted_running (h : m.Inv) (ho : m.current.owner = some c)
    (hnil : m.current.frames = [])
    (ha : (∃ f vs, a = .run (.function f vs) answer) ∨ ∃ r, a = answer (callReply r))
    (hs : m.step body a = .next m' a') : Rooted c (m', a') := by
  have hcur : m.strandOf (some c) = m.current := ho ▸ h.strandOf_current
  have hw : ∀ s ∈ m.waiting, s.owner ≠ some c := fun s hs => ho ▸ h.owner_ne_of_waiting hs
  have h' : m'.Inv := h.proceeds (.step hs)
  obtain ⟨ht, _⟩ := h.turns (.step hs) (some c)
  rcases ha with ⟨f, vs, rfl⟩ | ⟨r, rfl⟩
  · change (if Strand.maxDepth ≤ m.current.depth then _ else _) = _ at hs
    split at hs
    · cases hs
      refine .inr ⟨?_, hw, fun _ => .inr ⟨.error (.failed .stackOverflow), rfl⟩⟩
      show (m.strandOf (some c)).frames = []
      rw [hcur, hnil]
    · cases hs
      refine .inl ⟨[], ?_⟩
      have e := h'.strandOf_current
      change strandOf _ m.current.owner = m.current.push ⟨true, answer⟩ at e
      rw [ho] at e
      show (strandOf _ (some c)).frames = _
      rw [e]
      exact congrArg _ hnil
  · rw [step_answer] at hs
    unfold deliver at hs
    rw [hnil] at hs
    cases hwait : m.waiting with
    | nil =>
      rw [hwait] at hs
      cases hs
    | cons t w =>
      rw [hwait] at hs hw
      cases hs
      exact .inr ⟨ht.frames_of_answer rfl (by rw [hcur, hnil]),
        fun s hs => hw s (List.mem_cons_of_mem _ hs), fun e => absurd e (hw t List.mem_cons_self)⟩

theorem Rooted.proceeds {x y : Moment} (hx : Rooted c x) (h : x.1.Inv) (hs : Proceeds body x y) :
    Rooted c y := by
  have h' := h.proceeds hs
  have hown : (y.1.strandOf (some c)).owner = some c := h'.owner_strandOf _
  obtain ⟨ht, hother⟩ := h.turns hs (some c)
  rcases hx with ⟨above, e⟩ | ⟨hnil, hw, hrun⟩
  · generalize x.1.strandOf (some c) = s at ht e
    generalize hs' : y.1.strandOf (some c) = s' at ht hown
    cases ht with
    | same => exact .inl ⟨above, by rw [hs', e]⟩
    | push f _ _ =>
      refine .inl ⟨f :: above, ?_⟩
      rw [hs']
      exact congrArg (f :: ·) e
    | ended hend =>
      rw [e] at hend
      simp at hend
    | pop f r hf _ _ hcur hact =>
      rw [e] at hf
      cases above with
      | cons g above => exact .inl ⟨above, by rw [hs']; exact (List.cons.inj hf).2.symm⟩
      | nil =>
        -- the call of the body has its reply
        obtain ⟨rfl, hrest⟩ := List.cons.inj hf
        refine .inr ⟨by rw [hs']; exact hrest.symm, fun t ht => ?_, fun _ => .inr ⟨r, hact⟩⟩
        have hne := h'.owner_ne_of_waiting ht
        rw [hcur, hown] at hne
        exact hne
  · by_cases hc : x.1.current.owner = some c
    · cases hs with
      | step hs =>
        have hcur : _ = _ := h.strandOf_current
        rw [hc] at hcur
        rw [hcur] at hnil
        exact h.rooted_running hc hnil (hrun hc) hs
      | restart hs heap a' => cases hc.symm.trans (h.owner_halt hs)
    · have hsame := hother (Ne.symm hc)
      refine .inr ⟨by rw [hsame, hnil], ?_⟩
      cases hs with
      | step hs => exact (h.move_step hs).rooted_other hc hw
      | restart hs heap a' => exact ⟨fun _ hs => absurd hs List.not_mem_nil, nofun⟩

theorem Rooted.run {x y : Moment} (hx : Rooted c x) (h : x.1.Inv) (hr : Run body x y) :
    Rooted c y := by
  induction hr with
  | refl => exact hx
  | tail hxy hs ih => exact ih.proceeds (h.run hxy) hs

/-! ## leaving a coroutine -/

def replied (r : Except Failure (List Value)) : Reply := r.mapError .failed

theorem replied_injective : Function.Injective replied := by
  intro r r' h
  cases r <;> cases r' <;> cases h <;> rfl

/-- How a coroutine leaves, what its resumer is told, and what becomes of it.  It yields, or its
body returns, fails or is aborted; an abort is a failure with its text. -/
inductive Leaves (c : ThreadId) : Moment → Except Failure (List Value) → Status → Prop
  | yields {m : Machine} {vs : List Value} {k : Reply → Action Turn} :
      m.current.owner = some c → Leaves c (m, .yield vs k) (.ok vs) .suspended
  | returns {m : Machine} {vs : List Value} : m.current.owner = some c → m.current.frames = [] →
      Leaves c (m, .done (.finish vs)) (.ok vs) .dead
  | fails {m : Machine} {e : Failure} : m.current.owner = some c → m.current.frames = [] →
      Leaves c (m, .exit (.failed e)) (.error e) .dead
  | aborts {m : Machine} {text : Bytes} : m.current.owner = some c → m.current.frames = [] →
      Leaves c (m, .exit (.crashed text)) (.error (.raised (.string text))) .dead

theorem Leaves.owner {x : Moment} {r : Except Failure (List Value)} {st : Status}
    (hl : Leaves c x r st) : x.1.current.owner = some c := by
  cases hl <;> assumption

theorem Leaves.congr {x x' : Moment} {r : Except Failure (List Value)} {st : Status}
    (hl : Leaves c x r st) (hcur : x'.1.current = x.1.current) (ha : x'.2 = x.2) :
    Leaves c x' r st := by
  obtain ⟨m', a'⟩ := x'
  cases ha
  cases hl with
  | yields ho => exact .yields (hcur ▸ ho)
  | returns ho hf => exact .returns (hcur ▸ ho) (hcur ▸ hf)
  | fails ho hf => exact .fails (hcur ▸ ho) (hcur ▸ hf)
  | aborts ho hf => exact .aborts (hcur ▸ ho) (hcur ▸ hf)

theorem status_of_coroutine? {st : Status} {parked : Parked}
    (h : m.coroutine? c = some ⟨st, parked⟩) : m.roster.status c = st := by
  rw [status_roster, h]
  rfl

theorem Move.left (hm : Move m a m' a') (h : m.Inv) (ho : m.current.owner = some c)
    (hne : m'.current.owner ≠ some c) (hw : ∃ s ∈ m.waiting, s.owner = m'.current.owner) :
    (∃ vs k, a = .yield vs k ∧ a' = answer (.ok vs) ∧ m'.roster.status c = .suspended) ∨
    ∃ r, a = answer r ∧ m.current.frames = [] ∧ a' = answer (finalReply r) ∧
      m'.roster.status c = .dead := by
  cases hm with
  | stay hcur _ _ => exact absurd (by rw [hcur, ho]) hne
  | push f _ _ hcur _ _ => exact absurd (by rw [hcur]; exact ho) hne
  | pop f r _ hcur _ _ _ _ => exact absurd (by rw [hcur, ho]) hne
  | enter d vs k _ hst hm' _ =>
    -- what is entered was suspended, so it was not waiting
    subst hm'
    obtain ⟨s, hs, hso⟩ := hw
    refine absurd ?_ (h.not_pending_of_suspended hst)
    refine List.mem_filterMap.mpr ⟨s, List.mem_cons_of_mem _ hs, hso.trans ?_⟩
    exact h.owner_resting d
  | park d vs k ha hd _ hown _ ha' =>
    cases ho.symm.trans hd
    exact .inl ⟨vs, k, ha, ha', status_of_coroutine? hown⟩
  | finish d r ha hf hd _ hown _ ha' =>
    cases ho.symm.trans hd
    exact .inr ⟨r, ha, hf, ha', status_of_coroutine? hown⟩

theorem Rooted.leaves {x y : Moment} (hx : Rooted c x) (h : x.1.Inv) (hs : Proceeds body x y)
    (ho : x.1.current.owner = some c) (hne : y.1.current.owner ≠ some c)
    (hw : ∃ s ∈ x.1.waiting, s.owner = y.1.current.owner) : ∃ r st, Leaves c x r st := by
  cases hs with
  | restart hs heap a' => cases ho.symm.trans (h.owner_halt hs)
  | @step m m' a a' hs =>
    rcases (h.move_step hs).left h ho hne hw with ⟨vs, k, rfl, _⟩ | ⟨r, rfl, hnil, _⟩
    · exact ⟨_, _, .yields ho⟩
    · rcases hx with ⟨above, e⟩ | ⟨_, _, hrun⟩
      · have hcur : m.strandOf (some c) = m.current := ho ▸ h.strandOf_current
        change (m.strandOf (some c)).frames = _ at e
        rw [hcur, hnil] at e
        simp at e
      · rcases hrun ho with ⟨f, vs, e⟩ | ⟨r', e⟩
        · cases r <;> cases e
        · -- the reply of a call is never that the function was left
          cases answer_injective e
          cases r' with
          | ok vs => exact ⟨_, _, .returns ho hnil⟩
          | error why =>
            cases why with
            | failed f => exact ⟨_, _, .fails ho hnil⟩
            | left vs => exact ⟨_, _, .returns ho hnil⟩
            | crashed text => exact ⟨_, _, .aborts ho hnil⟩

/-- What the resumer of a coroutine gets, and what becomes of the coroutine. -/
theorem Leaves.reply {x y : Moment} {r : Except Failure (List Value)} {st : Status}
    (hl : Leaves c x r st) (h : x.1.Inv) (hs : Proceeds body x y)
    (hne : y.1.current.owner ≠ some c) (hw : ∃ s ∈ x.1.waiting, s.owner = y.1.current.owner) :
    y.2 = answer (replied r) ∧ y.1.roster.status c = st := by
  have ho := hl.owner
  cases hs with
  | restart hs heap a' => cases ho.symm.trans (h.owner_halt hs)
  | @step m m' a a' hs =>
    rcases (h.move_step hs).left h ho hne hw with ⟨vs, k, ha, ha', hst⟩ | ⟨r', ha, _, ha', hst⟩
    · cases hl <;> cases ha
      exact ⟨ha', hst⟩
    · have hfinal : ∀ r'', answer r'' = answer r' → a' = answer (finalReply r'') := by
        intro r'' e
        rw [answer_injective e]
        exact ha'
      cases hl with
      | yields _ => cases r' <;> cases ha
      | returns _ _ => exact ⟨hfinal (.ok _) ha, hst⟩
      | fails _ _ => exact ⟨hfinal (.error (.failed _)) ha, hst⟩
      | aborts _ _ => exact ⟨hfinal (.error (.crashed _)) ha, hst⟩

/-! ## what a resume gives -/

/-- What a resume of a coroutine gives, and the machine that it leaves.  A coroutine that is not
suspended refuses, and nothing changes.  A suspended one goes on until it leaves, while its resumer
waits; the resumer is then as it was. -/
inductive Resumed (body : Job → Action Turn) (c : ThreadId) (m : Machine) (vs : List Value) :
    Except Failure (List Value) → Machine → Prop
  | refused (refuses : m.roster.status c ≠ .suspended) :
      Resumed body c m vs (.error (.coroutine (.notSuspended (m.roster.status c)))) m
  | left {x y : Moment} {r : Except Failure (List Value)} {st : Status}
      (suspended : m.roster.status c = .suspended)
      (run : RunWithout body m.current.owner (m.entered c answer, m.entry c vs) x)
      (leaves : Leaves c x r st) (back : Proceeds body x y)
      (owner : y.1.current.owner = m.current.owner) :
      Resumed body c m vs r { y.1 with current := m.current }

variable {n : Nat} {x y z : Moment}

/-- A thread with frames to go that is not running returns after it runs again. -/
theorem Inv.returns_iff_surfaces (h : x.1.Inv) (hn : n < (x.1.strandOf o).frames.length)
    (ho : x.1.current.owner ≠ o) :
    Returns body o n x z
      ↔ ∃ y, RunWithout body o x y ∧ y.1.current.owner = o ∧ Returns body o n y z := by
  constructor
  · intro hr
    induction hr with
    | back hle => omega
    | @later x y z _ hs hyz ih =>
      by_cases hy : y.1.current.owner = o
      · exact ⟨y, .single ⟨hs, ho⟩, hy, hyz⟩
      · rw [← (h.turns hs o).2 ho.symm] at hn
        obtain ⟨w, hw, hwo, hwz⟩ := ih (h.proceeds hs) hn hy
        exact ⟨w, .head ⟨hs, ho⟩ hw, hwo, hwz⟩
  · rintro ⟨y, hxy, hy, hyz⟩
    clear ho
    induction hxy using Relation.ReflTransGen.head_induction_on with
    | refl => exact hyz
    | head hs _ ih =>
      refine .later hn hs.1 (ih (h.proceeds hs.1) ?_)
      rw [(h.turns hs.1 o).2 hs.2.symm]
      exact hn

theorem Inv.returns_iff_step (h : m.Inv) (ho : m.current.owner = o)
    (hn : n < m.current.frames.length) (hs : m.step body a = .next m' a') :
    Returns body o n (m, a) z ↔ Returns body o n (m', a') z := by
  have hcur : n < (m.strandOf o).frames.length := by rwa [← ho, h.strandOf_current]
  constructor
  · intro hr
    cases hr with
    | back hle => exact absurd hle (Nat.not_le_of_lt hcur)
    | later _ hp hyz =>
      cases hp.eq_of_next hs
      exact hyz
  · exact .later hcur (.step hs)

theorem Inv.with_current (h : m.Inv) (hs : s.owner = m.current.owner) :
    Inv { m with current := s } := by
  refine h.of_shift (.stay rfl ?_)
  show s.owner :: _ = m.current.owner :: _
  rw [hs]

theorem step_push {f : Frame} (hm : m.current = s.push f) (r : Reply) : m.step body (answer r)
    = .next { m with current := s } (f.resume (if f.isCall then callReply r else r)) := by
  rw [step_answer]
  unfold deliver
  rw [hm]
  obtain ⟨isCall, k⟩ := f
  cases isCall <;> rfl

theorem Inv.returns_iff_push (h : m.Inv) {f : Frame} {r : Reply} (hm : m.current = s.push f)
    (ho : s.owner = o) (hn : n ≤ s.frames.length) : Returns body o n (m, answer r) z
      ↔ Returns body o n
        ({ m with current := s }, f.resume (if f.isCall then callReply r else r)) z := by
  refine h.returns_iff_step (by rw [hm]; exact ho) ?_ (step_push hm r)
  rw [hm]
  exact Nat.lt_succ_of_le hn

section
variable {u : Strand} {vs : List Value} {k : Reply → Action Turn}

theorem Inv.owner_ne_of_suspended (h : m.Inv) (hst : m.roster.status c = .suspended) :
    m.current.owner ≠ some c := fun e =>
  h.not_pending_of_suspended hst (List.mem_filterMap.mpr ⟨_, List.mem_cons_self, e⟩)

/-- The moment at which a coroutine has been entered and a strand waits for it. -/
def awaited (m : Machine) (c : ThreadId) (vs : List Value) (u : Strand) : Moment :=
  ((m.entered c answer).onto ([] ++ u :: m.waiting), m.entry c vs)

theorem Inv.awaited (h : m.Inv) (hst : m.roster.status c = .suspended) (vs : List Value)
    (hu : u.owner = m.current.owner) : (m.awaited c vs u).1.Inv := by
  have hin : (m.entered c answer).Inv :=
    h.of_shift (h.shift_resume (h.resume_suspended hst [] answer))
  refine hin.of_shift (.stay rfl ?_)
  show (m.resting c).owner :: u.owner :: _ = (m.resting c).owner :: m.current.owner :: _
  rw [hu]

theorem Inv.step_resume (h : m.Inv) (hst : m.roster.status c = .suspended) {S : Strand}
    (hS : S.owner = m.current.owner) (vs : List Value) (k : Reply → Action Turn) :
    ({ m with current := S } : Machine).step body (.resume c vs k)
      = .next (m.awaited c vs (S.push ⟨false, k⟩)).1 (m.awaited c vs (S.push ⟨false, k⟩)).2 := by
  have e : ({ m with current := S } : Machine).entered c k
      = (m.awaited c vs (S.push ⟨false, k⟩)).1 := by
    unfold Machine.awaited onto entered
    dsimp only
    rw [hS]
    cases m.current.owner <;> rfl
  rw [← e]
  exact (h.with_current hS).resume_suspended hst vs k

theorem Inv.run_awaited (h : m.Inv) (hst : m.roster.status c = .suspended)
    (hr : RunWithout body m.current.owner (m.awaited c vs (m.current.push ⟨false, answer⟩)) x) :
    Run body (m, .resume c vs answer) x :=
  .head (.step (h.step_resume hst rfl vs answer)) (RunWithout.run hr)

/-- A coroutine that is left for a strand which waits would be left for any other strand, too. -/
theorem Inv.left_awaited (h : m.Inv) (hst : m.roster.status c = .suspended) {u u' : Strand}
    (hu : u.owner = m.current.owner) (hr : RunWithout body m.current.owner (m.awaited c vs u) x)
    (hx : x.1.current.owner ≠ m.current.owner) (hs : Proceeds body x y)
    (hy : y.1.current.owner = m.current.owner) (hu' : u'.owner = m.current.owner) :
    y.1.current = u ∧ x.1.current.owner = some c ∧
    ∃ x', RunWithout body m.current.owner (m.awaited c vs u') x' ∧
      Proceeds body x' ({ y.1 with current := u' }, y.2) ∧
      x'.1.current = x.1.current ∧ x'.2 = x.2 ∧ u' ∈ x'.1.waiting := by
  obtain ⟨n, b, front, hrear, rfl, hall⟩ := behind_run hu hr hx
  obtain ⟨rfl, n', b', rfl, hback⟩ :=
    surfaces_step hu ((h.awaited hst vs hu).run (RunWithout.run hr)) hs hy
  have hn : n.current.owner = (m.resting c).owner := Option.some.inj hrear
  exact ⟨rfl, hn.trans (h.owner_resting c), _, hall u' hu', hback u' hu', rfl, rfl,
    List.mem_cons_self⟩

/-- Where a resumer goes on, its coroutine has left, in one of the four ways. -/
theorem Inv.resumed_of_surfaces (h : m.Inv) (hroot : Rooted c (m, .resume c vs answer))
    (hst : m.roster.status c = .suspended) (hu : u.owner = m.current.owner)
    (hr : RunWithout body m.current.owner (m.awaited c vs u) y)
    (hy : y.1.current.owner = m.current.owner) :
    ∃ (r : Except Failure (List Value)) (m' : Machine), Resumed body c m vs r m' ∧
      y = ({ m' with current := u }, answer (replied r)) := by
  have hc := h.owner_ne_of_suspended hst
  cases hr with
  | refl => exact absurd ((h.owner_resting c).symm.trans hy) hc.symm
  | tail hx hs =>
    have hpush : (m.current.push ⟨false, answer⟩).owner = m.current.owner := rfl
    obtain ⟨hcur, hown, x', hrun, hback, hcur', _, hin⟩ :=
      h.left_awaited hst hu hx hs.2 hs.1 hy hpush
    have hrun' := h.run_awaited hst hrun
    obtain ⟨r, st, hl⟩ := (hroot.run h hrun').leaves (h.run hrun') hback (by rw [hcur', hown]) hc
      ⟨_, hin, rfl⟩
    obtain ⟨hb, _⟩ := hl.reply (h.run hrun') hback hc ⟨_, hin, rfl⟩
    exact ⟨r, _, .left hst hrun hl hback rfl, Prod.ext (by rw [← hcur]) hb⟩

/-- A coroutine that leaves does so whatever strand waits for it; it is then suspended or dead. -/
theorem Resumed.surfaces {r : Except Failure (List Value)} (hr : Resumed body c m vs r m')
    (h : m.Inv) (hst : m.roster.status c = .suspended) (hu : u.owner = m.current.owner) :
    RunWithout body m.current.owner (m.awaited c vs u)
      ({ m' with current := u }, answer (replied r)) ∧
    (m'.roster.status c = .suspended ∨ m'.roster.status c = .dead) := by
  have hc := h.owner_ne_of_suspended hst
  cases hr with
  | refused href => exact absurd hst href
  | @left x y _ st _ hrun hl hback hy =>
    have hx : x.1.current.owner ≠ m.current.owner := by
      rw [hl.owner]
      exact hc.symm
    obtain ⟨_, _, x', hrun', hback', hcur, hact, hin⟩ :=
      h.left_awaited (u := m.current.push ⟨false, answer⟩) hst rfl hrun hx hback hy hu
    obtain ⟨hb, hst'⟩ := (hl.congr hcur hact).reply
      ((h.awaited hst vs hu).run (RunWithout.run hrun')) hback' (by rw [hu]; exact hc) ⟨u, hin, rfl⟩
    constructor
    · rw [← hb]
      exact hrun'.tail ⟨hback', by rw [hcur]; exact hx⟩
    · change y.1.roster.status c = st at hst'
      show y.1.roster.status c = _ ∨ y.1.roster.status c = _
      rw [hst']
      cases hl with
      | yields _ => exact .inl rfl
      | _ => exact .inr rfl

theorem Resumed.status {r : Except Failure (List Value)} (hr : Resumed body c m vs r m')
    (h : m.Inv) (hst : m.roster.status c = .suspended) :
    m'.roster.status c = .suspended ∨ m'.roster.status c = .dead :=
  (hr.surfaces (u := m.current) h hst rfl).2

theorem Resumed.current {r : Except Failure (List Value)} (hr : Resumed body c m vs r m') :
    m'.current = m.current := by
  cases hr <;> rfl

theorem Resumed.run {r : Except Failure (List Value)} (hr : Resumed body c m vs r m') (h : m.Inv) :
    Run body (m, .resume c vs answer) (m', answer (replied r)) := by
  by_cases hst : m.roster.status c = .suspended
  · have hpush : (m.current.push ⟨false, answer⟩).owner = m.current.owner := rfl
    have hs : ({ m' with current := m.current.push ⟨false, answer⟩ } : Machine).step body
        (answer (replied r)) = .next { m' with current := m.current } (answer (replied r)) :=
      step_push (f := ⟨false, answer⟩) rfl (replied r)
    rw [← hr.current] at hs
    exact (h.run_awaited hst (hr.current ▸ (hr.surfaces h hst hpush).1)).tail (.step hs)
  · cases hr with
    | refused _ => exact .single (.step (h.resume_refused hst vs answer))
    | left hst' => exact absurd hst' hst

theorem Resumed.unique {m₁ m₂ : Machine} {r₁ r₂ : Except Failure (List Value)}
    (h : m.Inv) (h₁ : Resumed body c m vs r₁ m₁) (h₂ : Resumed body c m vs r₂ m₂) :
    r₁ = r₂ ∧ m₁ = m₂ := by
  by_cases hst : m.roster.status c = .suspended
  · have hu : m.current.owner = m.current.owner := rfl
    have e := surfaces_unique hu (h₁.surfaces h hst hu).1 hu (h₂.surfaces h hst hu).1 hu
    obtain ⟨em, ea⟩ := Prod.mk.inj e
    have e₁ : ({ m₁ with current := m.current } : Machine) = m₁ := by rw [← h₁.current]
    have e₂ : ({ m₂ with current := m.current } : Machine) = m₂ := by rw [← h₂.current]
    exact ⟨replied_injective (answer_injective ea.symm), e₁.symm.trans (em.symm.trans e₂)⟩
  · cases h₁ with
    | left hst' => exact absurd hst' hst
    | refused _ =>
      cases h₂ with
      | left hst' => exact absurd hst' hst
      | refused _ => exact ⟨rfl, rfl⟩

/-- **A resume does not look at the frames of the thread that makes it.**  It returns to them with
what the coroutine gives. -/
theorem Inv.returns_iff_resumed (h : m.Inv)
    (hroot : m.current.owner ≠ some c → Rooted c (m, .resume c vs answer)) {S : Strand}
    (hS : S.owner = m.current.owner) (hn : n < S.frames.length) :
    Returns body m.current.owner n ({ m with current := S }, .resume c vs k) z ↔
    ∃ r m', Resumed body c m vs r m' ∧
      Returns body m.current.owner n ({ m' with current := S }, k (replied r)) z := by
  have hnext : ∀ {y : Moment},
      ({ m with current := S } : Machine).step body (.resume c vs k) = .next y.1 y.2 →
      (Returns body m.current.owner n ({ m with current := S }, .resume c vs k) z
        ↔ Returns body m.current.owner n y z) :=
    fun hs => (h.with_current hS).returns_iff_step hS hn hs
  by_cases hst : m.roster.status c = .suspended
  · have hc := h.owner_ne_of_suspended hst
    have hu : (S.push ⟨false, k⟩).owner = m.current.owner := hS
    have hin := h.awaited hst vs hu
    have hown : (m.awaited c vs (S.push ⟨false, k⟩)).1.current.owner = some c := h.owner_resting c
    have hwait := hin.strandOf_of_mem (List.mem_cons_of_mem _ List.mem_cons_self)
    rw [hu] at hwait
    have hpop : ∀ {r : Except Failure (List Value)} {m' : Machine}, Resumed body c m vs r m' →
        (Returns body m.current.owner n
            ({ m' with current := S.push ⟨false, k⟩ }, answer (replied r)) z
          ↔ Returns body m.current.owner n ({ m' with current := S }, k (replied r)) z) := by
      intro r m' hr
      have hm' : Inv { m' with current := S.push ⟨false, k⟩ } :=
        hin.run (RunWithout.run (hr.surfaces h hst hu).1)
      exact hm'.returns_iff_push rfl hS (Nat.le_of_lt hn)
    rw [hnext (h.step_resume hst hS vs k), hin.returns_iff_surfaces]
    · constructor
      · rintro ⟨y, hy, hyo, hz⟩
        obtain ⟨r, m', hr, rfl⟩ := h.resumed_of_surfaces (hroot hc) hst hu hy hyo
        exact ⟨r, m', hr, (hpop hr).mp hz⟩
      · rintro ⟨r, m', hr, hz⟩
        exact ⟨_, (hr.surfaces h hst hu).1, hu, (hpop hr).mpr hz⟩
    · rw [hwait]
      exact Nat.lt_succ_of_lt hn
    · rw [hown]
      exact hc.symm
  · rw [hnext (y := (_, _)) ((h.with_current hS).resume_refused hst vs k)]
    constructor
    · exact fun hr => ⟨_, m, .refused hst, hr⟩
    · rintro ⟨r, m', hr, hz⟩
      cases hr with
      | refused _ => exact hz
      | left hst' => exact absurd hst' hst

end

end LuaMachine.Machine
