import LuaMachine.Proofs.Performing

/-!
# What a session reports

A session takes one step after another at the top level.  Each of them runs the machine with fuel,
until the top level ends.  More fuel changes nothing, and what the machine ends with is what the
action performs.

* `Machine.Halts`              with enough fuel the top level ends;
* `Machine.Halts.exists_run`   then the machine has run to a moment that ends it;
* `Machine.Valid.halts_iff_performs`   it ends with what an action performs;
* `Session.Reached`            the sessions that steps lead to;
* `Session.Reached.exists_run`   each of their steps goes on where a run of the machine has led;
* `Session.Reached.step_cases`   a step gives up, or reports what its action performs.
-/

namespace LuaMachine

namespace Machine

variable {body : Job → Action Turn} {m m' n : Machine} {a b : Action Turn} {r q : Reply}
  {x z : Moment} {fuel fuel' k : Nat}

/-! ## fuel -/

/-- With enough fuel the top level ends. -/
def Halts (body : Job → Action Turn) (x : Moment) (m : Machine) (r : Reply) : Prop :=
  ∃ fuel, x.1.run body fuel x.2 = some (m, r)

theorem run_next (hs : m.step body a = .next n b) (fuel : Nat) :
    m.run body (fuel + 1) a = n.run body fuel b := by
  rw [run, hs]

theorem run_halt (hs : m.step body a = .halt n q) (fuel : Nat) :
    m.run body (fuel + 1) a = some (n, q) := by
  rw [run, hs]

/-- **More fuel changes nothing.** -/
theorem run_mono (h : m.run body fuel a = some (m', r)) (hle : fuel ≤ fuel') :
    m.run body fuel' a = some (m', r) := by
  induction fuel generalizing m a fuel' with
  | zero => cases h
  | succ fuel ih =>
    obtain ⟨fuel', rfl⟩ : ∃ k, fuel' = k + 1 := ⟨fuel' - 1, by omega⟩
    cases hs : m.step body a with
    | next n b =>
      rw [run_next hs] at h ⊢
      exact ih h (Nat.le_of_succ_le_succ hle)
    | halt n q =>
      rw [run_halt hs] at h ⊢
      exact h

theorem Halts.run_eq (h : Halts body (m, a) m' r) (fuel : Nat) :
    m.run body fuel a = none ∨ m.run body fuel a = some (m', r) := by
  obtain ⟨fuel', h'⟩ := h
  rcases Nat.le_total fuel fuel' with hle | hle
  · cases e : m.run body fuel a with
    | none => exact .inl rfl
    | some z => exact .inr ((run_mono e hle).symm.trans h')
  · exact .inr (run_mono h' hle)

theorem halts_iff_next (hs : m.step body a = .next n b) :
    Halts body (m, a) m' r ↔ Halts body (n, b) m' r := by
  constructor
  · rintro ⟨_ | fuel, h⟩
    · cases h
    · exact ⟨fuel, (run_next hs fuel).symm.trans h⟩
  · rintro ⟨fuel, h⟩
    exact ⟨fuel + 1, (run_next hs fuel).trans h⟩

theorem halts_iff_halt (hs : m.step body a = .halt n q) :
    Halts body (m, a) m' r ↔ m' = n ∧ r = q := by
  constructor
  · rintro ⟨_ | fuel, h⟩
    · cases h
    · cases (run_halt hs fuel).symm.trans h
      exact ⟨rfl, rfl⟩
  · rintro ⟨rfl, rfl⟩
    exact ⟨1, run_halt hs 0⟩

/-- **The machine has run to a moment that ends the top level.** -/
theorem Halts.exists_run (h : Halts body x m' r) :
    ∃ y, Run body x y ∧ y.1.step body y.2 = .halt m' r := by
  obtain ⟨fuel, h⟩ := h
  obtain ⟨m, a⟩ := x
  induction fuel generalizing m a with
  | zero => cases h
  | succ fuel ih =>
    cases hs : m.step body a with
    | next n b =>
      obtain ⟨y, hy, hhalt⟩ := ih n b ((run_next hs fuel).symm.trans h)
      exact ⟨y, .head (.step hs) hy, hhalt⟩
    | halt n q =>
      obtain ⟨rfl, rfl⟩ := (halts_iff_halt hs).mp ⟨_, h⟩
      exact ⟨(m, a), .refl, hs⟩

/-! ## what the top level ends with -/

theorem Halts.exists_returns (hx : Halts body x m' r) (h : x.1.Inv) (k : Nat) :
    ∃ z, Returns body none k x z := by
  obtain ⟨fuel, hx⟩ := hx
  obtain ⟨m, a⟩ := x
  induction fuel generalizing m a with
  | zero => cases hx
  | succ fuel ih =>
    by_cases hk : (m.strandOf none).frames.length ≤ k
    · exact ⟨(m, a), .back hk⟩
    · have hlt := Nat.lt_of_not_le hk
      cases hs : m.step body a with
      | next n b =>
        have hp : Proceeds body (m, a) (n, b) := .step hs
        obtain ⟨z, hz⟩ := ih n b (h.proceeds hp) ((run_next hs fuel).symm.trans hx)
        exact ⟨z, .later hlt hp hz⟩
      | halt n q => exact absurd hs (h.not_halt hlt)

theorem Returns.halts_iff (hr : Returns body none k x z) (h : x.1.Inv) :
    Halts body x m' r ↔ Halts body z m' r := by
  induction hr with
  | back _ => exact Iff.rfl
  | later hlt hs _ ih =>
    have ih := ih (h.proceeds hs)
    cases hs with
    | step hs' => exact (halts_iff_next hs').trans ih
    | restart hs' => exact absurd hs' (h.not_halt hlt)

theorem Inv.exists_next (h : m.Inv) (body : Job → Action Turn)
    {ask : (Reply → Action Turn) → Action Turn} (hq : Request ask) (k : Reply → Action Turn) :
    ∃ n b, m.step body (ask k) = .next n b := by
  have hposed : Posed body ask m := h.posed hq
  cases hposed with
  | once r hstep => exact ⟨_, _, hstep k⟩
  | waits _ _ _ hstep _ _ => exact ⟨_, _, hstep k⟩

/-- A request at the top level, and then what goes on with its reply. -/
theorem Inv.halts_iff_answered (h : m.Inv) (ho : m.current.owner = none)
    {ask : (Reply → Action Turn) → Action Turn} (hq : Request ask) {k : Reply → Action Turn} :
    Halts body (m, ask k) m' r ↔
      ∃ p l, Answered body ask m p l ∧ Halts body (l, k p) m' r := by
  obtain ⟨n, b, hs⟩ := h.exists_next body hq k
  have hp : Proceeds body (m, ask k) (n, b) := .step hs
  have hn : n.Inv := h.proceeds hp
  rw [halts_iff_next hs]
  constructor
  · intro hh
    obtain ⟨z, hz⟩ := hh.exists_returns hn m.current.frames.length
    have hz' := hz
    rw [← ho] at hz'
    obtain ⟨p, e, ha⟩ := h.answered_of_returns hq hp hz'
    refine ⟨p, z.1, ha, ?_⟩
    rw [← e]
    exact (hz.halts_iff hn).mp hh
  · rintro ⟨p, l, ha, hh⟩
    obtain ⟨y, hy, hr⟩ := ha k
    rw [ho] at hr
    cases hy.eq_of_next hs
    exact (hr.halts_iff hn).mpr hh

theorem Valid.halts_iff_request (h : m.Valid) (ho : m.current.owner = none)
    {ask : (Reply → Action Turn) → Action Turn} (hq : Request ask) {k : Reply → Action Turn}
    (ih : ∀ p {m : Machine}, m.Valid → m.current.owner = none →
      (Halts body (m, k p) m' r ↔
        ∃ q l, Performs body (k p) m q l ∧ Halts body (l, ended q) m' r)) :
    Halts body (m, ask k) m' r ↔
      ∃ q l, (∃ p n, Answered body ask m p n ∧ Performs body (k p) n q l) ∧
        Halts body (l, ended q) m' r := by
  rw [h.inv.halts_iff_answered ho hq]
  constructor
  · rintro ⟨p, n, ha, hh⟩
    obtain ⟨hn, hcur⟩ := h.answered hq ha
    obtain ⟨q, l, hp, hh⟩ := (ih p hn (by rw [hcur, ho])).mp hh
    exact ⟨q, l, ⟨p, n, ha, hp⟩, hh⟩
  · rintro ⟨q, l, ⟨p, n, ha, hp⟩, hh⟩
    obtain ⟨hn, hcur⟩ := h.answered hq ha
    exact ⟨p, n, ha, (ih p hn (by rw [hcur, ho])).mpr ⟨q, l, hp, hh⟩⟩

/-- **The top level ends with what an action performs**, after what is left to do. -/
theorem Valid.halts_iff_performs (h : m.Valid) (ho : m.current.owner = none) :
    Halts body (m, a) m' r ↔
      ∃ q l, Performs body a m q l ∧ Halts body (l, ended q) m' r := by
  induction a generalizing m with
  | done t =>
    constructor
    · exact fun hh => ⟨.ok t, m, ⟨rfl, rfl⟩, hh⟩
    · rintro ⟨_, _, ⟨rfl, rfl⟩, hh⟩
      exact hh
  | exit e =>
    constructor
    · exact fun hh => ⟨.error e, m, ⟨rfl, rfl⟩, hh⟩
    · rintro ⟨_, _, ⟨rfl, rfl⟩, hh⟩
      exact hh
  | read k ih =>
    rw [halts_iff_next rfl]
    exact ih _ h ho
  | write f k ih =>
    have hs : m.step body (.write f k) = .next _ _ := rfl
    rw [halts_iff_next hs]
    exact ih (h.step hs) ho
  | spawn f k ih =>
    have hs : m.step body (.spawn f k) = .next _ _ := rfl
    rw [halts_iff_next hs]
    exact ih _ (h.step hs) ho
  | inspect k ih =>
    rw [halts_iff_next rfl]
    exact ih _ h ho
  | run j k ih => exact h.halts_iff_request ho (.run j) ih
  | resume c vs k ih => exact h.halts_iff_request ho (.resume c vs) ih
  | yield vs k ih => exact h.halts_iff_request ho (.yield vs) ih

theorem Inv.halts_answer (h : m.Inv) (hm : m.current = Strand.start none) :
    Halts body (m, answer q) m' r ↔ m' = m ∧ r = callReply q := by
  refine halts_iff_halt ?_
  have hw : m.waiting = [] := by
    by_contra hne
    obtain ⟨s, w, hw⟩ := List.exists_cons_of_ne_nil hne
    exact h.owner_ne_none (s := s) (by rw [hw]; exact List.mem_cons_self) (by rw [hm]; rfl)
  rw [step_answer]
  unfold deliver
  rw [hm]
  dsimp only [Strand.start]
  rw [hw]

/-- **A job at the top level ends with its reply.** -/
theorem Valid.halts_iff_replies (h : m.Valid) (hm : m.current = Strand.start none) {j : Job} :
    Halts body (m, .run j answer) m' r ↔ ∃ q, Replies body m j q m' ∧ r = callReply q := by
  have hend : ∀ {p l}, Answered body (.run j) m p l →
      (Halts body (l, answer p) m' r ↔ m' = l ∧ r = callReply p) := by
    intro p l ha
    obtain ⟨hl, hcur⟩ := h.answered (.run j) ha
    exact hl.inv.halts_answer (hcur.trans hm)
  rw [h.inv.halts_iff_answered (by rw [hm]; rfl) (.run j)]
  constructor
  · rintro ⟨p, l, ha, hh⟩
    obtain ⟨rfl, rfl⟩ := (hend ha).mp hh
    exact ⟨p, ha, rfl⟩
  · rintro ⟨p, ha, rfl⟩
    exact ⟨p, m', ha, (hend ha).mpr ⟨rfl, rfl⟩⟩

end Machine

namespace Session

open Machine

variable {s : Session} {m : Machine} {r : Reply}

inductive Reached : Session → Prop
  | start (libraries : List Library) : Reached (Session.start libraries)
  | step {s : Session} (before : Reached s) (a : Action (List Value)) : Reached (s.step a).1

theorem step_of_none {a : Action (List Value)} (h : s.machine.run Job.body fuel a.asTurn = none) :
    s.step a = (s, ⟨.unfinished, []⟩) := by
  unfold step
  rw [h]

theorem step_of_some {a : Action (List Value)}
    (h : s.machine.run Job.body fuel a.asTurn = some (m, r)) :
    s.step a = (⟨m.heap, m.coroutines⟩, ⟨outcome r, m.heap.log.reverse⟩) := by
  unfold step
  rw [h]

/-- **Each step of a session goes on where a run of the machine has led.** -/
theorem Reached.exists_run (hs : Reached s) (heap : Heap) (now : Action Turn) :
    ∃ first start, Run Job.body (Machine.initial first, start)
      ({ Machine.initial heap with coroutines := s.coroutines }, now) := by
  induction hs generalizing heap now with
  | start libraries => exact ⟨heap, now, .refl⟩
  | @step s _ a ih =>
    cases h : s.machine.run Job.body fuel a.asTurn with
    | none =>
      rw [step_of_none h]
      exact ih heap now
    | some z =>
      rw [step_of_some h]
      obtain ⟨y, hy, hhalt⟩ := Halts.exists_run (x := (s.machine, a.asTurn)) ⟨_, h⟩
      obtain ⟨first, start, hrun⟩ := ih { s.heap with log := [] } a.asTurn
      exact ⟨first, start, hrun.trans (hy.tail (.restart hhalt heap now))⟩

theorem Reached.valid (hs : Reached s) : s.machine.Valid := by
  obtain ⟨first, start, hrun⟩ := hs.exists_run { s.heap with log := [] } (answer (.ok []))
  exact (valid_initial first).run hrun

theorem Reached.halts_iff_performs (hs : Reached s) {a : Action (List Value)} :
    Halts Job.body (s.machine, a.asTurn) m r ↔
      ∃ q, Performs Job.body a s.machine q m ∧ r = callReply q := by
  have hend : ∀ {q n}, Performs Job.body a s.machine q n →
      (Halts Job.body (n, ended (q.map Turn.finish)) m r ↔ m = n ∧ r = callReply q) := by
    intro q n hp
    obtain ⟨hn, hcur⟩ := hs.valid.performs hp
    rw [ended_map]
    exact hn.inv.halts_answer hcur
  rw [hs.valid.halts_iff_performs rfl]
  constructor
  · rintro ⟨p, n, hp, hh⟩
    obtain ⟨q, hq, rfl⟩ := performs_map.mp hp
    obtain ⟨rfl, rfl⟩ := (hend hq).mp hh
    exact ⟨q, hq, rfl⟩
  · rintro ⟨q, hq, rfl⟩
    exact ⟨_, m, performs_map.mpr ⟨q, hq, rfl⟩, (hend hq).mpr ⟨rfl, rfl⟩⟩

theorem outcome_callReply (q : Reply) : outcome (callReply q) = outcome q := by
  rcases q with e | vs
  · cases e <;> rfl
  · rfl

/-- What a step leaves and reports when its action has ended. -/
def finished (q : Reply) (m : Machine) : Session × StepReport :=
  (⟨m.heap, m.coroutines⟩, ⟨outcome q, m.heap.log.reverse⟩)

/-- **A step gives up and changes nothing, or it reports what its action performs.** -/
theorem Reached.step_cases (hs : Reached s) (a : Action (List Value)) :
    s.step a = (s, ⟨.unfinished, []⟩) ∨
      ∃ q m, Performs Job.body a s.machine q m ∧ s.step a = finished q m := by
  cases h : s.machine.run Job.body fuel a.asTurn with
  | none => exact .inl (step_of_none h)
  | some z =>
    obtain ⟨q, hq, e⟩ := hs.halts_iff_performs.mp ⟨_, h⟩
    refine .inr ⟨q, z.1, hq, ?_⟩
    rw [step_of_some h, e, outcome_callReply]
    rfl

/-- An action performs one thing, if any, and a step that does not give up reports it. -/
theorem Reached.step_of_performs (hs : Reached s) {a : Action (List Value)} {q : Reply}
    (hp : Performs Job.body a s.machine q m) :
    s.step a = (s, ⟨.unfinished, []⟩) ∨ s.step a = finished q m := by
  rcases (hs.halts_iff_performs.mpr ⟨q, hp, rfl⟩).run_eq fuel with h | h
  · exact .inl (step_of_none h)
  · right
    rw [step_of_some h, outcome_callReply]
    rfl

end Session

end LuaMachine
