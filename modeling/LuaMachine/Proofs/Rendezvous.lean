import Mathlib.Data.List.Basic
import Mathlib.Logic.Function.Basic
import Mathlib.Logic.Relation
import LuaMachine.Machine

/-!
# Handing over control between threads

The top level and every coroutine can run on a thread of their own, of which one acts at a time.  A
coroutine has a channel with a status and a slot, under a lock, and a condition on which threads
sleep.  Whoever resumes it marks it as running, then puts the arguments into the slot, wakes the
sleepers and waits at the channel for an answer.  The coroutine waits at its channel for arguments;
it puts what it yields, or what its body ends with, into the same slot.  A sleeper may also wake up
without a reason, and then it looks into the slot and sleeps again.

* `Channel`, `Handoff`   the state under the lock, and what the slot can hold;
* `Stage`                where a thread stands;
* `Crew`                 the channels, the stages of all threads, and what has crossed each channel;
* `Crew.Step`            one section under a lock, by one thread, or a sleeper that wakes up;
* `Crew.Local`           what holds of one channel and the threads at it, round after round;
* `Local.of_slot`        what the slot says about the round;
* `Local.frame`          steps elsewhere do not matter.

A coroutine that is not created yet is like one that has never been resumed, so there are no steps
that create coroutines.
-/

open Function (update)

namespace LuaMachine.Rendezvous

/-- Who takes part: the top level, or a coroutine. -/
abbrev Party := Option ThreadId

/-! ## channels -/

inductive Answer where
  | yield (vs : List Value)
  | finish (r : Reply)

inductive Handoff where
  | resume (vs : List Value)
  | answer (a : Answer)
  /-- Nobody will ever resume the coroutine, which has not started. -/
  | close

def Handoff.passes : Handoff → Bool
  | resume _ => true
  | answer _ => true
  | close => false

structure Channel where
  status : Status
  /-- Whether the coroutine was ever resumed. -/
  started : Bool
  slot : Option Handoff

inductive Crossing where
  | sent (p : Party) (vs : List Value)
  /-- The coroutine takes them: the first ones for its body, the others as what its yield gives. -/
  | received (first : Bool) (vs : List Value)
  | replied (a : Answer)
  /-- It is taken, and it is what resuming gives. -/
  | returned (p : Party) (a : Answer)

structure Round where
  resumer : Party
  arguments : List Value
  answer : Answer

def Round.crossings (first : Bool) (r : Round) : List Crossing :=
  [.sent r.resumer r.arguments, .received first r.arguments, .replied r.answer,
    .returned r.resumer r.answer]

/-- What crosses a channel in whole rounds, of which the first one may start the body. -/
def crossings : Bool → List Round → List Crossing
  | _, [] => []
  | first, r :: rs => r.crossings first ++ crossings false rs

theorem crossings_concat (first : Bool) (rs : List Round) (r : Round) :
    crossings first (rs ++ [r]) = crossings first rs ++ r.crossings (first && rs.isEmpty) := by
  induction rs generalizing first with
  | nil => simp [crossings]
  | cons s rs ih =>
    show s.crossings first ++ crossings false (rs ++ [r]) = _
    rw [ih]
    simp [crossings]

namespace Answer

def isYield : Answer → Bool
  | yield _ => true
  | finish _ => false

def status : Answer → Status
  | yield _ => .suspended
  | finish _ => .dead

end Answer

/-! ## threads -/

inductive Stage where
  | running
  /-- It is resuming a coroutine and has marked it as running. -/
  | claimed (c : ThreadId) (vs : List Value)
  /-- It has also marked itself as waiting for another one. -/
  | marked (c : ThreadId) (vs : List Value)
  /-- It waits at the channel of the coroutine for an answer. -/
  | waiting (c : ThreadId)
  /-- It has taken the answer and is still marked as waiting. -/
  | answered (c : ThreadId) (a : Answer)
  /-- It waits at its own channel, before its body has started or in a yield. -/
  | listening (first : Bool)
  | ended

namespace Stage

def acts : Stage → Bool
  | running => true
  | claimed _ _ => true
  | marked _ _ => true
  | answered _ _ => true
  | _ => false

/-- It is in the middle of its program, or of its body. -/
def inBody : Stage → Bool
  | listening _ => false
  | ended => false
  | _ => true

/-- The status of a coroutine that is in the middle of its body. -/
def status : Stage → Status
  | running => .running
  | claimed _ _ => .running
  | _ => .normal

def engages : Stage → Option ThreadId
  | claimed c _ => some c
  | marked c _ => some c
  | waiting c => some c
  | _ => none

def place (p : Party) : Stage → Option ThreadId
  | waiting c => some c
  | listening _ => p
  | _ => none

theorem status_ne_suspended (s : Stage) : s.status ≠ .suspended := by cases s <;> nofun

def wants : Stage → Handoff → Bool
  | waiting _, .answer _ => true
  | listening _, .resume _ => true
  | listening _, .close => true
  | _, _ => false

end Stage

def Answer.stage : Answer → Stage
  | yield _ => .listening false
  | finish _ => .ended

structure Crew where
  channel : ThreadId → Channel
  stage : Party → Stage
  /-- Who is not asleep. -/
  awake : Party → Bool
  /-- What has crossed each channel, the oldest first. -/
  log : ThreadId → List Crossing

namespace Crew

/-- The top level runs, and all coroutines wait for their first arguments. -/
def initial : Crew where
  channel := fun _ => ⟨.suspended, false, none⟩
  stage := fun p => if p = none then .running else .listening true
  awake := fun _ => true
  log := fun _ => []

def roused (n : Crew) (c : ThreadId) (p : Party) : Bool :=
  n.awake p || (n.stage p).place p == some c

def marking (n : Crew) (p : Party) (s : Status) : ThreadId → Channel :=
  match p with
  | some d => update n.channel d { n.channel d with status := s }
  | none => n.channel

theorem marking_apply (n : Crew) (p : Party) (s : Status) (d : ThreadId) :
    n.marking p s d = if p = some d then { n.channel d with status := s } else n.channel d := by
  cases p with
  | none => rfl
  | some c =>
    show update n.channel c _ d = _
    by_cases h : c = d
    · subst h
      rw [Function.update_self, if_pos rfl]
    · rw [Function.update_of_ne (Ne.symm h), if_neg fun e => h (Option.some.inj e)]

def logged (n : Crew) (c : ThreadId) (x : Crossing) : ThreadId → List Crossing :=
  update n.log c (n.log c ++ [x])

inductive Step : Crew → Crew → Prop
  /-- Resuming begins: a coroutine that is suspended is marked as running. -/
  | claim {n : Crew} {p : Party} {c : ThreadId} {vs : List Value} (running : n.stage p = .running)
      (suspended : (n.channel c).status = .suspended) :
      Step n { n with
        channel := update n.channel c { n.channel c with status := .running, started := true }
        stage := update n.stage p (.claimed c vs) }
  | refuse {n : Crew} {p : Party} {c : ThreadId} (running : n.stage p = .running)
      (unfit : (n.channel c).status ≠ .suspended) : Step n n
  | mark {n : Crew} {p : Party} {c : ThreadId} {vs : List Value}
      (claimed : n.stage p = .claimed c vs) :
      Step n { n with
        channel := n.marking p .normal
        stage := update n.stage p (.marked c vs) }
  /-- The arguments are put into the slot; what is there is no answer, so the thread sleeps. -/
  | send {n : Crew} {p : Party} {c : ThreadId} {vs : List Value}
      (marked : n.stage p = .marked c vs) :
      Step n {
        channel := update n.channel c { n.channel c with slot := some (.resume vs) }
        stage := update n.stage p (.waiting c)
        awake := update (n.roused c) p false
        log := n.logged c (.sent p vs) }
  | accept {n : Crew} {p : Party} {c : ThreadId} {a : Answer} (waiting : n.stage p = .waiting c)
      (awake : n.awake p = true) (slot : (n.channel c).slot = some (.answer a)) :
      Step n { n with
        channel := update n.channel c { n.channel c with slot := none }
        stage := update n.stage p (.answered c a)
        log := n.logged c (.returned p a) }
  | unmark {n : Crew} {p : Party} {c : ThreadId} {a : Answer}
      (answered : n.stage p = .answered c a) :
      Step n { n with
        channel := n.marking p .running
        stage := update n.stage p .running }
  /-- A coroutine yields, or its body ends. -/
  | reply {n : Crew} {c : ThreadId} {a : Answer} (running : n.stage (some c) = .running) :
      Step n {
        channel := update n.channel c
          { n.channel c with status := a.status, slot := some (.answer a) }
        stage := update n.stage (some c) a.stage
        awake := update (n.roused c) (some c) true
        log := n.logged c (.replied a) }
  | receive {n : Crew} {c : ThreadId} {first : Bool} {vs : List Value}
      (listening : n.stage (some c) = .listening first) (awake : n.awake (some c) = true)
      (slot : (n.channel c).slot = some (.resume vs)) :
      Step n { n with
        channel := update n.channel c { n.channel c with slot := none }
        stage := update n.stage (some c) .running
        log := n.logged c (.received first vs) }
  /-- A coroutine that has not started ends; a yield would fail and its body go on. -/
  | leave {n : Crew} {c : ThreadId} {first : Bool}
      (listening : n.stage (some c) = .listening first) (awake : n.awake (some c) = true)
      (slot : (n.channel c).slot = some .close) :
      Step n { n with
        channel := update n.channel c { n.channel c with slot := none }
        stage := update n.stage (some c) (if first then .ended else .running) }
  /-- A thread finds nothing for it in the slot and sleeps. -/
  | doze {n : Crew} {p : Party} {c : ThreadId} (place : (n.stage p).place p = some c)
      (nothing : ∀ h, (n.channel c).slot = some h → (n.stage p).wants h = false) :
      Step n { n with awake := update n.awake p false }
  /-- A sleeper wakes up without a reason. -/
  | wake {n : Crew} {p : Party} : Step n { n with awake := update n.awake p true }
  /-- The last handle to a coroutine that was never resumed goes. -/
  | drop {n : Crew} {c : ThreadId} (unstarted : (n.channel c).started = false)
      (suspended : (n.channel c).status = .suspended) :
      Step n { n with
        channel := update n.channel c { n.channel c with status := .dead, slot := some .close }
        awake := n.roused c }
  | abandon {n : Crew} {c : ThreadId}
      (used : (n.channel c).started = true ∨ (n.channel c).status ≠ .suspended) : Step n n

abbrev Run : Crew → Crew → Prop := Relation.ReflTransGen Step

/-! ## one channel -/

variable {n n' : Crew} {p : Party} {c d : ThreadId} {vs : List Value} {a : Answer}

/-- What holds of one channel and the threads at it: where the current round stands, after whole
rounds that all ended with a yield. -/
inductive Local (n : Crew) (c : ThreadId) : Prop
  | idle (rounds : List Round)
      (channel : n.channel c = ⟨.suspended, !rounds.isEmpty, none⟩)
      (stage : n.stage (some c) = .listening rounds.isEmpty)
      (free : ∀ p, (n.stage p).engages ≠ some c)
      (yields : ∀ r ∈ rounds, r.answer.isYield = true)
      (log : n.log c = crossings true rounds)
  | claimed (rounds : List Round) (p : Party) (vs : List Value)
      (channel : n.channel c = ⟨.running, true, none⟩)
      (stage : n.stage (some c) = .listening rounds.isEmpty)
      (resumer : n.stage p = .claimed c vs ∨ n.stage p = .marked c vs)
      (sole : ∀ q, (n.stage q).engages = some c → q = p)
      (yields : ∀ r ∈ rounds, r.answer.isYield = true)
      (log : n.log c = crossings true rounds)
  | sent (rounds : List Round) (p : Party) (vs : List Value)
      (channel : n.channel c = ⟨.running, true, some (.resume vs)⟩)
      (stage : n.stage (some c) = .listening rounds.isEmpty)
      (resumer : n.stage p = .waiting c)
      (sole : ∀ q, (n.stage q).engages = some c → q = p)
      (yields : ∀ r ∈ rounds, r.answer.isYield = true)
      (log : n.log c = crossings true rounds ++ [.sent p vs])
  | active (rounds : List Round) (p : Party) (vs : List Value)
      (channel : n.channel c = ⟨(n.stage (some c)).status, true, none⟩)
      (stage : (n.stage (some c)).inBody = true)
      (resumer : n.stage p = .waiting c)
      (other : p ≠ some c)
      (sole : ∀ q, (n.stage q).engages = some c → q = p)
      (yields : ∀ r ∈ rounds, r.answer.isYield = true)
      (log : n.log c = crossings true rounds ++ [.sent p vs, .received rounds.isEmpty vs])
  | replied (rounds : List Round) (p : Party) (vs : List Value) (a : Answer)
      (channel : n.channel c = ⟨a.status, true, some (.answer a)⟩)
      (stage : n.stage (some c) = a.stage)
      (resumer : n.stage p = .waiting c)
      (sole : ∀ q, (n.stage q).engages = some c → q = p)
      (yields : ∀ r ∈ rounds, r.answer.isYield = true)
      (log : n.log c = crossings true rounds ++
        [.sent p vs, .received rounds.isEmpty vs, .replied a])
  | finished (rounds : List Round) (started : Bool)
      (channel : n.channel c = ⟨.dead, started, none⟩)
      (stage : n.stage (some c) = .ended)
      (free : ∀ p, (n.stage p).engages ≠ some c)
      (yields : ∀ r ∈ rounds.dropLast, r.answer.isYield = true)
      (log : n.log c = crossings true rounds)
  | closing (channel : n.channel c = ⟨.dead, false, some .close⟩)
      (stage : n.stage (some c) = .listening true)
      (free : ∀ p, (n.stage p).engages ≠ some c)
      (log : n.log c = [])

namespace Local

theorem frame (h : n.Local c) (hch : n'.channel c = n.channel c) (hlog : n'.log c = n.log c)
    (hst : n'.stage (some c) = n.stage (some c))
    (heng : ∀ q, (n.stage q).engages = some c ∨ (n'.stage q).engages = some c →
      n'.stage q = n.stage q) : n'.Local c := by
  have hfree : (∀ q, (n.stage q).engages ≠ some c) → ∀ q, (n'.stage q).engages ≠ some c := by
    intro hf q hq
    rw [heng q (.inr hq)] at hq
    exact hf q hq
  have hsole : ∀ {p}, (∀ q, (n.stage q).engages = some c → q = p) →
      ∀ q, (n'.stage q).engages = some c → q = p := by
    intro p hs q hq
    rw [heng q (.inr hq)] at hq
    exact hs q hq
  have hres : ∀ {q}, (n.stage q).engages = some c → n'.stage q = n.stage q :=
    fun hq => heng _ (.inl hq)
  cases h with
  | idle rounds channel stage free yields log =>
    exact .idle rounds (hch.trans channel) (hst.trans stage) (hfree free) yields (hlog.trans log)
  | claimed rounds p vs channel stage resumer sole yields log =>
    have he : n'.stage p = n.stage p := hres (by rcases resumer with e | e <;> rw [e] <;> rfl)
    exact .claimed rounds p vs (hch.trans channel) (hst.trans stage) (he ▸ resumer) (hsole sole)
      yields (hlog.trans log)
  | sent rounds p vs channel stage resumer sole yields log =>
    have he : n'.stage p = n.stage p := hres (by rw [resumer]; rfl)
    exact .sent rounds p vs (hch.trans channel) (hst.trans stage) (he.trans resumer) (hsole sole)
      yields (hlog.trans log)
  | active rounds p vs channel stage resumer other sole yields log =>
    have he : n'.stage p = n.stage p := hres (by rw [resumer]; rfl)
    exact .active rounds p vs (by rw [hst]; exact hch.trans channel) (by rw [hst]; exact stage)
      (he.trans resumer) other (hsole sole) yields (hlog.trans log)
  | replied rounds p vs a channel stage resumer sole yields log =>
    have he : n'.stage p = n.stage p := hres (by rw [resumer]; rfl)
    exact .replied rounds p vs a (hch.trans channel) (hst.trans stage) (he.trans resumer)
      (hsole sole) yields (hlog.trans log)
  | finished rounds started channel stage free yields log =>
    exact .finished rounds started (hch.trans channel) (hst.trans stage) (hfree free) yields
      (hlog.trans log)
  | closing channel stage free log =>
    exact .closing (hch.trans channel) (hst.trans stage) (hfree free) (hlog.trans log)

/-! ## what a stage or a slot says about the channel -/

/-- In the middle of its body, a coroutine was resumed by another party, which waits. -/
theorem of_inBody (h : n.Local c) (hb : (n.stage (some c)).inBody = true) :
    n.channel c = ⟨(n.stage (some c)).status, true, none⟩ ∧
    ∃ rounds p vs, n.stage p = .waiting c ∧ p ≠ some c ∧
      (∀ q, (n.stage q).engages = some c → q = p) ∧
      (∀ r ∈ rounds, r.answer.isYield = true) ∧
      n.log c = crossings true rounds ++ [.sent p vs, .received rounds.isEmpty vs] := by
  cases h with
  | active rounds p vs channel stage resumer other sole yields log =>
    exact ⟨channel, rounds, p, vs, resumer, other, sole, yields, log⟩
  | idle _ _ stage => rw [stage] at hb; cases hb
  | claimed _ _ _ _ stage => rw [stage] at hb; cases hb
  | sent _ _ _ _ stage => rw [stage] at hb; cases hb
  | replied _ _ _ a _ stage => rw [stage] at hb; cases a <;> cases hb
  | finished _ _ _ stage => rw [stage] at hb; cases hb
  | closing _ stage => rw [stage] at hb; cases hb

/-- A suspended coroutine whose answer is taken waits for the next round. -/
theorem of_suspended (h : n.Local c) (hs : (n.channel c).status = .suspended)
    (hfree : (n.channel c).started = false ∨ (n.channel c).slot = none) :
    ∃ rounds, n.channel c = ⟨.suspended, !rounds.isEmpty, none⟩ ∧
      n.stage (some c) = .listening rounds.isEmpty ∧ (∀ p, (n.stage p).engages ≠ some c) ∧
      (∀ r ∈ rounds, r.answer.isYield = true) ∧ n.log c = crossings true rounds := by
  cases h with
  | idle rounds channel stage free yields log => exact ⟨rounds, channel, stage, free, yields, log⟩
  | claimed _ _ _ channel => rw [channel] at hs; cases hs
  | sent _ _ _ channel => rw [channel] at hs; cases hs
  | active _ _ _ channel => rw [channel] at hs; exact absurd hs (Stage.status_ne_suspended _)
  | replied _ _ _ _ channel => rw [channel] at hfree; rcases hfree with e | e <;> cases e
  | finished _ _ channel => rw [channel] at hs; cases hs
  | closing channel => rw [channel] at hs; cases hs

/-- A coroutine that a party is about to send arguments to waits for them. -/
theorem of_claimed (h : n.Local c)
    (hp : n.stage p = .claimed c vs ∨ n.stage p = .marked c vs) :
    ∃ rounds, n.channel c = ⟨.running, true, none⟩ ∧
      n.stage (some c) = .listening rounds.isEmpty ∧
      (∀ q, (n.stage q).engages = some c → q = p) ∧
      (∀ r ∈ rounds, r.answer.isYield = true) ∧ n.log c = crossings true rounds := by
  have he : (n.stage p).engages = some c := by rcases hp with e | e <;> rw [e] <;> rfl
  -- whoever resumes this coroutine is this party, and it does not wait yet
  have hw : n.stage p ≠ .waiting c := by rcases hp with e | e <;> rw [e] <;> nofun
  cases h with
  | claimed rounds q vs' channel stage resumer sole yields log =>
    have hq := sole p he
    subst hq
    exact ⟨rounds, channel, stage, sole, yields, log⟩
  | idle _ _ _ free => exact absurd he (free p)
  | sent _ _ _ _ _ resumer sole => exact absurd (sole p he ▸ resumer) hw
  | active _ _ _ _ _ resumer _ sole => exact absurd (sole p he ▸ resumer) hw
  | replied _ _ _ _ _ _ resumer sole => exact absurd (sole p he ▸ resumer) hw
  | finished _ _ _ _ free => exact absurd he (free p)
  | closing _ _ free => exact absurd he (free p)

theorem of_slot (h : n.Local c) {x : Handoff} (hx : (n.channel c).slot = some x) :
    match x with
    | .resume vs => ∃ rounds p, n.channel c = ⟨.running, true, some (.resume vs)⟩ ∧
        n.stage (some c) = .listening rounds.isEmpty ∧ n.stage p = .waiting c ∧
        (∀ q, (n.stage q).engages = some c → q = p) ∧
        (∀ r ∈ rounds, r.answer.isYield = true) ∧
        n.log c = crossings true rounds ++ [.sent p vs]
    | .answer a => ∃ rounds p vs, n.channel c = ⟨a.status, true, some (.answer a)⟩ ∧
        n.stage (some c) = a.stage ∧ n.stage p = .waiting c ∧
        (∀ q, (n.stage q).engages = some c → q = p) ∧
        (∀ r ∈ rounds, r.answer.isYield = true) ∧
        n.log c = crossings true rounds ++
          [.sent p vs, .received rounds.isEmpty vs, .replied a]
    | .close => n.channel c = ⟨.dead, false, some .close⟩ ∧ n.stage (some c) = .listening true ∧
        (∀ p, (n.stage p).engages ≠ some c) ∧ n.log c = [] := by
  cases h with
  | sent rounds p vs channel stage resumer sole yields log =>
    rw [channel] at hx
    cases hx
    exact ⟨rounds, p, channel, stage, resumer, sole, yields, log⟩
  | replied rounds p vs a channel stage resumer sole yields log =>
    rw [channel] at hx
    cases hx
    exact ⟨rounds, p, vs, channel, stage, resumer, sole, yields, log⟩
  | closing channel stage free log =>
    rw [channel] at hx
    cases hx
    exact ⟨channel, stage, free, log⟩
  | idle _ channel => rw [channel] at hx; cases hx
  | claimed _ _ _ channel => rw [channel] at hx; cases hx
  | active _ _ _ channel => rw [channel] at hx; cases hx
  | finished _ _ channel => rw [channel] at hx; cases hx

/-- What has crossed a channel is the beginning of whole rounds, of which at most the last one did
not end with a yield. -/
theorem log_alternates (h : n.Local c) : ∃ rounds, n.log c <+: crossings true rounds ∧
    ∀ r ∈ rounds.dropLast, r.answer.isYield = true := by
  -- a round under way may still end with anything
  have under : ∀ (rounds : List Round) (r : Round) (l : List Crossing),
      n.log c = crossings true rounds ++ l → l <+: r.crossings rounds.isEmpty →
      (∀ r ∈ rounds, r.answer.isYield = true) →
      ∃ rounds, n.log c <+: crossings true rounds ∧
        ∀ r ∈ rounds.dropLast, r.answer.isYield = true := by
    intro rounds r l hlog hl hy
    refine ⟨rounds ++ [r], ?_, by rwa [List.dropLast_concat]⟩
    rw [hlog, crossings_concat]
    exact (List.prefix_append_right_inj _).mpr hl
  have whole : ∀ rounds : List Round, (∀ r ∈ rounds, r.answer.isYield = true) →
      ∀ r ∈ rounds.dropLast, r.answer.isYield = true :=
    fun rounds hy r hr => hy r ((List.dropLast_sublist rounds).subset hr)
  cases h with
  | idle rounds _ _ _ yields log => exact ⟨rounds, log ▸ List.prefix_rfl, whole rounds yields⟩
  | claimed rounds _ _ _ _ _ _ yields log =>
    exact ⟨rounds, log ▸ List.prefix_rfl, whole rounds yields⟩
  | sent rounds p vs _ _ _ _ yields log =>
    exact under rounds ⟨p, vs, .yield []⟩ _ log ⟨_, rfl⟩ yields
  | active rounds p vs _ _ _ _ _ yields log =>
    exact under rounds ⟨p, vs, .yield []⟩ _ log ⟨_, rfl⟩ yields
  | replied rounds p vs a _ _ _ _ yields log => exact under rounds ⟨p, vs, a⟩ _ log ⟨_, rfl⟩ yields
  | finished rounds _ _ _ _ yields log => exact ⟨rounds, log ▸ List.prefix_rfl, yields⟩
  | closing _ _ _ log => exact ⟨[], log ▸ List.prefix_rfl, nofun⟩

/-! ## steps at other channels -/

theorem turn (h : n.Local c) (hb : (n.stage (some c)).inBody = true)
    (hb' : (n'.stage (some c)).inBody = true)
    (hch : n'.channel c = { n.channel c with status := (n'.stage (some c)).status })
    (hlog : n'.log c = n.log c) (hst : ∀ q, q ≠ some c → n'.stage q = n.stage q)
    (heng : (n'.stage (some c)).engages ≠ some c) : n'.Local c := by
  obtain ⟨channel, rounds, p, vs, resumer, other, sole, yields, log⟩ := h.of_inBody hb
  refine .active rounds p vs ?_ hb' ((hst p other).trans resumer) other (fun q hq => ?_) yields
    (hlog.trans log)
  · rw [hch, channel]
  · by_cases hqc : q = some c
    · subst hqc
      exact absurd hq heng
    · rw [hst q hqc] at hq
      exact sole q hq

/-- A party goes on in its body with what does not concern this coroutine, which may be its own. -/
theorem resumer {s : Stage} (h : n.Local d) (hb : (n.stage p).inBody = true) (hb' : s.inBody = true)
    (hst : n'.stage = update n.stage p s) (hch : n'.channel d = n.marking p s.status d)
    (hlog : n'.log d = n.log d) (he : (n.stage p).engages ≠ some d) (he' : s.engages ≠ some d) :
    n'.Local d := by
  by_cases hpd : p = some d
  · -- it is this coroutine that goes on
    subst hpd
    have hs : n'.stage (some d) = s := by rw [hst, Function.update_self]
    refine h.turn hb (by rwa [hs]) ?_ hlog (fun q hq => ?_) (by rwa [hs])
    · rw [hch, marking_apply, if_pos rfl, hs]
    · rw [hst, Function.update_of_ne hq]
  · have hs : ∀ q, q ≠ p → n'.stage q = n.stage q := fun q hq => by
      rw [hst, Function.update_of_ne hq]
    refine h.frame ?_ hlog (hs _ fun e => hpd e.symm) (fun q hq => hs q ?_)
    · rw [hch, marking_apply, if_neg hpd]
    · rintro rfl
      rw [hst, Function.update_self] at hq
      exact hq.elim he he'

theorem other {s : Stage} (h : n.Local d) (hd : d ≠ c) (hst : n'.stage = update n.stage (some c) s)
    (hch : n'.channel d = n.channel d) (hlog : n'.log d = n.log d)
    (he : (n.stage (some c)).engages = none) (he' : s.engages = none) : n'.Local d := by
  have hs : ∀ q, q ≠ some c → n'.stage q = n.stage q := fun q hq => by
    rw [hst, Function.update_of_ne hq]
  refine h.frame hch hlog (hs _ fun e => hd (Option.some.inj e)) (fun q hq => hs q ?_)
  rintro rfl
  rw [hst, Function.update_self, he, he'] at hq
  rcases hq with e | e <;> cases e

end Local

end Crew

end LuaMachine.Rendezvous
