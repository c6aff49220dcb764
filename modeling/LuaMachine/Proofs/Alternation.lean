import Mathlib.Data.List.Basic
import Mathlib.Logic.ExistsUnique
import LuaMachine.Proofs.Rendezvous

/-!
# Threads take turns

Control is always in exactly one place: with a thread that acts, or in a slot, from where somebody
goes on.  That place moves with every handover, and with it the two sides of a channel alternate.

* `Crew.Controls`      where control is;
* `Crew.Alert`         nobody sleeps in front of what it waits for;
* `Crew.Inv`           what holds of all threads at every moment;
* `Inv.run`            it holds along every run;
* `Crew.Transfer`      what one step does to one slot;
* `Inv.takeable`       what a slot holds can be taken at once.
-/

open Function (update)

namespace LuaMachine.Rendezvous

namespace Crew

variable {n n' : Crew} {p : Party} {c d : ThreadId} {vs : List Value} {a : Answer}

/-! ## the invariant -/

/-- Where control is: with a thread that acts, or in a slot, for somebody to go on with. -/
def Controls (n : Crew) : Party ⊕ ThreadId → Prop
  | .inl p => (n.stage p).acts = true
  | .inr c => ∃ h, (n.channel c).slot = some h ∧ h.passes = true

/-- Nobody sleeps in front of what it waits for. -/
def Alert (n : Crew) : Prop :=
  ∀ p c h, (n.stage p).place p = some c → (n.channel c).slot = some h →
    (n.stage p).wants h = true → n.awake p = true

structure Inv (n : Crew) : Prop where
  channels : ∀ c, n.Local c
  control : ∃! x, n.Controls x
  alert : n.Alert

theorem inv_initial : initial.Inv where
  channels := fun _ => .idle [] rfl rfl
    (fun p => by unfold initial; dsimp only; split <;> nofun) nofun rfl
  control := by
    refine ⟨.inl none, rfl, fun x hx => ?_⟩
    cases x with
    | inl p =>
      cases p with
      | none => rfl
      | some c => cases hx
    | inr c =>
      obtain ⟨h, e, _⟩ := hx
      cases e
  alert := fun _ _ _ _ _ _ => rfl

namespace Inv

theorem only (h : n.Inv) {q : Party} (hp : (n.stage p).acts = true) (hq : (n.stage q).acts = true) :
    p = q := by
  have hcp : n.Controls (.inl p) := hp
  have hcq : n.Controls (.inl q) := hq
  exact Sum.inl.inj (h.control.unique hcp hcq)

theorem not_passes (h : n.Inv) (hp : (n.stage p).acts = true) {x : Handoff}
    (hx : (n.channel c).slot = some x) : x.passes = false := by
  by_contra hne
  rw [Bool.not_eq_false] at hne
  have hcp : n.Controls (.inl p) := hp
  have hcc : n.Controls (.inr c) := ⟨x, hx, hne⟩
  cases h.control.unique hcp hcc

/-- A suspended coroutine waits for the next round while a thread runs. -/
theorem slot_of_suspended (h : n.Inv) (hp : (n.stage p).acts = true)
    (hs : (n.channel c).status = .suspended) : (n.channel c).slot = none := by
  cases e : (n.channel c).slot with
  | none => rfl
  | some x =>
    have hx := h.not_passes hp e
    cases x with
    | close =>
      have hd := ((h.channels c).of_slot e).1
      rw [hd] at hs
      cases hs
    | resume vs => cases hx
    | answer a => cases hx

theorem marking_status (h : n.Inv) (hb : (n.stage p).inBody = true) :
    n.marking p (n.stage p).status = n.channel := by
  funext d
  rw [marking_apply]
  split
  · rename_i hpd
    subst hpd
    rw [((h.channels d).of_inBody hb).1]
  · rfl

/-! ### the channels -/

theorem engages_update {s : Stage} {q : Party} (hq : (update n.stage p s q).engages = some d)
    (he : s.engages ≠ some d) : q ≠ p ∧ (n.stage q).engages = some d := by
  have hqp : q ≠ p := by
    rintro rfl
    rw [Function.update_self] at hq
    exact he hq
  rw [Function.update_of_ne hqp] at hq
  exact ⟨hqp, hq⟩

theorem channel_elsewhere (h : n.Inv) {s : Stage} {ch : Channel} (hb : (n.stage p).inBody = true)
    (hs : s.status = (n.stage p).status) (hd : d ≠ c) :
    update n.channel c ch d = n.marking p s.status d := by
  rw [hs, h.marking_status hb, Function.update_of_ne hd]

theorem channels_claim (h : n.Inv) (hp : n.stage p = .running)
    (hs : (n.channel c).status = .suspended) (d : ThreadId) :
    Local { n with
      channel := update n.channel c { n.channel c with status := .running, started := true }
      stage := update n.stage p (.claimed c vs) } d := by
  have hact : (n.stage p).acts = true := by rw [hp]; rfl
  have hbody : (n.stage p).inBody = true := by rw [hp]; rfl
  by_cases hd : d = c
  · subst hd
    obtain ⟨rounds, channel, stage, free, yields, log⟩ :=
      (h.channels d).of_suspended hs (.inr (h.slot_of_suspended hact hs))
    have hpd : some d ≠ p := by
      rintro rfl
      rw [stage] at hp
      cases hp
    refine .claimed rounds p vs ?_ ?_ (.inl ?_) (fun q hq => ?_) yields log
    · dsimp only
      rw [Function.update_self, channel]
    · dsimp only
      rw [Function.update_of_ne hpd, stage]
    · dsimp only
      rw [Function.update_self]
    · by_contra hqp
      dsimp only at hq
      rw [Function.update_of_ne hqp] at hq
      -- nobody was resuming the coroutine before
      exact free q hq
  · have hcd : Stage.engages (.claimed c vs) ≠ some d := fun e => hd (Option.some.inj e).symm
    exact (h.channels d).resumer hbody rfl rfl (h.channel_elsewhere hbody (by rw [hp]; rfl) hd) rfl
      (by rw [hp]; nofun) hcd

theorem channels_mark (h : n.Inv) (hp : n.stage p = .claimed c vs) (d : ThreadId) :
    Local { n with
      channel := n.marking p .normal
      stage := update n.stage p (.marked c vs) } d := by
  by_cases hd : d = c
  · subst hd
    obtain ⟨rounds, channel, stage, sole, yields, log⟩ := (h.channels d).of_claimed (.inl hp)
    have hpd : p ≠ some d := by
      rintro rfl
      rw [stage] at hp
      cases hp
    refine .claimed rounds p vs ?_ ?_ (.inr ?_) (fun q hq => ?_) yields log
    · dsimp only
      rw [marking_apply, if_neg hpd, channel]
    · dsimp only
      rw [Function.update_of_ne hpd.symm, stage]
    · dsimp only
      rw [Function.update_self]
    · by_contra hqp
      dsimp only at hq
      rw [Function.update_of_ne hqp] at hq
      exact hqp (sole q hq)
  · have hcd : some c ≠ some d := fun e => hd (Option.some.inj e).symm
    exact (h.channels d).resumer (by rw [hp]; rfl) rfl rfl rfl rfl (by rw [hp]; exact hcd) hcd

theorem channels_send (h : n.Inv) (hp : n.stage p = .marked c vs) (d : ThreadId) :
    Local {
      channel := update n.channel c { n.channel c with slot := some (.resume vs) }
      stage := update n.stage p (.waiting c)
      awake := update (n.roused c) p false
      log := n.logged c (.sent p vs) } d := by
  by_cases hd : d = c
  · subst hd
    obtain ⟨rounds, channel, stage, sole, yields, log⟩ := (h.channels d).of_claimed (.inr hp)
    have hpd : some d ≠ p := by
      rintro rfl
      rw [stage] at hp
      cases hp
    refine .sent rounds p vs ?_ ?_ ?_ (fun q hq => ?_) yields ?_
    · dsimp only
      rw [Function.update_self, channel]
    · dsimp only
      rw [Function.update_of_ne hpd, stage]
    · dsimp only
      rw [Function.update_self]
    · by_contra hqp
      dsimp only at hq
      rw [Function.update_of_ne hqp] at hq
      exact hqp (sole q hq)
    · dsimp only [logged]
      rw [Function.update_self, log]
  · have hcd : some c ≠ some d := fun e => hd (Option.some.inj e).symm
    have hbody : (n.stage p).inBody = true := by rw [hp]; rfl
    exact (h.channels d).resumer hbody rfl rfl (h.channel_elsewhere hbody (by rw [hp]; rfl) hd)
      (Function.update_of_ne hd _ _) (by rw [hp]; exact hcd) hcd

theorem channels_accept (h : n.Inv) (hp : n.stage p = .waiting c)
    (hs : (n.channel c).slot = some (.answer a)) (d : ThreadId) :
    Local { n with
      channel := update n.channel c { n.channel c with slot := none }
      stage := update n.stage p (.answered c a)
      log := n.logged c (.returned p a) } d := by
  by_cases hd : d = c
  · subst hd
    obtain ⟨rounds, p', vs, channel, stage, resumer, sole, yields, log⟩ :=
      (h.channels d).of_slot hs
    -- only the one who sent the arguments of this round waits here
    have hpp : p = p' := sole p (by rw [hp]; rfl)
    subst hpp
    have hpd : some d ≠ p := by
      rintro rfl
      rw [stage] at hp
      cases a <;> cases hp
    have hchannel : update n.channel d { n.channel d with slot := none } d
        = ⟨a.status, true, none⟩ := by rw [Function.update_self, channel]
    have hstage : update n.stage p (.answered d a) (some d) = a.stage := by
      rw [Function.update_of_ne hpd, stage]
    have hfree : ∀ q, (update n.stage p (.answered d a) q).engages ≠ some d := by
      intro q hq
      obtain ⟨hqp, hq⟩ := engages_update hq nofun
      exact hqp (sole q hq)
    have hlog : n.logged d (.returned p a) d = crossings true (rounds ++ [⟨p, vs, a⟩]) := by
      unfold logged
      rw [Function.update_self, log, crossings_concat, List.append_assoc]
      rfl
    have hempty : (rounds ++ [(⟨p, vs, a⟩ : Round)]).isEmpty = false := by simp
    -- after a yield another round can follow, after the end of the body none
    cases a with
    | yield ys =>
      refine .idle (rounds ++ [⟨p, vs, .yield ys⟩]) ?_ ?_ hfree (fun r hr => ?_) hlog
      · rw [hempty]
        exact hchannel
      · rw [hempty]
        exact hstage
      · rcases List.mem_append.mp hr with hr | hr
        · exact yields r hr
        · rw [List.mem_singleton.mp hr]
          rfl
    | finish r =>
      refine .finished (rounds ++ [⟨p, vs, .finish r⟩]) true hchannel hstage hfree ?_ hlog
      rwa [List.dropLast_concat]
  · have hbody : (n.stage p).inBody = true := by rw [hp]; rfl
    exact (h.channels d).resumer hbody rfl rfl (h.channel_elsewhere hbody (by rw [hp]; rfl) hd)
      (Function.update_of_ne hd _ _) (by rw [hp]; exact fun e => hd (Option.some.inj e).symm) nofun

theorem channels_reply (h : n.Inv) (hc : n.stage (some c) = .running) (d : ThreadId) :
    Local {
      channel := update n.channel c
        { n.channel c with status := a.status, slot := some (.answer a) }
      stage := update n.stage (some c) a.stage
      awake := update (n.roused c) (some c) true
      log := n.logged c (.replied a) } d := by
  have he : a.stage.engages = none := by cases a <;> rfl
  by_cases hd : d = c
  · subst hd
    obtain ⟨channel, rounds, p, vs, resumer, other, sole, yields, log⟩ :=
      (h.channels d).of_inBody (by rw [hc]; rfl)
    refine .replied rounds p vs a ?_ ?_ ?_
      (fun q hq => sole q (engages_update hq (by rw [he]; nofun)).2) yields ?_
    · dsimp only
      rw [Function.update_self, channel]
    · dsimp only
      rw [Function.update_self]
    · dsimp only
      rw [Function.update_of_ne other, resumer]
    · dsimp only [logged]
      rw [Function.update_self, log, List.append_assoc]
      rfl
  · exact (h.channels d).other hd rfl (Function.update_of_ne hd _ _)
      (Function.update_of_ne hd _ _) (by rw [hc]; rfl) he

theorem channels_receive (h : n.Inv) {first : Bool} (hc : n.stage (some c) = .listening first)
    (hs : (n.channel c).slot = some (.resume vs)) (d : ThreadId) :
    Local { n with
      channel := update n.channel c { n.channel c with slot := none }
      stage := update n.stage (some c) .running
      log := n.logged c (.received first vs) } d := by
  by_cases hd : d = c
  · subst hd
    obtain ⟨rounds, p, channel, stage, resumer, sole, yields, log⟩ := (h.channels d).of_slot hs
    cases hc.symm.trans stage
    have hpd : p ≠ some d := by
      rintro rfl
      rw [stage] at resumer
      cases resumer
    refine .active rounds p vs ?_ ?_ ?_ hpd
      (fun q hq => sole q (engages_update hq nofun).2) yields ?_
    · dsimp only
      rw [Function.update_self, Function.update_self, channel]
      rfl
    · dsimp only
      rw [Function.update_self]
      rfl
    · dsimp only
      rw [Function.update_of_ne hpd, resumer]
    · dsimp only [logged]
      rw [Function.update_self, log, List.append_assoc]
      rfl
  · exact (h.channels d).other hd rfl (Function.update_of_ne hd _ _)
      (Function.update_of_ne hd _ _) (by rw [hc]; rfl) rfl

/-- Only a coroutine that has not started finds that nobody will resume it. -/
theorem channels_leave (h : n.Inv) {first : Bool} (hc : n.stage (some c) = .listening first)
    (hs : (n.channel c).slot = some .close) (d : ThreadId) :
    Local { n with
      channel := update n.channel c { n.channel c with slot := none }
      stage := update n.stage (some c) (if first then .ended else .running) } d := by
  by_cases hd : d = c
  · subst hd
    obtain ⟨channel, stage, free, log⟩ := (h.channels d).of_slot hs
    cases hc.symm.trans stage
    refine .finished [] false ?_ ?_ (fun q hq => free q (engages_update hq nofun).2) nofun log
    · dsimp only
      rw [Function.update_self, channel]
    · dsimp only
      rw [Function.update_self]
      rfl
  · exact (h.channels d).other hd rfl (Function.update_of_ne hd _ _) rfl (by rw [hc]; rfl)
      (by cases first <;> rfl)

theorem channels_drop (h : n.Inv) (hu : (n.channel c).started = false)
    (hs : (n.channel c).status = .suspended) (d : ThreadId) :
    Local { n with
      channel := update n.channel c { n.channel c with status := .dead, slot := some .close }
      awake := n.roused c } d := by
  by_cases hd : d = c
  · subst hd
    obtain ⟨rounds, channel, stage, free, _, log⟩ := (h.channels d).of_suspended hs (.inl hu)
    have hempty : rounds = [] := by
      rw [channel] at hu
      cases rounds with
      | nil => rfl
      | cons r rs => cases hu
    subst hempty
    refine .closing ?_ stage free log
    dsimp only
    rw [Function.update_self, channel]
    rfl
  · exact (h.channels d).frame (Function.update_of_ne hd _ _) rfl rfl fun _ _ => rfl

theorem channels_step (h : n.Inv) (hs : Step n n') (d : ThreadId) : n'.Local d := by
  cases hs with
  | claim hp hs => exact h.channels_claim hp hs d
  | refuse _ _ => exact h.channels d
  | mark hp => exact h.channels_mark hp d
  | send hp => exact h.channels_send hp d
  | accept hp _ hs => exact h.channels_accept hp hs d
  | unmark hp =>
    exact (h.channels d).resumer (by rw [hp]; rfl) rfl rfl rfl rfl (by rw [hp]; nofun) nofun
  | reply hc => exact h.channels_reply hc d
  | receive hc _ hs => exact h.channels_receive hc hs d
  | leave hc _ hs => exact h.channels_leave hc hs d
  | doze _ _ => exact (h.channels d).frame rfl rfl rfl fun _ _ => rfl
  | wake => exact (h.channels d).frame rfl rfl rfl fun _ _ => rfl
  | drop hu hs => exact h.channels_drop hu hs d
  | abandon _ => exact h.channels d

/-! ### control -/

theorem control_moved (h : n.Inv) {x y : Party ⊕ ThreadId} (hx : n.Controls x) (hy : n'.Controls y)
    (hrest : ∀ z, n'.Controls z → z ≠ y → n.Controls z ∧ z ≠ x) : ∃! z, n'.Controls z := by
  refine ⟨y, hy, fun z hz => ?_⟩
  by_contra hne
  obtain ⟨hz, hzx⟩ := hrest z hz hne
  exact hzx (h.control.unique hz hx)

theorem control_kept (h : n.Inv) (hst : ∀ p, (n'.stage p).acts = (n.stage p).acts)
    (hslot : ∀ c, n'.Controls (.inr c) ↔ n.Controls (.inr c)) : ∃! z, n'.Controls z := by
  refine (existsUnique_congr fun z => ?_).mpr h.control
  cases z with
  | inl p =>
    show (n'.stage p).acts = true ↔ (n.stage p).acts = true
    rw [hst]
  | inr c => exact hslot c

theorem acts_update {s : Stage} (h : s.acts = (n.stage p).acts) (q : Party) :
    (update n.stage p s q).acts = (n.stage q).acts := by
  by_cases hq : q = p
  · rw [hq, Function.update_self, h]
  · rw [Function.update_of_ne hq]

theorem slot_update {ch : Channel} (h : ch.slot = (n.channel c).slot) (d : ThreadId) :
    (update n.channel c ch d).slot = (n.channel d).slot := by
  by_cases hd : d = c
  · rw [hd, Function.update_self, h]
  · rw [Function.update_of_ne hd]

theorem slot_marking (p : Party) (s : Status) (d : ThreadId) :
    (n.marking p s d).slot = (n.channel d).slot := by
  rw [marking_apply]
  split <;> rfl

theorem controls_congr (h : (n'.channel d).slot = (n.channel d).slot) :
    n'.Controls (.inr d) ↔ n.Controls (.inr d) := by
  show (∃ x, (n'.channel d).slot = some x ∧ _) ↔ ∃ x, (n.channel d).slot = some x ∧ _
  rw [h]

theorem controls_close {ch : Channel} (hch : n'.channel = update n.channel c ch)
    (h : ∀ x, (n.channel c).slot = some x → x.passes = false)
    (h' : ∀ x, ch.slot = some x → x.passes = false) (d : ThreadId) :
    n'.Controls (.inr d) ↔ n.Controls (.inr d) := by
  by_cases hd : d = c
  · subst hd
    constructor
    · rintro ⟨x, hx, hp⟩
      rw [hch, Function.update_self] at hx
      rw [h' x hx] at hp
      cases hp
    · rintro ⟨x, hx, hp⟩
      rw [h x hx] at hp
      cases hp
  · apply controls_congr
    rw [hch, Function.update_of_ne hd]

theorem control_put (h : n.Inv) {s : Stage} {ch : Channel} {x : Handoff}
    (hst : n'.stage = update n.stage p s) (hch : n'.channel = update n.channel c ch)
    (hp : (n.stage p).acts = true) (hs : s.acts = false) (hx : ch.slot = some x)
    (hpass : x.passes = true) : ∃! z, n'.Controls z := by
  refine h.control_moved (x := .inl p) (y := .inr c) hp ⟨x, ?_, hpass⟩ (fun z hz hne => ?_)
  · rw [hch, Function.update_self, hx]
  · cases z with
    | inl q =>
      have hqp : q ≠ p := by
        rintro rfl
        change (n'.stage q).acts = true at hz
        rw [hst, Function.update_self, hs] at hz
        cases hz
      refine ⟨?_, fun e => hqp (Sum.inl.inj e)⟩
      change (n'.stage q).acts = true at hz
      rwa [hst, Function.update_of_ne hqp] at hz
    | inr d =>
      have hdc : d ≠ c := fun e => hne (congrArg Sum.inr e)
      exact ⟨(controls_congr (by rw [hch, Function.update_of_ne hdc])).mp hz, nofun⟩

theorem control_take (h : n.Inv) {s : Stage} {ch : Channel} {x : Handoff}
    (hst : n'.stage = update n.stage p s) (hch : n'.channel = update n.channel c ch)
    (hs : s.acts = true) (hx : (n.channel c).slot = some x) (hpass : x.passes = true)
    (hnone : ch.slot = none) : ∃! z, n'.Controls z := by
  refine h.control_moved (x := .inr c) (y := .inl p) ⟨x, hx, hpass⟩ ?_ (fun z hz hne => ?_)
  · show (n'.stage p).acts = true
    rw [hst, Function.update_self, hs]
  · cases z with
    | inl q =>
      have hqp : q ≠ p := fun e => hne (congrArg Sum.inl e)
      refine ⟨?_, nofun⟩
      change (n'.stage q).acts = true at hz
      rwa [hst, Function.update_of_ne hqp] at hz
    | inr d =>
      have hdc : d ≠ c := by
        rintro rfl
        obtain ⟨y, hy, _⟩ := hz
        rw [hch, Function.update_self, hnone] at hy
        cases hy
      exact ⟨(controls_congr (by rw [hch, Function.update_of_ne hdc])).mp hz,
        fun e => hdc (Sum.inr.inj e)⟩

theorem control_step (h : n.Inv) (hs : Step n n') : ∃! z, n'.Controls z := by
  cases hs with
  | claim hp _ =>
    exact h.control_kept (acts_update (by rw [hp]; rfl))
      fun d => controls_congr (slot_update (by rfl) d)
  | refuse _ _ => exact h.control
  | mark hp =>
    exact h.control_kept (acts_update (by rw [hp]; rfl))
      fun d => controls_congr (slot_marking _ _ d)
  | send hp => exact h.control_put rfl rfl (by rw [hp]; rfl) rfl rfl rfl
  | accept _ _ hs => exact h.control_take rfl rfl rfl hs rfl rfl
  | unmark hp =>
    exact h.control_kept (acts_update (by rw [hp]; rfl))
      fun d => controls_congr (slot_marking _ _ d)
  | @reply c a hc => exact h.control_put rfl rfl (by rw [hc]; rfl) (by cases a <;> rfl) rfl rfl
  | receive _ _ hs => exact h.control_take rfl rfl rfl hs rfl rfl
  | @leave c first hc _ hs =>
    obtain ⟨_, stage, _⟩ := (h.channels c).of_slot hs
    cases hc.symm.trans stage
    refine h.control_kept (acts_update (by rw [hc]; rfl)) (controls_close rfl ?_ nofun)
    intro x hx
    cases hs.symm.trans hx
    rfl
  | doze _ _ => exact h.control_kept (fun _ => rfl) fun _ => controls_congr rfl
  | wake => exact h.control_kept (fun _ => rfl) fun _ => controls_congr rfl
  | @drop c hu hs =>
    obtain ⟨_, channel, _⟩ := (h.channels c).of_suspended hs (.inl hu)
    refine h.control_kept (fun _ => rfl) (controls_close rfl ?_ ?_)
    · intro x hx
      rw [channel] at hx
      cases hx
    · rintro x ⟨⟩
      rfl
  | abandon _ => exact h.control

/-! ### sleepers -/

/-- A thread moves on and no slot is filled: the others may sleep on. -/
theorem alert_left (h : n.Inv) {s : Stage} (hst : n'.stage = update n.stage p s)
    (hs : s.place p = none)
    (hslot : ∀ d, (n'.channel d).slot = none ∨ (n'.channel d).slot = (n.channel d).slot)
    (haw : n'.awake = n.awake) : n'.Alert := by
  intro q d x hq hx hw
  have hqp : q ≠ p := by
    rintro rfl
    rw [hst, Function.update_self, hs] at hq
    cases hq
  rw [hst, Function.update_of_ne hqp] at hq hw
  rw [haw]
  refine h.alert q d x hq ?_ hw
  rcases hslot d with e | e
  · rw [e] at hx
    cases hx
  · rwa [e] at hx

/-- Whoever finds what it waits for after a slot was filled is woken, or was awake. -/
theorem roused_of_wants (h : n.Inv) {q : Party} {x : Handoff}
    (hq : (n'.stage q).place q = some d) (hx : (n'.channel d).slot = some x)
    (hw : (n'.stage q).wants x = true) (hst : n'.stage q = n.stage q)
    (hslot : d ≠ c → (n'.channel d).slot = (n.channel d).slot) : n.roused c q = true := by
  rw [hst] at hq hw
  unfold roused
  by_cases hd : d = c
  · rw [hq, hd, beq_self_eq_true, Bool.or_true]
  · rw [hslot hd] at hx
    rw [h.alert q d x hq hx hw, Bool.true_or]

theorem alert_step (h : n.Inv) (hs : Step n n') : n'.Alert := by
  -- taking from a slot leaves the other slots as they are
  have taken : ∀ {c : ThreadId} {ch : Channel}, ch.slot = none → ∀ d,
      (update n.channel c ch d).slot = none ∨
        (update n.channel c ch d).slot = (n.channel d).slot := by
    intro c ch hch d
    by_cases hd : d = c
    · exact .inl (by rw [hd, Function.update_self, hch])
    · exact .inr (by rw [Function.update_of_ne hd])
  cases hs with
  | claim _ _ => exact h.alert_left rfl rfl (fun d => .inr (slot_update (by rfl) d)) rfl
  | refuse _ _ => exact h.alert
  | mark _ => exact h.alert_left rfl rfl (fun d => .inr (slot_marking _ _ d)) rfl
  | @send p c vs hp =>
    intro q d x hq hx hw
    by_cases hqp : q = p
    · -- the sender waits for an answer, and the slot holds what it sent
      subst hqp
      dsimp only at hq hx hw
      rw [Function.update_self] at hq hw
      cases hq
      rw [Function.update_self] at hx
      cases hx
      cases hw
    · show update (n.roused c) p false q = true
      rw [Function.update_of_ne hqp]
      exact h.roused_of_wants hq hx hw (Function.update_of_ne hqp _ _)
        fun hd => by dsimp only; rw [Function.update_of_ne hd]
  | accept _ _ _ => exact h.alert_left rfl rfl (taken rfl) rfl
  | unmark _ => exact h.alert_left rfl rfl (fun d => .inr (slot_marking _ _ d)) rfl
  | @reply c a hc =>
    intro q d x hq hx hw
    show update (n.roused c) (some c) true q = true
    by_cases hqc : q = some c
    · rw [hqc, Function.update_self]
    · rw [Function.update_of_ne hqc]
      exact h.roused_of_wants hq hx hw (Function.update_of_ne hqc _ _)
        fun hd => by dsimp only; rw [Function.update_of_ne hd]
  | receive _ _ _ => exact h.alert_left rfl rfl (taken rfl) rfl
  | @leave c first _ _ _ => exact h.alert_left rfl (by cases first <;> rfl) (taken rfl) rfl
  | @doze p c place nothing =>
    intro q d x hq hx hw
    show update n.awake p false q = true
    by_cases hqp : q = p
    · subst hqp
      cases place.symm.trans hq
      rw [nothing x hx] at hw
      cases hw
    · rw [Function.update_of_ne hqp]
      exact h.alert q d x hq hx hw
  | @wake p =>
    intro q d x hq hx hw
    show update n.awake p true q = true
    by_cases hqp : q = p
    · rw [hqp, Function.update_self]
    · rw [Function.update_of_ne hqp]
      exact h.alert q d x hq hx hw
  | drop _ _ =>
    intro q d x hq hx hw
    exact h.roused_of_wants hq hx hw rfl fun hd => by dsimp only; rw [Function.update_of_ne hd]
  | abandon _ => exact h.alert

theorem step (h : n.Inv) (hs : Step n n') : n'.Inv :=
  ⟨h.channels_step hs, h.control_step hs, h.alert_step hs⟩

theorem run (h : n.Inv) (hr : Run n n') : n'.Inv := by
  induction hr with
  | refl => exact h
  | tail _ hs ih => exact ih.step hs

end Inv

/-! ## slots -/

/-- What one step does to the slot of one channel and to what has crossed it.  A slot is filled only
when it is empty, and emptied only by the one whom it is for. -/
inductive Transfer (n n' : Crew) (c : ThreadId) : Prop
  | keep (slot : (n'.channel c).slot = (n.channel c).slot) (log : n'.log c = n.log c)
  | send (p : Party) (vs : List Value) (empty : (n.channel c).slot = none)
      (resumer : n.stage p = .marked c vs) (slot : (n'.channel c).slot = some (.resume vs))
      (waits : n'.stage p = .waiting c) (log : n'.log c = n.log c ++ [.sent p vs])
  | receive (first : Bool) (vs : List Value) (held : (n.channel c).slot = some (.resume vs))
      (listens : n.stage (some c) = .listening first) (slot : (n'.channel c).slot = none)
      (runs : n'.stage (some c) = .running) (log : n'.log c = n.log c ++ [.received first vs])
  | reply (a : Answer) (empty : (n.channel c).slot = none) (runs : n.stage (some c) = .running)
      (slot : (n'.channel c).slot = some (.answer a)) (stands : n'.stage (some c) = a.stage)
      (log : n'.log c = n.log c ++ [.replied a])
  | accept (p : Party) (a : Answer) (held : (n.channel c).slot = some (.answer a))
      (waits : n.stage p = .waiting c) (slot : (n'.channel c).slot = none)
      (goes : n'.stage p = .answered c a) (log : n'.log c = n.log c ++ [.returned p a])
  | close (empty : (n.channel c).slot = none) (unstarted : (n.channel c).started = false)
      (slot : (n'.channel c).slot = some .close) (log : n'.log c = n.log c)
  | leave (held : (n.channel c).slot = some .close) (slot : (n'.channel c).slot = none)
      (ends : n'.stage (some c) = .ended) (log : n'.log c = n.log c)

namespace Transfer

theorem elsewhere {ch : Channel} {l : List Crossing} (hd : d ≠ c)
    (hch : n'.channel = update n.channel c ch) (hlog : n'.log = update n.log c l) :
    Transfer n n' d :=
  .keep (by rw [hch, Function.update_of_ne hd]) (by rw [hlog, Function.update_of_ne hd])

end Transfer

theorem Inv.transfer (h : n.Inv) (hs : Step n n') (d : ThreadId) : Transfer n n' d := by
  cases hs with
  | claim _ _ => exact .keep (Inv.slot_update (by rfl) d) rfl
  | refuse _ _ => exact .keep rfl rfl
  | mark _ => exact .keep (Inv.slot_marking _ _ d) rfl
  | @send p c vs hp =>
    by_cases hd : d = c
    · subst hd
      obtain ⟨_, channel, _⟩ := (h.channels d).of_claimed (.inr hp)
      refine .send p vs (by rw [channel]) hp ?_ ?_ ?_ <;> dsimp only [logged] <;>
        rw [Function.update_self]
    · exact .elsewhere hd rfl rfl
  | @accept p c a hp _ hs =>
    by_cases hd : d = c
    · subst hd
      refine .accept p a hs hp ?_ ?_ ?_ <;> dsimp only [logged] <;> rw [Function.update_self]
    · exact .elsewhere hd rfl rfl
  | unmark _ => exact .keep (Inv.slot_marking _ _ d) rfl
  | @reply c a hc =>
    by_cases hd : d = c
    · subst hd
      obtain ⟨channel, _⟩ := (h.channels d).of_inBody (by rw [hc]; rfl)
      refine .reply a (by rw [channel]) hc ?_ ?_ ?_ <;> dsimp only [logged] <;>
        rw [Function.update_self]
    · exact .elsewhere hd rfl rfl
  | @receive c first vs hc _ hs =>
    by_cases hd : d = c
    · subst hd
      refine .receive first vs hs hc ?_ ?_ ?_ <;> dsimp only [logged] <;> rw [Function.update_self]
    · exact .elsewhere hd rfl rfl
  | @leave c first hc _ hs =>
    by_cases hd : d = c
    · subst hd
      obtain ⟨_, stage, _⟩ := (h.channels d).of_slot hs
      cases hc.symm.trans stage
      refine .leave hs ?_ ?_ rfl <;> dsimp only <;> rw [Function.update_self]
      rfl
    · exact .keep (by dsimp only; rw [Function.update_of_ne hd]) rfl
  | doze _ _ => exact .keep rfl rfl
  | wake => exact .keep rfl rfl
  | @drop c hu hs =>
    by_cases hd : d = c
    · subst hd
      obtain ⟨_, channel, _⟩ := (h.channels d).of_suspended hs (.inl hu)
      refine .close (by rw [channel]) hu ?_ rfl
      dsimp only
      rw [Function.update_self]
    · exact .keep (by dsimp only; rw [Function.update_of_ne hd]) rfl
  | abandon _ => exact .keep rfl rfl

/-- Whatever a slot holds, the one whom it is for is there and awake, so that it can be taken. -/
theorem Inv.takeable (h : n.Inv) {x : Handoff} (hx : (n.channel c).slot = some x) :
    ∃ n', Step n n' ∧ (n'.channel c).slot = none := by
  have hslot := (h.channels c).of_slot hx
  cases x with
  | resume vs =>
    obtain ⟨rounds, _, _, stage, _⟩ := hslot
    have hawake := h.alert (some c) c _ (by rw [stage]; rfl) hx (by rw [stage]; rfl)
    exact ⟨_, .receive stage hawake hx, by simp⟩
  | answer a =>
    obtain ⟨_, p, _, _, _, resumer, _⟩ := hslot
    have hawake := h.alert p c _ (by rw [resumer]; rfl) hx (by rw [resumer]; rfl)
    exact ⟨_, .accept resumer hawake hx, by simp⟩
  | close =>
    obtain ⟨_, stage, _⟩ := hslot
    have hawake := h.alert (some c) c _ (by rw [stage]; rfl) hx (by rw [stage]; rfl)
    exact ⟨_, .leave stage hawake hx, by simp⟩

end Crew

end LuaMachine.Rendezvous
