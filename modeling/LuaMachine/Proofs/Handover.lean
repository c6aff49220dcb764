import Mathlib.Data.List.Chain
import LuaMachine.Proofs.Alternation
import LuaMachine.Proofs.Coroutine

/-!
# Handing over control in the machine

The machine changes the strand that runs in one step.  Threads do the same in several sections under
locks, with nothing in between, and what crosses the channel of the coroutine is what the machine
passes on.

* `Machine.Hands`            a step of the machine that changes the strand, with what crosses;
* `Machine.Traced`           a run of the machine, with what crosses in it;
* `Crew.run_resume`          a resume up to where the coroutine runs;
* `Crew.run_answer`          an answer up to where the resumer runs;
* `Crew.Follows`             threads that stand where a machine stands;
* `Crew.exists_follows`      threads can follow every run of a machine.
-/

open Function (update)

namespace LuaMachine

/-! ## handing over in one step -/

namespace Machine

open Rendezvous

def entering (m : Machine) (c : ThreadId) (k : Reply → Action Turn) (s : Strand) : Machine :=
  { (m.mark m.current.owner .normal).setCoroutine c ⟨.running, .nothing⟩ with
    current := s
    waiting := m.current.push ⟨false, k⟩ :: m.waiting }

def leaving (m : Machine) (c : ThreadId) (co : Coroutine) (s : Strand) (w : List Strand) :
    Machine :=
  { (m.setCoroutine c co).mark s.owner .running with
    current := s
    waiting := w }

/-- A step that changes the running strand, and what crosses the channel of the coroutine: what the
next action passes on. -/
inductive Hands (m : Machine) :
    Action Turn → Machine → Action Turn → ThreadId → List Crossing → Prop
  | start {c : ThreadId} {f : FunctionId} {vs : List Value} {k : Reply → Action Turn}
      (parked : m.coroutine? c = some ⟨.suspended, .body f⟩) :
      Hands m (.resume c vs k) (m.entering c k (Strand.start (some c)))
        (.run (.function f vs) answer) c [.sent m.current.owner vs, .received true vs]
  | goOn {c : ThreadId} {s : Strand} {vs : List Value} {k : Reply → Action Turn}
      (parked : m.coroutine? c = some ⟨.suspended, .strand s⟩) (owner : s.owner = some c) :
      Hands m (.resume c vs k) (m.entering c k s) (answer (.ok vs)) c
        [.sent m.current.owner vs, .received false vs]
  | yield {c : ThreadId} {vs : List Value} {k : Reply → Action Turn} {s : Strand} {w : List Strand}
      (owner : m.current.owner = some c) (waiting : m.waiting = s :: w) :
      Hands m (.yield vs k)
        (m.leaving c ⟨.suspended, .strand (m.current.push ⟨false, k⟩)⟩ s w) (answer (.ok vs)) c
        [.replied (.yield vs), .returned s.owner (.yield vs)]
  | finish {c : ThreadId} {r : Reply} {s : Strand} {w : List Strand}
      (ended : m.current.frames = []) (owner : m.current.owner = some c)
      (waiting : m.waiting = s :: w) :
      Hands m (answer r) (m.leaving c ⟨.dead, .nothing⟩ s w) (answer (finalReply r)) c
        [.replied (.finish (finalReply r)), .returned s.owner (.finish (finalReply r))]

variable {m m' : Machine} {a a' : Action Turn} {body : Job → Action Turn} {c : ThreadId}

theorem Inv.hands_deliver (h : m.Inv) {r : Reply} (hs : m.deliver r = .next m' a') :
    m'.owners = m.owners ∨ ∃ c l, m.Hands (answer r) m' a' c l := by
  unfold deliver at hs
  split at hs
  · cases hs
    exact .inl rfl
  · rename_i hf
    split at hs
    · cases hs
    · rename_i s w hw
      obtain ⟨c, _, ho, _, _⟩ := h.pending_cons hw
      rw [ho] at hs
      cases hs
      exact .inr ⟨c, _, .finish hf ho hw⟩

theorem Inv.hands_resume (h : m.Inv) {vs : List Value} {k : Reply → Action Turn}
    (hs : m.resume c vs k = .next m' a') :
    m'.owners = m.owners ∨ ∃ c' l, m.Hands (.resume c vs k) m' a' c' l := by
  unfold resume at hs
  dsimp only at hs
  split at hs
  · cases hs
    exact .inl rfl
  · rename_i co hco
    obtain ⟨status, parked⟩ := co
    have hfits := h.fits c _ hco
    split at hs
    · rename_i f hst hpk
      cases hst
      cases hpk
      cases hs
      exact .inr ⟨c, _, .start hco⟩
    · rename_i s hst hpk
      cases hst
      cases hpk
      cases hs
      exact .inr ⟨c, _, .goOn hco hfits.2⟩
    · cases hs
      exact .inl rfl

/-- A step keeps the running strand's owner and all behind it, or hands over. -/
theorem Inv.hands_step (h : m.Inv) (hs : m.step body a = .next m' a') :
    m'.owners = m.owners ∨ ∃ c l, m.Hands a m' a' c l := by
  cases a with
  | done t =>
    cases t with
    | finish vs => exact h.hands_deliver hs
    | again j =>
      cases hs
      exact .inl rfl
  | exit e => exact h.hands_deliver hs
  | run j k =>
    change m.begin body j k = _ at hs
    unfold begin at hs
    split at hs
    · split at hs <;>
      · cases hs
        exact .inl rfl
    · cases hs
      exact .inl rfl
  | resume c vs k => exact h.hands_resume hs
  | yield vs k =>
    change m.suspend vs k = _ at hs
    unfold suspend at hs
    split at hs
    · rename_i c s w ho hw
      cases hs
      exact .inr ⟨c, _, .yield ho hw⟩
    · cases hs
      exact .inl rfl
  | read k =>
    cases hs
    exact .inl rfl
  | write f k =>
    cases hs
    exact .inl rfl
  | spawn f k =>
    cases hs
    exact .inl rfl
  | inspect k =>
    cases hs
    exact .inl rfl

theorem Inv.hands_proceeds {x y : Moment} (h : x.1.Inv) (hs : Proceeds body x y) :
    y.1.owners = x.1.owners ∨ ∃ c l, x.1.Hands x.2 y.1 y.2 c l := by
  cases hs with
  | step hs => exact h.hands_step hs
  | restart hs heap a' =>
    obtain ⟨rfl, hw⟩ := halt_cases hs
    have ho := h.owners
    rw [h.pending_halt hw] at ho
    exact .inl ho.symm

inductive Traced (body : Job → Action Turn) (x : Moment) :
    (ThreadId → List Crossing) → Moment → Prop
  | refl : Traced body x (fun _ => []) x
  | quiet {log : ThreadId → List Crossing} {y z : Moment} (run : Traced body x log y)
      (next : Proceeds body y z) (owners : z.1.owners = y.1.owners) : Traced body x log z
  | hands {log : ThreadId → List Crossing} {y z : Moment} {c : ThreadId} {l : List Crossing}
      (run : Traced body x log y) (next : Proceeds body y z) (hands : y.1.Hands y.2 z.1 z.2 c l) :
      Traced body x (update log c (log c ++ l)) z

theorem Inv.exists_traced {x y : Moment} (h : x.1.Inv) (hr : Run body x y) :
    ∃ log, Traced body x log y := by
  induction hr with
  | refl => exact ⟨_, .refl⟩
  | tail hxy hs ih =>
    obtain ⟨log, ih⟩ := ih
    rcases (h.run hxy).hands_proceeds hs with ho | ⟨c, l, hh⟩
    · exact ⟨_, ih.quiet hs ho⟩
    · exact ⟨_, ih.hands hs hh⟩

end Machine

/-! ## coroutines that are not created yet -/

def Parked.first? : Parked → Option Bool
  | body _ => some true
  | strand _ => some false
  | nothing => none

namespace Machine

variable {m m' : Machine} {c : ThreadId}

/-- A coroutine; one that is not created yet is like one that has not started. -/
def standing (m : Machine) (c : ThreadId) : Coroutine :=
  (m.coroutine? c).getD ⟨.suspended, .body ⟨0⟩⟩

theorem standing_eq {co : Coroutine} (h : m.coroutine? c = some co) : m.standing c = co := by
  unfold standing
  rw [h]
  rfl

/-- While the owners of the strands stay, no coroutine changes but for being created. -/
theorem Inv.standing_of_shift (h : m.Inv) (hs : Shift m m') (ho : m'.owners = m.owners)
    (c : ThreadId) : (m'.standing c).status = (m.standing c).status ∧
      (m'.standing c).parked.first? = (m.standing c).parked.first? := by
  cases hs with
  | stay hc _ =>
    unfold standing
    rw [coroutine?_congr hc]
    exact ⟨rfl, rfl⟩
  | spawn f hc _ =>
    have hget : m'.coroutine? c
        = if c.index = m.coroutines.size then some ⟨.suspended, .body f⟩ else m.coroutine? c := by
      unfold coroutine?
      rw [hc, Array.getElem?_push]
    by_cases hnew : c.index = m.coroutines.size
    · have hnone : m.coroutine? c = none := Array.getElem?_eq_none (Nat.le_of_eq hnew.symm)
      rw [if_pos hnew] at hget
      unfold standing
      rw [hget, hnone]
      exact ⟨rfl, rfl⟩
    · rw [if_neg hnew] at hget
      unfold standing
      rw [hget]
      exact ⟨rfl, rfl⟩
  | enter d _ _ _ _ ho' =>
    have := congrArg List.length (ho'.symm.trans ho)
    simp at this
  | leave d rest _ hp _ _ ho' =>
    have := congrArg List.length (ho'.symm.trans (ho.trans h.owners))
    rw [hp] at this
    simp at this

end Machine

/-! ## handing over in sections -/

namespace Rendezvous.Crew

variable {n n' : Crew} {p : Party} {c d : ThreadId} {vs : List Value} {a : Answer}

/-- A resume up to where the coroutine runs, with nothing in between. -/
theorem run_resume {first : Bool} (hp : n.stage p = .running)
    (hs : (n.channel c).status = .suspended) (hc : n.stage (some c) = .listening first)
    (vs : List Value) :
    ∃ n', Run n n' ∧ n'.stage = update (update n.stage p (.waiting c)) (some c) .running ∧
      (∀ d, (n'.channel d).status = if d = c then .running else if p = some d then .normal
        else (n.channel d).status) ∧
      n'.log = update n.log c (n.log c ++ [.sent p vs, .received first vs]) := by
  have hpc : some c ≠ p := by
    rintro rfl
    rw [hc] at hp
    cases hp
  refine ⟨_, (((Relation.ReflTransGen.single (@Step.claim n p c vs hp hs)).tail
    (.mark (Function.update_self ..))).tail (.send (Function.update_self ..))).tail
    (@Step.receive _ c first vs ?_ ?_ ?_), ?_, fun d => ?_, ?_⟩
  · simp [Function.update_of_ne hpc, hc]
  · simp [roused, Stage.place, Function.update_of_ne hpc, hc]
  · simp
  · simp
  · by_cases hd : d = c
    · subst hd
      simp [marking_apply, Ne.symm hpc]
    · by_cases hpd : p = some d <;> simp [marking_apply, hd, hpd]
  · simp [logged]

/-- An answer up to where the resumer runs, with nothing in between. -/
theorem run_answer (hc : n.stage (some c) = .running) (hp : n.stage p = .waiting c) (a : Answer) :
    ∃ n', Run n n' ∧ n'.stage = update (update n.stage (some c) a.stage) p .running ∧
      (∀ d, (n'.channel d).status = if p = some d then .running else if d = c then a.status
        else (n.channel d).status) ∧
      n'.log = update n.log c (n.log c ++ [.replied a, .returned p a]) := by
  have hpc : p ≠ some c := by
    rintro rfl
    rw [hc] at hp
    cases hp
  refine ⟨_, ((Relation.ReflTransGen.single (@Step.reply n c a hc)).tail
    (@Step.accept _ p c a ?_ ?_ ?_)).tail (.unmark (Function.update_self ..)), ?_, fun d => ?_, ?_⟩
  · simp [Function.update_of_ne hpc, hp]
  · simp [roused, Stage.place, Function.update_of_ne hpc, hp]
  · simp
  · simp
  · by_cases hpd : p = some d
    · simp [marking_apply, hpd]
    · by_cases hd : d = c
      · subst hd
        simp [marking_apply, hpd]
      · simp [marking_apply, hpd, hd]
  · simp [logged]

/-! ## following the machine -/

variable {m m' : Machine} {body : Job → Action Turn} {x y : Action Turn}

/-- Threads that stand where a machine stands: the owner of the running strand runs, the owners of
the strands behind it wait for the one in front, and the others listen or have ended. -/
structure Follows (n : Crew) (m : Machine) : Prop where
  inv : m.Inv
  runs : n.stage m.current.owner = .running
  waits : m.owners.IsChain fun o p => ∃ c, o = some c ∧ n.stage p = .waiting c
  status : ∀ c, (n.channel c).status = (m.standing c).status
  listens : ∀ c first, (m.standing c).parked.first? = some first →
    n.stage (some c) = .listening first

theorem follows_initial (heap : Heap) : initial.Follows (Machine.initial heap) where
  inv := Machine.inv_initial heap
  runs := rfl
  waits := .singleton _
  status := fun _ => rfl
  listens := fun c first hf => by
    cases hf
    rfl

namespace Follows

theorem stay (f : n.Follows m) (hm : m'.Inv) (ho : m'.owners = m.owners)
    (hst : ∀ c, (m'.standing c).status = (m.standing c).status ∧
      (m'.standing c).parked.first? = (m.standing c).parked.first?) : n.Follows m' where
  inv := hm
  runs := by
    rw [(List.cons.inj ho).1]
    exact f.runs
  waits := by
    rw [ho]
    exact f.waits
  status := fun c => by rw [(hst c).1, f.status c]
  listens := fun c first hf => by
    rw [(hst c).2] at hf
    exact f.listens c first hf

theorem enter (f : n.Follows m) {co : Coroutine} (hco : m.coroutine? c = some co)
    (hs : co.status = .suspended) {first : Bool} (hf : co.parked.first? = some first)
    {k : Reply → Action Turn} {s : Strand} (ho : s.owner = some c) (vs : List Value) :
    ∃ n', Run n n' ∧ n'.Follows (m.entering c k s) ∧
      n'.log = update n.log c (n.log c ++ [.sent m.current.owner vs, .received first vs]) := by
  have hstatus : (n.channel c).status = .suspended := by rw [f.status, Machine.standing_eq hco, hs]
  have hlisten : n.stage (some c) = .listening first :=
    f.listens c first (by rwa [Machine.standing_eq hco])
  obtain ⟨n', hr, hstage, hch, hlog⟩ := run_resume f.runs hstatus hlisten vs
  have hpc : m.current.owner ≠ some c := by
    intro e
    have := f.runs
    rw [e, hlisten] at this
    cases this
  have hget : ∀ d, (m.entering c k s).coroutine? d
      = ((m.mark m.current.owner .normal).setCoroutine c ⟨.running, .nothing⟩).coroutine? d :=
    fun _ => rfl
  have howners : (m.entering c k s).owners = some c :: m.owners := by
    show s.owner :: _ = _
    rw [ho]
    rfl
  have hstanding : ∀ d, (m.entering c k s).standing d = if d = c then ⟨.running, .nothing⟩
      else if m.current.owner = some d then ⟨.normal, .nothing⟩ else m.standing d := by
    intro d
    unfold Machine.standing
    rw [hget, Machine.coroutine?_setCoroutine, Machine.coroutine?_mark]
    by_cases hdc : d = c
    · rw [hdc, if_pos rfl, if_pos rfl, if_neg hpc, hco]
      rfl
    · rw [if_neg (Ne.symm hdc), if_neg hdc]
      by_cases hdo : m.current.owner = some d
      · obtain ⟨_, hd⟩ := f.inv.known d (List.mem_of_mem_head? (f.inv.head?_pending.trans hdo))
        rw [if_pos hdo, if_pos hdo, hd]
        rfl
      · rw [if_neg hdo, if_neg hdo]
  have hinv := f.inv.enter hco hs hget howners
  refine ⟨n', hr, ⟨hinv, ?_, ?_, fun d => ?_, fun d first' hd => ?_⟩, hlog⟩
  · show n'.stage s.owner = .running
    rw [ho, hstage, Function.update_self]
  · rw [howners]
    refine List.isChain_cons_cons.mpr ⟨⟨c, rfl, ?_⟩, f.waits.imp ?_⟩
    · rw [hstage, Function.update_of_ne hpc, Function.update_self]
    · -- those behind wait already: they are neither the coroutine nor the one who resumes it
      rintro o q ⟨e, ho, hq⟩
      refine ⟨e, ho, ?_⟩
      have hqc : q ≠ some c := by
        rintro rfl
        rw [hlisten] at hq
        cases hq
      have hqp : q ≠ m.current.owner := by
        rintro rfl
        rw [f.runs] at hq
        cases hq
      rw [hstage, Function.update_of_ne hqc, Function.update_of_ne hqp, hq]
  · rw [hch, hstanding, f.status]
    split
    · rfl
    · split <;> rfl
  · rw [hstanding] at hd
    split at hd
    · cases hd
    · rename_i hdc
      split at hd
      · cases hd
      · rename_i hdo
        rw [hstage, Function.update_of_ne fun e => hdc (Option.some.inj e),
          Function.update_of_ne (Ne.symm hdo)]
        exact f.listens d first' hd

theorem leave (f : n.Follows m) {s : Strand} {w : List Strand} (ho : m.current.owner = some c)
    (hw : m.waiting = s :: w) {co : Coroutine}
    (hco : co = ⟨.dead, .nothing⟩ ∨ ∃ s : Strand, s.owner = some c ∧ co = ⟨.suspended, .strand s⟩)
    (ha : a.status = co.status)
    (hl : ∀ first, co.parked.first? = some first → a.stage = .listening first) :
    ∃ n', Run n n' ∧ n'.Follows (m.leaving c co s w) ∧
      n'.log = update n.log c (n.log c ++ [.replied a, .returned s.owner a]) := by
  obtain ⟨c', rest, ho', hp, hrest⟩ := f.inv.pending_cons hw
  cases ho.symm.trans ho'
  have howners : m.owners = some c :: s.owner :: w.map Strand.owner := by
    show m.current.owner :: m.waiting.map Strand.owner = _
    rw [ho, hw]
    rfl
  have hwaits := f.waits
  rw [howners] at hwaits
  obtain ⟨⟨e, he, hwait⟩, hchain⟩ := List.isChain_cons_cons.mp hwaits
  cases he
  have hrun : n.stage (some c) = .running := ho ▸ f.runs
  obtain ⟨n', hr, hstage, hch, hlog⟩ := run_answer hrun hwait a
  have hget : ∀ d, (m.leaving c co s w).coroutine? d
      = ((m.setCoroutine c co).mark rest.head? .running).coroutine? d := by
    intro d
    rw [Machine.head?_of_map_append hrest]
    rfl
  have hnodup := f.inv.nodup
  rw [hp, List.nodup_cons] at hnodup
  have hstanding : ∀ d, (m.leaving c co s w).standing d
      = if s.owner = some d then ⟨.running, .nothing⟩ else if d = c then co else m.standing d := by
    intro d
    unfold Machine.standing
    rw [hget, Machine.head?_of_map_append hrest, Machine.coroutine?_mark,
      Machine.coroutine?_setCoroutine]
    have known : ∀ e ∈ c :: rest, ∃ co, m.coroutine? e = some co := fun e he =>
      f.inv.known e (by rwa [hp])
    by_cases hdo : s.owner = some d
    · have hd : d ∈ rest := List.mem_of_mem_head? ((Machine.head?_of_map_append hrest).trans hdo)
      have hcd : c ≠ d := fun e => hnodup.1 (e ▸ hd)
      obtain ⟨_, hd⟩ := known d (List.mem_cons_of_mem _ hd)
      rw [if_pos hdo, if_pos hdo, if_neg hcd, hd]
      rfl
    · rw [if_neg hdo, if_neg hdo]
      by_cases hdc : d = c
      · obtain ⟨_, hd⟩ := known c List.mem_cons_self
        rw [hdc, if_pos rfl, if_pos rfl, hd]
        rfl
      · rw [if_neg (Ne.symm hdc), if_neg hdc]
  have hinv := f.inv.leave hp hco hget hrest
  refine ⟨n', hr, ⟨hinv, ?_, ?_, fun d => ?_, fun d first hd => ?_⟩, hlog⟩
  · show n'.stage s.owner = .running
    rw [hstage, Function.update_self]
  · -- whoever waits for another one than the coroutine is not its resumer
    refine hchain.imp_of_mem_imp ?_
    rintro o q hmem - ⟨e, rfl, hq⟩
    refine ⟨e, rfl, ?_⟩
    have hqc : q ≠ some c := by
      rintro rfl
      rw [hrun] at hq
      cases hq
    have hqp : q ≠ s.owner := by
      rintro rfl
      cases hwait.symm.trans hq
      rw [hrest] at hmem
      exact hnodup.1 (by simpa using hmem)
    rw [hstage, Function.update_of_ne hqp, Function.update_of_ne hqc, hq]
  · rw [hch, hstanding, f.status]
    split
    · rfl
    · split
      · exact ha
      · rfl
  · rw [hstanding] at hd
    split at hd
    · cases hd
    · rename_i hdo
      rw [hstage, Function.update_of_ne (Ne.symm hdo)]
      split at hd
      · rename_i hdc
        rw [hdc, Function.update_self]
        exact hl first hd
      · rename_i hdc
        rw [Function.update_of_ne fun e => hdc (Option.some.inj e)]
        exact f.listens d first hd

/-- Threads can do what a machine does when it hands over, and the same crosses the channel. -/
theorem hands (f : n.Follows m) {l : List Crossing} (hh : m.Hands x m' y c l) :
    ∃ n', Run n n' ∧ n'.Follows m' ∧ n'.log = update n.log c (n.log c ++ l) := by
  cases hh with
  | start hco => exact f.enter hco rfl rfl rfl _
  | goOn hco ho => exact f.enter hco rfl rfl ho _
  | @yield _ _ k _ _ ho hw =>
    refine f.leave ho hw (.inr ⟨m.current.push ⟨false, k⟩, ho, rfl⟩) rfl ?_
    rintro first ⟨⟩
    rfl
  | finish _ ho hw => exact f.leave ho hw (.inl rfl) rfl nofun

/-- Threads need not do anything while the machine does not hand over. -/
theorem quiet {x y : Machine.Moment} (f : n.Follows x.1) (hs : Machine.Proceeds body x y)
    (ho : y.1.owners = x.1.owners) : n.Follows y.1 := by
  have hm := f.inv.proceeds hs
  cases hs with
  | step hs => exact f.stay hm ho (f.inv.standing_of_shift (f.inv.shift_step hs) ho)
  | restart hs heap a' =>
    obtain ⟨rfl, _⟩ := Machine.halt_cases hs
    exact f.stay hm ho fun c => ⟨rfl, rfl⟩

end Follows

/-- **Threads can follow every run of a machine**, and what crosses the channels is the same. -/
theorem exists_follows {heap : Heap} {start : Action Turn} {log : ThreadId → List Crossing}
    {y : Machine.Moment} (ht : Machine.Traced body (.initial heap, start) log y) :
    ∃ n, Run initial n ∧ n.Follows y.1 ∧ n.log = log := by
  induction ht with
  | refl => exact ⟨initial, .refl, follows_initial heap, rfl⟩
  | quiet _ hs ho ih =>
    obtain ⟨n, hr, f, hlog⟩ := ih
    exact ⟨n, hr, f.quiet hs ho, hlog⟩
  | hands _ _ hh ih =>
    obtain ⟨n, hr, f, hlog⟩ := ih
    obtain ⟨n', hr', f', hlog'⟩ := f.hands hh
    exact ⟨n', hr.trans hr', f', by rw [hlog', hlog]⟩

/-! ## the handover -/

/-- **Resumes and answers alternate, and nothing is lost or taken twice.**  At every moment of every
run of the threads, whatever the order of their sections and whoever wakes up without a reason, the
following holds.  What has crossed the channel of a coroutine is the beginning of a sequence of
rounds: a party sends arguments, the coroutine receives them, first as those of its body and then as
what its yield gives, it replies, and the reply returns to the party that sent the arguments; all
rounds but the last end with a yield.  A step fills a slot only when it is empty, and what a slot
holds is only taken by the one whom it is for, who can always take it at once.  Control is in one
place, a thread or a slot, so that no two threads act at the same time.  And every run of the
machine has such a run of the threads, in which the same crosses the channels. -/
theorem handovers_alternate {n : Crew} (hr : Run initial n) :
    (∀ c, ∃ rounds, n.log c <+: crossings true rounds ∧
      ∀ r ∈ rounds.dropLast, r.answer.isYield = true) ∧
    (∀ n', Step n n' → ∀ c, Transfer n n' c) ∧
    (∀ c h, (n.channel c).slot = some h → ∃ n', Step n n' ∧ (n'.channel c).slot = none) ∧
    (∃! x, n.Controls x) ∧
    (∀ p q, (n.stage p).acts = true → (n.stage q).acts = true → p = q) ∧
    (∀ (body : Job → Action Turn) (heap : Heap) (start : Action Turn) (y : Machine.Moment),
      Machine.Run body (.initial heap, start) y →
        ∃ log, Machine.Traced body (.initial heap, start) log y) ∧
    (∀ (body : Job → Action Turn) (heap : Heap) (start : Action Turn)
      (log : ThreadId → List Crossing) (y : Machine.Moment),
      Machine.Traced body (.initial heap, start) log y →
        ∃ n, Run initial n ∧ n.Follows y.1 ∧ n.log = log) := by
  have h : n.Inv := inv_initial.run hr
  exact ⟨fun c => (h.channels c).log_alternates, fun _ hs c => h.transfer hs c,
    fun _ _ hx => h.takeable hx, h.control, fun _ _ hp hq => h.only hp hq,
    fun _ heap _ _ hr => (Machine.inv_initial heap).exists_traced hr,
    fun _ _ _ _ _ ht => exists_follows ht⟩

/-- The top level resumes a coroutine, which resumes another one, which yields. -/
theorem handovers_alternate_nested : ∃ n, Run initial n ∧
    n.log ⟨0⟩ = [.sent none [.nil], .received true [.nil]] ∧
    n.log ⟨1⟩ = Round.crossings true ⟨some ⟨0⟩, [], .yield [.boolean true]⟩ ∧
    n.stage (some ⟨0⟩) = .running ∧ ∀ q, (n.stage q).acts = true → q = some ⟨0⟩ := by
  obtain ⟨n₁, hr₁, hst₁, hch₁, hlog₁⟩ :=
    @run_resume initial none ⟨0⟩ true rfl rfl rfl [.nil]
  obtain ⟨n₂, hr₂, hst₂, hch₂, hlog₂⟩ :=
    @run_resume n₁ (some ⟨0⟩) ⟨1⟩ true (by rw [hst₁]; rfl) (by rw [hch₁]; rfl)
      (by rw [hst₁]; rfl) []
  obtain ⟨n₃, hr₃, hst₃, hch₃, hlog₃⟩ :=
    @run_answer n₂ (some ⟨0⟩) ⟨1⟩ (by rw [hst₂]; rfl) (by rw [hst₂]; rfl) (.yield [.boolean true])
  have hr := (hr₁.trans hr₂).trans hr₃
  have hrun : n₃.stage (some ⟨0⟩) = .running := by rw [hst₃]; rfl
  obtain ⟨_, _, _, _, hone, _⟩ := handovers_alternate hr
  exact ⟨n₃, hr, by rw [hlog₃, hlog₂, hlog₁]; rfl, by rw [hlog₃, hlog₂, hlog₁]; rfl, hrun,
    fun q hq => hone q _ hq (by rw [hrun]; rfl)⟩

end Rendezvous.Crew

end LuaMachine
