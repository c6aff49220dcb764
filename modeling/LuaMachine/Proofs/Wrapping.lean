import LuaMachine.Proofs.CallDepth
import LuaMachine.Proofs.Permanence

/-!
# Wrapped coroutines

A coroutine can be resumed by the library function `resume`, or through the function that `wrap`
makes for it.  Under a protected call the second way gives what the first one gives, call by call:
the values that the coroutine yields or returns after true, or the value of its failure after
false.

* `Replies`    a call has its reply;
* `Calls`      calls that are made one after the other;
* `Exchange`   what a new coroutine gives for a sequence of argument lists;
* `Ready`      what is kept from one call to the next.

Both ways come to the same resume, made from different frames, and what a resume gives does not
depend on these (`returns_iff_resumed`).
-/

namespace LuaMachine.Machine

variable {body : Job → Action Turn} {m m' m'' : Machine} {a a' : Action Turn} {c : ThreadId}
  {p q w f : FunctionId} {vs : List Value} {k : Reply → Action Turn} {z : Moment}

/-! ## calls -/

/-- A call has its reply, whatever its caller does with it; the machine that it leaves. -/
def Replies (body : Job → Action Turn) (m : Machine) (j : Job) (r : Reply) (m' : Machine) : Prop :=
  ∀ k, ∃ y, Proceeds body (m, .run j k) y ∧
    Returns body m.current.owner m.current.frames.length y (m', k r)

/-- Calls that are made one after the other, each with its arguments and its results. -/
inductive Calls (body : Job → Action Turn) (job : List Value → Job) :
    Machine → List (List Value) → List (List Value) → Machine → Prop
  | nil {m : Machine} : Calls body job m [] [] m
  | cons {m m' m'' : Machine} {vs us : List Value} {lists results : List (List Value)} :
      Replies body m (job vs) (.ok us) m' → Calls body job m' lists results m'' →
      Calls body job m (vs :: lists) (us :: results) m''

/-- Resume a coroutine by a library function. -/
def resuming (q : FunctionId) (c : ThreadId) (vs : List Value) : Job :=
  .function q (.thread c :: vs)

/-- Call a function under a library function that protects the call. -/
def protecting (p w : FunctionId) (vs : List Value) : Job :=
  .function p (.function w :: vs)

/-- The values that stand for what a coroutine gives: values after true, or the value of a failure
after false. -/
def reported : Except Failure (List Value) → List Value
  | .ok us => .boolean true :: us
  | .error e => [.boolean false, e.value]

theorem caught_replied (r : Except Failure (List Value)) :
    caught (replied r) = answer (.ok (reported r)) := by
  cases r <;> rfl

theorem callReply_replied (r : Except Failure (List Value)) :
    callReply (replied r) = replied r := by
  cases r <;> rfl

theorem Inv.returns_reported (h : m'.Inv) (hm : m'.current = m.current)
    {r : Except Failure (List Value)} : Returns body m.current.owner m.current.frames.length
      ({ m' with current := m.current.push ⟨true, k⟩ }, caught (replied r)) z
      ↔ z = (m', k (.ok (reported r))) := by
  have hpush : Inv { m' with current := m.current.push ⟨true, k⟩ } :=
    h.with_current (by rw [hm]; rfl)
  rw [caught_replied, hpush.returns_iff_push rfl rfl (Nat.le_refl _), ← hm]
  constructor
  · exact h.returns_same rfl
  · rintro rfl
    exact .back (Nat.le_of_eq (by rw [h.strandOf_current]))

theorem step_call (hroom : m.current.depth < Strand.maxDepth) :
    m.step body (.run (.function f vs) k)
      = .next { m with current := m.current.push ⟨true, k⟩ } (body (.function f vs)) :=
  if_neg (Nat.not_le_of_lt hroom)

theorem Inv.returns_iff_body (h : m.Inv) (hroom : m.current.depth < Strand.maxDepth)
    {a : Action Turn} (ha : ((m.heap.function f).body f vs).asTurn = a) :
    (∃ y, Proceeds Job.body (m, .run (.function f vs) k) y ∧
      Returns Job.body m.current.owner m.current.frames.length y z) ↔
    Returns Job.body m.current.owner m.current.frames.length
      ({ m with current := m.current.push ⟨true, k⟩ }, a) z := by
  have hpush : Inv { m with current := m.current.push ⟨true, k⟩ } := h.with_current rfl
  have hs : ({ m with current := m.current.push ⟨true, k⟩ } : Machine).step Job.body
      (Job.body (.function f vs)) = .next { m with current := m.current.push ⟨true, k⟩ } a :=
    congrArg (Progress.next _) ha
  have ho : (m.current.push ⟨true, k⟩).owner = m.current.owner := rfl
  rw [← hpush.returns_iff_step ho (Nat.lt_succ_self _) hs]
  constructor
  · rintro ⟨y, hy, hz⟩
    cases hy.eq_of_next (step_call hroom)
    exact hz
  · exact fun hz => ⟨_, .step (step_call hroom), hz⟩

theorem asTurn_resumeThread (c : ThreadId) (vs : List Value) :
    (Action.resumeThread c vs).asTurn = .resume c vs answer := by
  show Action.resume c vs _ = _
  congr 1
  funext r
  cases r <;> rfl

theorem Inv.returns_iff_resume (h : m.Inv)
    (hroot : m.current.owner ≠ some c → Rooted c (m, .resume c vs answer))
    (hq : m.heap.function q = .builtin .resume) (hroom : m.current.depth < Strand.maxDepth) :
    (∃ y, Proceeds Job.body (m, .run (resuming q c vs) k) y ∧
      Returns Job.body m.current.owner m.current.frames.length y z) ↔
    ∃ r m', Resumed Job.body c m vs r m' ∧ z = (m', k (.ok (reported r))) := by
  have ha : ((m.heap.function q).body q (.thread c :: vs)).asTurn = .resume c vs caught := by
    rw [hq]
    rfl
  have hS : (m.current.push ⟨true, k⟩).owner = m.current.owner := rfl
  unfold resuming
  rw [h.returns_iff_body hroom ha, h.returns_iff_resumed hroot hS (Nat.lt_succ_self _)]
  refine exists_congr fun r => exists_congr fun m' => and_congr_right fun hr => ?_
  exact (h.run (hr.run h)).returns_reported hr.current

theorem Inv.returns_iff_wrapper (h : m.Inv)
    (hroot : m.current.owner ≠ some c → Rooted c (m, .resume c vs answer))
    (hp : m.heap.function p = .builtin .pcall) (hw : m.heap.function w = .wrapper c)
    (hroom : m.current.depth + 1 < Strand.maxDepth) :
    (∃ y, Proceeds Job.body (m, .run (protecting p w vs) k) y ∧
      Returns Job.body m.current.owner m.current.frames.length y z) ↔
    ∃ r m', Resumed Job.body c m vs r m' ∧ z = (m', k (.ok (reported r))) := by
  have hcall : ((m.heap.function p).body p (.function w :: vs)).asTurn
      = (Library.Base.pcall (.function w :: vs)).asTurn := by
    rw [hp]
    rfl
  have hbody : ((m.heap.function w).body w vs).asTurn = .resume c vs answer := by
    rw [hw]
    exact asTurn_resumeThread c vs
  -- the frame of the protected call, and above it that of the call of the function
  obtain ⟨S, eS⟩ : ∃ S, S = m.current.push ⟨true, k⟩ := ⟨_, rfl⟩
  have oS : S.owner = m.current.owner := by rw [eS]; rfl
  have oT : (S.push ⟨true, caught⟩).owner = m.current.owner := oS
  have hS : Inv { m with current := S } := h.with_current oS
  have hT : Inv { m with current := S.push ⟨true, caught⟩ } := h.with_current oT
  have hlt : m.current.frames.length < S.frames.length := by rw [eS]; exact Nat.lt_succ_self _
  have hroom' : S.depth < Strand.maxDepth := by rw [eS]; exact hroom
  have hs : ({ m with current := S.push ⟨true, caught⟩ } : Machine).step Job.body
      (Job.body (.function w vs)) = .next _ (.resume c vs answer) :=
    congrArg (Progress.next _) hbody
  unfold protecting
  rw [h.returns_iff_body (Nat.lt_of_succ_lt hroom) hcall, ← eS,
    hS.returns_iff_step oS hlt (step_pcall rfl), hS.returns_iff_step oS hlt (step_call hroom'),
    hT.returns_iff_step oT (Nat.lt_succ_of_lt hlt) hs,
    h.returns_iff_resumed hroot oT (Nat.lt_succ_of_lt hlt)]
  refine exists_congr fun r => exists_congr fun m' => and_congr_right fun hr => ?_
  have hm' : m'.Inv := h.run (hr.run h)
  have hT' : Inv { m' with current := S.push ⟨true, caught⟩ } :=
    hm'.with_current (oT.trans (congrArg Strand.owner hr.current.symm))
  rw [hT'.returns_iff_push rfl oS (Nat.le_of_lt hlt)]
  show Returns _ _ _ (_, caught (callReply (replied r))) z ↔ _
  rw [callReply_replied, eS]
  exact hm'.returns_reported hr.current

theorem replies_iff {j : Job}
    (hj : ∀ k z, (∃ y, Proceeds body (m, .run j k) y ∧
        Returns body m.current.owner m.current.frames.length y z) ↔
      ∃ r m', Resumed body c m vs r m' ∧ z = (m', k (.ok (reported r))))
    (r' : Reply) (m' : Machine) :
    Replies body m j r' m' ↔ ∃ r, Resumed body c m vs r m' ∧ r' = .ok (reported r) := by
  constructor
  · intro hr
    obtain ⟨r, n, hn, e⟩ := (hj answer _).mp (hr answer)
    obtain ⟨rfl, e'⟩ := Prod.mk.inj e
    exact ⟨r, hn, answer_injective e'⟩
  · rintro ⟨r, hr, rfl⟩ k
    exact (hj k _).mpr ⟨r, m', hr, rfl⟩

/-! ## sequences of calls -/

/-- A machine in which calls can be made that resume a coroutine: it has the functions of a heap. -/
structure Ready (base : Heap) (c : ThreadId) (m : Machine) : Prop where
  inv : m.Inv
  rooted : m.current.owner ≠ some c → ∀ a, Rooted c (m, a)
  steadfast : ∀ a : Action Turn, a.Steady → Steadfast (m, a)
  retains : base.Retains m.heap
  room : m.current.depth + 1 < Strand.maxDepth

theorem ready_of_run {heap : Heap} {start : Action Turn}
    (hr : Run Job.body (initial heap, start) (m, a)) (hroom : m.current.depth + 1 < Strand.maxDepth)
    (c : ThreadId) : Ready m.heap c m where
  inv := (inv_initial heap).run hr
  rooted := fun ho => ((rooted_initial heap start c).run (inv_initial heap) hr).with_action ho
  steadfast := fun _ => ((steadfast_initial heap start).run (inv_initial heap) hr).with_action
  retains := .refl _
  room := hroom

variable {base : Heap}

theorem Ready.run (hm : Ready base c m) (ha : a.Steady) (hr : Run Job.body (m, a) (m', a'))
    (hcur : m'.current = m.current) (hkeep : m.heap.Retains m'.heap) : Ready base c m' where
  inv := hm.inv.run hr
  rooted := fun ho => ((hm.rooted (hcur ▸ ho) a).run hm.inv hr).with_action ho
  steadfast := fun _ => ((hm.steadfast a ha).run hm.inv hr).with_action
  retains := hm.retains.trans hkeep
  room := hcur ▸ hm.room

theorem Ready.resumed (hm : Ready base c m) {r : Except Failure (List Value)}
    (hr : Resumed Job.body c m vs r m') : Ready base c m' := by
  have ha : (Action.resume c vs answer).Steady := fun _ => steady_answer
  exact hm.run ha (hr.run hm.inv) hr.current (hr.retains hm.inv (hm.steadfast _ ha))

theorem Ready.replies_resume (hm : Ready base c m) (hq : base.function q = .builtin .resume)
    (vs : List Value) (r' : Reply) (m' : Machine) :
    Replies Job.body m (resuming q c vs) r' m' ↔
      ∃ r, Resumed Job.body c m vs r m' ∧ r' = .ok (reported r) := by
  refine replies_iff (fun k z => hm.inv.returns_iff_resume (fun ho => hm.rooted ho _) ?_ ?_) r' m'
  · exact hm.retains.function hq trivial nofun
  · exact Nat.lt_of_succ_lt hm.room

theorem Ready.replies_wrapper (hm : Ready base c m) (hp : base.function p = .builtin .pcall)
    (hw : base.function w = .wrapper c) (vs : List Value) (r' : Reply) (m' : Machine) :
    Replies Job.body m (protecting p w vs) r' m' ↔
      ∃ r, Resumed Job.body c m vs r m' ∧ r' = .ok (reported r) := by
  refine replies_iff
    (fun k z => hm.inv.returns_iff_wrapper (fun ho => hm.rooted ho _) ?_ ?_ ?_) r' m'
  · exact hm.retains.function hp trivial nofun
  · exact hm.retains.function hw trivial nofun
  · exact hm.room

inductive Answers (body : Job → Action Turn) (c : ThreadId) :
    Machine → List (List Value) → List (List Value) → Machine → Prop
  | nil {m : Machine} : Answers body c m [] [] m
  | cons {m m' m'' : Machine} {vs : List Value} {r : Except Failure (List Value)}
      {lists results : List (List Value)} : Resumed body c m vs r m' →
      Answers body c m' lists results m'' →
      Answers body c m (vs :: lists) (reported r :: results) m''

theorem Ready.calls_iff (hm : Ready base c m) {job : List Value → Job}
    (hjob : ∀ {m}, Ready base c m → ∀ vs r' m', Replies Job.body m (job vs) r' m' ↔
      ∃ r, Resumed Job.body c m vs r m' ∧ r' = .ok (reported r))
    (lists results : List (List Value)) :
    Calls Job.body job m lists results m' ↔ Answers Job.body c m lists results m' := by
  constructor
  · intro h
    induction h with
    | nil => exact .nil
    | cons hr _ ih =>
      obtain ⟨r, hr', e⟩ := (hjob hm _ _ _).mp hr
      cases e
      exact .cons hr' (ih (hm.resumed hr'))
  · intro h
    induction h with
    | nil => exact .nil
    | cons hr _ ih => exact .cons ((hjob hm _ _ _).mpr ⟨_, hr, rfl⟩) (ih (hm.resumed hr))

theorem Ready.answers_unique (hm : Ready base c m) {lists results results' : List (List Value)}
    (h : Answers Job.body c m lists results m') (h' : Answers Job.body c m lists results' m'') :
    results = results' ∧ m' = m'' := by
  induction h generalizing results' with
  | nil =>
    cases h'
    exact ⟨rfl, rfl⟩
  | cons hr _ ih =>
    cases h' with
    | cons hr' hrest' =>
      obtain ⟨rfl, rfl⟩ := hr.unique hm.inv hr'
      obtain ⟨rfl, rfl⟩ := ih (hm.resumed hr) hrest'
      exact ⟨rfl, rfl⟩

/-- An exchange with a coroutine that nobody else resumes: a list of values goes in, and a list of
values comes out.  The coroutine goes on until it leaves.  Once it is dead, it refuses. -/
inductive Exchange (body : Job → Action Turn) (c : ThreadId) :
    Machine → List (List Value) → List (List Value) → Machine → Prop
  | nil {m : Machine} : Exchange body c m [] [] m
  | goes {m m' : Machine} {x y : Moment} {vs : List Value} {r : Except Failure (List Value)}
      {st : Status} {lists results : List (List Value)} (suspended : m.roster.status c = .suspended)
      (run : RunWithout body m.current.owner (m.entered c answer, m.entry c vs) x)
      (leaves : Leaves c x r st) (back : Proceeds body x y)
      (owner : y.1.current.owner = m.current.owner)
      (rest : Exchange body c { y.1 with current := m.current } lists results m') :
      Exchange body c m (vs :: lists) (reported r :: results) m'
  | refuses {m m' : Machine} {vs : List Value} {lists results : List (List Value)}
      (dead : m.roster.status c = .dead) (rest : Exchange body c m lists results m') :
      Exchange body c m (vs :: lists)
        ([.boolean false, .text "cannot resume dead coroutine"] :: results) m'

theorem Resumed.of_dead (hdead : m.roster.status c = .dead) (vs : List Value) :
    Resumed body c m vs (.error (.coroutine (.notSuspended .dead))) m := by
  rw [← hdead]
  exact .refused (by rw [hdead]; exact nofun)

theorem Inv.answers_iff (h : m.Inv)
    (hst : m.roster.status c = .suspended ∨ m.roster.status c = .dead)
    (lists results : List (List Value)) :
    Answers body c m lists results m' ↔ Exchange body c m lists results m' := by
  constructor
  · intro ha
    induction ha with
    | nil => exact .nil
    | cons hr _ ih =>
      have h' := h.run (hr.run h)
      rcases hst with hst | hst
      · have hst' := hr.status h hst
        cases hr with
        | refused href => exact absurd hst href
        | left _ hrun hl hback ho => exact .goes hst hrun hl hback ho (ih h' hst')
      · cases hr with
        | refused _ =>
          rw [hst]
          exact .refuses hst (ih h (.inr hst))
        | left hst' => cases hst.symm.trans hst'
  · intro he
    induction he with
    | nil => exact .nil
    | goes hst' hrun hl hback ho _ ih =>
      have hr := Resumed.left hst' hrun hl hback ho
      exact .cons hr (ih (h.run (hr.run h)) (hr.status h hst'))
    | refuses hdead _ ih => exact .cons (.of_dead hdead _) (ih h hst)

/-! ## new coroutines -/

def created (m : Machine) (f : FunctionId) : Machine :=
  { m with coroutines := m.coroutines.push ⟨.suspended, .body f⟩ }

def nextThread (m : Machine) : ThreadId := ⟨m.coroutines.size⟩

/-- The machine with a new coroutine and the function that resumes it. -/
def wrapped (m : Machine) (f : FunctionId) : Machine :=
  { m.created f with heap := m.heap.addFunction (.wrapper m.nextThread) }

theorem run_create (m : Machine) (f : FunctionId) (k : ThreadId → Action Turn) :
    Run body (m, (Action.create f).bind k) (m.created f, k m.nextThread) := .single (.step rfl)

theorem run_wrapped (m : Machine) (f : FunctionId) (k : Value → Action Turn) :
    Run body (m, (Library.Coroutines.wrapped f).bind k)
      (m.wrapped f, k (.function m.heap.nextFunctionId)) :=
  .head (.step rfl) (.head (.step rfl) (.single (.step rfl)))

theorem coroutine?_created (m : Machine) (f : FunctionId) :
    (m.created f).coroutine? m.nextThread = some ⟨.suspended, .body f⟩ := Array.getElem?_push_size

theorem status_created (m : Machine) (f : FunctionId) :
    (m.created f).roster.status m.nextThread = .suspended := by
  rw [status_of_coroutine? (m.coroutine?_created f)]

theorem entry_created (m : Machine) (f : FunctionId) (vs : List Value) :
    (m.created f).entry m.nextThread vs = .run (.function f vs) answer := by
  unfold entry
  rw [coroutine?_created]
  rfl

theorem Ready.created (hm : Ready base c m) (f : FunctionId) : Ready base c (m.created f) := by
  have ha : ((Action.create f).bind fun _ => answer (.ok [])).Steady :=
    (Action.steady_create f).bind fun _ => steady_answer _
  exact hm.run ha (m.run_create f _) rfl (.refl _)

theorem Ready.wrapped (hm : Ready base c m) (f : FunctionId) :
    Ready (m.wrapped f).heap c (m.wrapped f) := by
  have ha : ((Library.Coroutines.wrapped f).bind fun _ => answer (.ok [])).Steady :=
    (Library.Coroutines.steady_wrapped f).bind fun _ => steady_answer _
  have hm' := hm.run ha (m.run_wrapped f _) rfl (m.heap.retains_addFunction _)
  exact { hm' with retains := .refl _ }

/-- **The function behind a coroutine agrees with its resumes.**  At every moment of every program
at which two more calls may be opened, and whatever the coroutine is doing, calls of the function
under protection return if resumes of the coroutine with the same arguments do; they give the same
results, call by call, and leave the same machine.

For a new coroutine they are the exchange with it: each time it goes on until it yields, returns,
fails or is aborted, and once it has ended each further call gives false and that it is dead.

To wrap a function is to create its coroutine in a heap with one function more.  So the exchange after
`create` and the one after `wrap` begin with the same call, on machines that differ in that function
only: all others are there in both, and the next one to be made has a number that is one higher after
`wrap`. -/
theorem wrapper_agrees_with_resume {heap : Heap} {start : Action Turn}
    (hr : Run Job.body (initial heap, start) (m, a))
    (hp : m.heap.function p = .builtin .pcall) (hq : m.heap.function q = .builtin .resume)
    (hroom : m.current.depth + 1 < Strand.maxDepth) :
    (∀ w c lists, m.heap.function w = .wrapper c →
      (∀ results m', Calls Job.body (protecting p w) m lists results m' ↔
        Calls Job.body (resuming q c) m lists results m') ∧
      ∀ results results' m' m'', Calls Job.body (protecting p w) m lists results m' →
        Calls Job.body (resuming q c) m lists results' m'' → results = results' ∧ m' = m'') ∧
    ∀ f,
      (∀ k, Run Job.body (m, (Action.create f).bind k) (m.created f, k m.nextThread)) ∧
      (∀ k, Run Job.body (m, (Library.Coroutines.wrapped f).bind k)
        (m.wrapped f, k (.function m.heap.nextFunctionId))) ∧
      m.wrapped f = created { m with heap := m.heap.addFunction (.wrapper m.nextThread) } f ∧
      (m.created f).heap.Retains (m.wrapped f).heap ∧
      (m.wrapped f).heap.nextFunctionId.index = (m.created f).heap.nextFunctionId.index + 1 ∧
      (∀ vs, (m.created f).entry m.nextThread vs = .run (.function f vs) answer ∧
        (m.wrapped f).entry m.nextThread vs = .run (.function f vs) answer) ∧
      ∀ lists results m',
        (Calls Job.body (resuming q m.nextThread) (m.created f) lists results m' ↔
          Exchange Job.body m.nextThread (m.created f) lists results m') ∧
        (Calls Job.body (resuming q m.nextThread) (m.wrapped f) lists results m' ↔
          Exchange Job.body m.nextThread (m.wrapped f) lists results m') ∧
        (Calls Job.body (protecting p m.heap.nextFunctionId) (m.wrapped f) lists results m' ↔
          Exchange Job.body m.nextThread (m.wrapped f) lists results m') := by
  have hm : ∀ c, Ready m.heap c m := ready_of_run hr hroom
  constructor
  · intro w c lists hw
    have hcalls : ∀ results m', Calls Job.body (protecting p w) m lists results m' ↔ _ :=
      fun results m' => (hm c).calls_iff (fun h => h.replies_wrapper hp hw) lists results
    have hresumes : ∀ results m', Calls Job.body (resuming q c) m lists results m' ↔ _ :=
      fun results m' => (hm c).calls_iff (fun h => h.replies_resume hq) lists results
    refine ⟨fun results m' => (hcalls _ _).trans (hresumes _ _).symm, ?_⟩
    intro results results' m' m'' h h'
    exact (hm c).answers_unique ((hcalls _ _).mp h) ((hresumes _ _).mp h')
  · intro f
    have hc := (hm m.nextThread).created f
    have hw := (hm m.nextThread).wrapped f
    have hkeep : m.heap.Retains (m.wrapped f).heap := m.heap.retains_addFunction _
    have hp' := hkeep.function hp trivial nofun
    have hq' := hkeep.function hq trivial nofun
    have hnew : (m.wrapped f).heap.function m.heap.nextFunctionId = .wrapper m.nextThread :=
      Heap.function_of_getElem? Array.getElem?_push_size
    have hst : (m.created f).roster.status m.nextThread = .suspended ∨
        (m.created f).roster.status m.nextThread = .dead := .inl (m.status_created f)
    have hentry : ∀ vs, (m.created f).entry m.nextThread vs = _ := m.entry_created f
    refine ⟨m.run_create f, m.run_wrapped f, rfl, hkeep, Array.size_push _,
      fun vs => ⟨hentry vs, hentry vs⟩, fun lists results m' => ⟨?_, ?_, ?_⟩⟩
    · rw [hc.calls_iff (fun h => h.replies_resume hq), hc.inv.answers_iff hst]
    · rw [hw.calls_iff (fun h => h.replies_resume hq'), hw.inv.answers_iff hst]
    · rw [hw.calls_iff (fun h => h.replies_wrapper hp' hnew), hw.inv.answers_iff hst]

/-! ## a coroutine that yields once -/

/-- A heap with three library functions, the last of which yields its arguments. -/
def yieldingHeap : Heap :=
  { tables := #[], functions := #[.builtin .pcall, .builtin .resume, .builtin .yield], shared := [],
    locals := #[], log := [] }

def yielder : Machine := initial yieldingHeap

/-- The coroutine yields what it is given first, returns what it is given then, and is dead. -/
theorem exchange_yielder : ∃ m', Exchange Job.body ⟨0⟩ (yielder.wrapped ⟨2⟩)
    [[.integer 1], [.integer 2], [.integer 3]]
    [[.boolean true, .integer 1], [.boolean true, .integer 2],
      [.boolean false, .text "cannot resume dead coroutine"]] m' :=
  ⟨_, .goes (r := .ok [.integer 1]) (yielder.status_created ⟨2⟩)
    (.head ⟨.step rfl, by nofun⟩ (.single ⟨.step rfl, by nofun⟩)) (.yields rfl) (.step rfl) rfl
    (.goes (r := .ok [.integer 2]) (status_of_coroutine? rfl)
      (.head ⟨.step rfl, by nofun⟩ (.single ⟨.step rfl, by nofun⟩)) (.returns rfl rfl) (.step rfl)
      rfl (.refuses (status_of_coroutine? rfl) .nil))⟩

/-- So do the calls of its function under protection. -/
theorem wrapper_agrees_with_resume_yielder : ∃ m',
    Calls Job.body (protecting ⟨0⟩ ⟨3⟩) (yielder.wrapped ⟨2⟩)
      [[.integer 1], [.integer 2], [.integer 3]]
      [[.boolean true, .integer 1], [.boolean true, .integer 2],
        [.boolean false, .text "cannot resume dead coroutine"]] m' := by
  obtain ⟨m', he⟩ := exchange_yielder
  have hr : Run Job.body (initial yieldingHeap, answer (.ok [])) (yielder, answer (.ok [])) := .refl
  obtain ⟨_, hnew⟩ := wrapper_agrees_with_resume (p := ⟨0⟩) (q := ⟨1⟩) hr rfl rfl (by decide)
  obtain ⟨_, _, _, _, _, _, hcalls⟩ := hnew ⟨2⟩
  exact ⟨m', (hcalls _ _ m').2.2.mpr he⟩

end LuaMachine.Machine
