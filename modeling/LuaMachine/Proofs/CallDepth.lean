import LuaMachine.Library.Base
import LuaMachine.Proofs.Strands

/-!
# Call depth

The depth of a thread of control is the number of its open calls, at every moment of every program.
A call that returns, with values or with a failure, leaves its thread as deep as it was; so does a
protected call that catches a failure, and a resume that catches what goes wrong in a coroutine.

* `caught`               what a protected call makes of a reply;
* `step_run_function`    a call begins, or fails because too many are open.

Other threads are as deep as before if they have not run meanwhile.  A coroutine that was resumed
during the call may have yielded inside a call of its own, which is then still open.
-/

namespace LuaMachine.Machine

variable {body : Job → Action Turn} {m : Machine} {c : ThreadId}

/-- What a protected call makes of a reply. -/
def caught (r : Reply) : Action Turn := (Action.ofReply r).guarded.asTurn

theorem step_pcall {v : Value} {vs ws : List Value} {f : FunctionId}
    (h : m.heap.callee v vs = .function f ws) :
    m.step body (Library.Base.pcall (v :: vs)).asTurn = .next m (.run (.function f ws) caught) := by
  refine (show _ = Progress.next m _ from rfl).trans ?_
  simp only [Action.bind, List.drop_succ_cons, List.drop_zero, h]
  rfl

/-- What is left of a call: values after true, a failure's value after false, or an abort, which is
not caught. -/
theorem caught_callReply (r : Reply) :
    (∃ us, caught (callReply r) = .done (.finish (.boolean true :: us))) ∨
    (∃ e : Failure, caught (callReply r) = .done (.finish [.boolean false, e.value])) ∨
    ∃ text, caught (callReply r) = .exit (.crashed text) := by
  cases r with
  | ok us => exact .inl ⟨us, rfl⟩
  | error e =>
    cases e with
    | failed e => exact .inr (.inl ⟨e, rfl⟩)
    | left us => exact .inl ⟨us, rfl⟩
    | crashed text => exact .inr (.inr ⟨text, rfl⟩)

theorem step_run_function (hc : m.current.Counts) (f : FunctionId) (vs : List Value)
    (k : Reply → Action Turn) :
    m.step body (.run (.function f vs) k)
      = if m.current.opened = Strand.maxDepth then .next m (k (.error (.failed .stackOverflow)))
        else .next { m with current := m.current.push ⟨true, k⟩ } (body (.function f vs)) := by
  obtain ⟨hd, hle⟩ := hc
  show (if Strand.maxDepth ≤ m.current.depth then _ else _) = _
  rw [hd]
  by_cases hfull : m.current.opened = Strand.maxDepth
  · rw [if_pos hfull, if_pos (Nat.le_of_eq hfull.symm)]
  · rw [if_neg hfull, if_neg (fun hge => hfull (Nat.le_antisymm hle hge))]

theorem Inv.step_resume_body (h : m.Inv) {f : FunctionId}
    (hco : m.coroutine? c = some ⟨.suspended, .body f⟩) (vs : List Value)
    (k : Reply → Action Turn) :
    ∃ m', m.step body (.resume c vs k) = .next m' (.run (.function f vs) answer) ∧
      m'.current = Strand.start (some c) := by
  have hst : m.roster.status c = .suspended := by
    rw [status_roster, hco]
    rfl
  refine ⟨m.entered c k, ?_, ?_⟩
  · show m.resume c vs k = _
    rw [h.resume_suspended hst]
    unfold entry
    rw [hco]
    rfl
  · show m.resting c = _
    unfold resting
    rw [hco]
    rfl

/-- **The depth of a thread is the number of its open calls.**  At every moment of every program
this holds of every thread of control, and there are no more than the limit; the body of a
coroutine begins with none.  A call fails with an overflow, without running its function, exactly
if as many calls are open on its thread as the limit allows.  A call that returns, with whatever
reply, and a resume that returns, whatever the coroutine has done, leave the thread that began it
as it was; a protected call catches a failure there.  A thread that does not run stays as it
is. -/
theorem depth_counts_open_calls {heap : Heap} {start : Action Turn} {a : Action Turn}
    (hr : Run body (initial heap, start) (m, a)) :
    (∀ o, (m.strandOf o).owner = o ∧ (m.strandOf o).depth = (m.strandOf o).opened ∧
      (m.strandOf o).depth ≤ Strand.maxDepth) ∧
    m.strandOf m.current.owner = m.current ∧
    (∀ c f vs k, m.coroutine? c = some ⟨.suspended, .body f⟩ →
      ∃ m', m.step body (.resume c vs k) = .next m' (.run (.function f vs) answer) ∧
        m'.current = Strand.start (some c)) ∧
    (∀ f vs k, m.step body (.run (.function f vs) k)
      = if m.current.opened = Strand.maxDepth then .next m (k (.error (.failed .stackOverflow)))
        else .next { m with current := m.current.push ⟨true, k⟩ } (body (.function f vs))) ∧
    (∀ f vs k y z, Proceeds body (m, .run (.function f vs) k) y →
      Returns body m.current.owner m.current.frames.length y z →
      z.1.current = m.current ∧ ∃ r, z.2 = k (callReply r)) ∧
    (∀ c vs k y z, Proceeds body (m, .resume c vs k) y →
      Returns body m.current.owner m.current.frames.length y z →
      z.1.current = m.current ∧ ∃ r, z.2 = k r) ∧
    (∀ v vs f ws, m.heap.callee v vs = .function f ws →
      m.step body (Library.Base.pcall (v :: vs)).asTurn = .next m (.run (.function f ws) caught) ∧
      ∀ y z, Proceeds body (m, .run (.function f ws) caught) y →
        Returns body m.current.owner m.current.frames.length y z →
        z.1.current = m.current ∧
          ((∃ us, z.2 = .done (.finish (.boolean true :: us))) ∨
            (∃ e : Failure, z.2 = .done (.finish [.boolean false, e.value])) ∨
            ∃ text, z.2 = .exit (.crashed text))) ∧
    ∀ o z, RunWithout body o (m, a) z → z.1.strandOf o = m.strandOf o := by
  have h : m.Inv := (inv_initial heap).run hr
  have hc : ∀ o, (m.strandOf o).Counts := (inv_initial heap).counts_run (counts_initial heap) hr
  have hcur := hc m.current.owner
  rw [h.strandOf_current] at hcur
  refine ⟨fun o => ⟨h.owner_strandOf o, (hc o).1, ?_⟩, h.strandOf_current, ?_, ?_, ?_, ?_, ?_, ?_⟩
  · rw [(hc o).1]
    exact (hc o).2
  · intro c f vs k hco
    exact h.step_resume_body hco vs k
  · exact step_run_function hcur
  · intro f vs k y z hs hz
    exact h.returns_call hc hs hz
  · intro c vs k y z hs hz
    exact h.returns_resume hc hs hz
  · intro v vs f ws hcallee
    refine ⟨step_pcall hcallee, fun y z hs hz => ?_⟩
    obtain ⟨hback, r, hz⟩ := h.returns_call hc hs hz
    rw [hz]
    exact ⟨hback, caught_callReply r⟩
  · intro o z hz
    exact h.strandOf_runWithout hz

/-! ## a coroutine that is left inside a call -/

def lendingBody : Job → Action Turn
  | .function ⟨0⟩ _ => .resume ⟨0⟩ [] answer
  | _ => .yield [] answer

def lending : Action Turn := .spawn ⟨1⟩ fun _ => .run (.function ⟨0⟩ []) answer

def lender : Machine := { initial Heap.initial with coroutines := #[⟨.suspended, .body ⟨1⟩⟩] }

theorem run_lending : Run lendingBody (initial Heap.initial, lending)
    (lender, .run (.function ⟨0⟩ []) answer) := .single (.step rfl)

/-- The coroutine begins its body and yields inside it, and the function returns. -/
theorem returns_lending : ∃ y z, Proceeds lendingBody (lender, .run (.function ⟨0⟩ []) answer) y ∧
    Returns lendingBody none 0 y z ∧ z.2 = answer (.ok []) ∧
    (z.1.strandOf (some ⟨0⟩)).depth = 1 :=
  ⟨_, _, .step rfl, .later (by decide) (.step rfl) (.later (by decide) (.step rfl)
    (.later (by decide) (.step rfl) (.later (by decide) (.step rfl) (.later (by decide) (.step rfl)
    (.back (by decide)))))), rfl, rfl⟩

/-- The thread that made the call is as deep as it was. -/
theorem depth_counts_open_calls_lending :
    ∃ y z, Proceeds lendingBody (lender, .run (.function ⟨0⟩ []) answer) y ∧
      Returns lendingBody none 0 y z ∧ z.1.current = lender.current := by
  obtain ⟨y, z, hs, hz, _⟩ := returns_lending
  obtain ⟨_, _, _, _, hcall, _⟩ := depth_counts_open_calls run_lending
  exact ⟨y, z, hs, hz, (hcall ⟨0⟩ [] answer y z hs hz).1⟩

/-- The coroutine is deeper than before the call, which has returned. -/
theorem depth_of_resumed_coroutine_changes :
    Run lendingBody (initial Heap.initial, lending) (lender, .run (.function ⟨0⟩ []) answer) ∧
    ∃ y z, Proceeds lendingBody (lender, .run (.function ⟨0⟩ []) answer) y ∧
      Returns lendingBody none 0 y z ∧
      (z.1.strandOf (some ⟨0⟩)).depth ≠ (lender.strandOf (some ⟨0⟩)).depth := by
  obtain ⟨y, z, hs, hz, _, hd⟩ := returns_lending
  refine ⟨run_lending, y, z, hs, hz, ?_⟩
  rw [hd]
  exact Nat.one_ne_zero

end LuaMachine.Machine
