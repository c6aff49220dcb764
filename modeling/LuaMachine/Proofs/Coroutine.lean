import Mathlib.Data.List.Basic
import Mathlib.Logic.Relation
import LuaMachine.Library.Coroutines
import LuaMachine.Machine

/-!
# The statuses of coroutines

A machine runs the strand of one coroutine, or the top level; the strands behind it wait, each for
the one in front.  The coroutines of these strands are those whose resume is pending.

* `Machine.pending`    the coroutines with a pending resume, the innermost first;
* `Coroutine.Fits`     what a coroutine is like, given which resumes are pending;
* `Machine.Inv`        the strands are those of the pending coroutines, with the top level behind
                       them, and every coroutine fits;
* `Shift`              what one step does to the control of a machine;
* `Proceeds`           a step of a program, which may begin anew at the top level once it has ended.

Each kind of shift keeps the invariant, so that it holds along every run.
-/

namespace LuaMachine

theorem ThreadId.index_inj {c d : ThreadId} : c.index = d.index ↔ c = d := by
  constructor
  · intro h
    cases c
    cases d
    exact congrArg ThreadId.mk h
  · exact congrArg ThreadId.index

namespace Machine

variable {m m' : Machine} {c d : ThreadId}

/-! ## the coroutines of a machine -/

def coroutine? (m : Machine) (c : ThreadId) : Option Coroutine := m.coroutines[c.index]?

theorem coroutine?_congr (h : m'.coroutines = m.coroutines) (c : ThreadId) :
    m'.coroutine? c = m.coroutine? c := by
  unfold coroutine?
  rw [h]

theorem status_roster (m : Machine) (c : ThreadId) :
    m.roster.status c = ((m.coroutine? c).map (·.status)).getD .dead := by
  show (m.coroutines.map (·.status)).getD c.index .dead = _
  rw [Array.getD_eq_getD_getElem?, Array.getElem?_map]
  rfl

theorem coroutine?_setCoroutine (m : Machine) (c d : ThreadId) (co : Coroutine) :
    (m.setCoroutine c co).coroutine? d
      = if c = d then (m.coroutine? d).map fun _ => co else m.coroutine? d := by
  show (m.coroutines.setIfInBounds c.index co)[d.index]? = _
  rw [Array.getElem?_setIfInBounds]
  by_cases h : c = d
  · subst h
    rw [if_pos rfl, if_pos rfl]
    unfold coroutine?
    split
    · rename_i hlt
      rw [Array.getElem?_eq_getElem hlt]
      rfl
    · rename_i hge
      rw [Array.getElem?_eq_none (Nat.le_of_not_lt hge)]
      rfl
  · rw [if_neg (fun e => h (ThreadId.index_inj.mp e)), if_neg h]
    rfl

theorem coroutine?_mark (m : Machine) (o : Option ThreadId) (s : Status) (d : ThreadId) :
    (m.mark o s).coroutine? d
      = if o = some d then (m.coroutine? d).map fun _ => ⟨s, .nothing⟩ else m.coroutine? d := by
  cases o with
  | none => rfl
  | some c =>
    show (m.setCoroutine c ⟨s, .nothing⟩).coroutine? d = _
    rw [coroutine?_setCoroutine]
    simp only [Option.some.injEq]

@[simp] theorem heap_mark (m : Machine) (o : Option ThreadId) (s : Status) :
    (m.mark o s).heap = m.heap := by cases o <;> rfl

/-! ## pending resumes -/

def strands (m : Machine) : List Strand := m.current :: m.waiting

/-- The coroutines with a pending resume, the innermost first. -/
def pending (m : Machine) : List ThreadId := m.strands.filterMap Strand.owner

def owners (m : Machine) : List (Option ThreadId) := m.strands.map Strand.owner

theorem pending_eq_owners (m : Machine) : m.pending = m.owners.filterMap id := by
  unfold pending owners
  rw [List.filterMap_map]
  rfl

theorem pending_congr (h : m'.owners = m.owners) : m'.pending = m.pending := by
  rw [pending_eq_owners, pending_eq_owners, h]

end Machine

/-! ## coroutines that fit -/

namespace Coroutine

/-- What a coroutine is like, given the pending resumes: it runs if its own is the innermost one, it
waits for another if its own is further out, and else it is suspended, with its body or its strand
parked, or dead. -/
def Fits (pending : List ThreadId) (c : ThreadId) (co : Coroutine) : Prop :=
  match co.status, co.parked with
  | .running, .nothing => pending.head? = some c
  | .normal, .nothing => c ∈ pending.tail
  | .suspended, .body _ => c ∉ pending
  | .suspended, .strand s => c ∉ pending ∧ s.owner = some c
  | .dead, .nothing => c ∉ pending
  | _, _ => False

namespace Fits

variable {pending pending' : List ThreadId} {c : ThreadId} {co : Coroutine}

theorem suspended (h : co.Fits pending c) (hs : co.status = .suspended) :
    c ∉ pending ∧ ((∃ f, co.parked = .body f) ∨ ∃ s, co.parked = .strand s ∧ s.owner = some c) := by
  obtain ⟨status, parked⟩ := co
  cases hs
  cases parked with
  | body f => exact ⟨h, .inl ⟨f, rfl⟩⟩
  | strand s => exact ⟨h.1, .inr ⟨s, rfl, h.2⟩⟩
  | nothing => exact h.elim

theorem running (h : co.Fits pending c) (hs : co.status = .running) : pending.head? = some c := by
  obtain ⟨status, parked⟩ := co
  cases hs
  cases parked <;> first | exact h | exact h.elim

theorem normal (h : co.Fits pending c) (hs : co.status = .normal) : c ∈ pending.tail := by
  obtain ⟨status, parked⟩ := co
  cases hs
  cases parked <;> first | exact h | exact h.elim

theorem dead (h : co.Fits pending c) (hs : co.status = .dead) : c ∉ pending := by
  obtain ⟨status, parked⟩ := co
  cases hs
  cases parked <;> first | exact h | exact h.elim

end Fits

theorem mem_tail_of_head?_ne {α : Type} {l : List α} {a : α} (h : a ∈ l)
    (hh : l.head? ≠ some a) : a ∈ l.tail := by
  cases l with
  | nil => cases h
  | cons b l =>
    rcases List.mem_cons.mp h with rfl | h
    · exact absurd rfl hh
    · exact h

/-- A coroutine still fits when resumes begin or end that are not its own. -/
theorem Fits.elsewhere {pending pending' : List ThreadId} {c : ThreadId} {co : Coroutine}
    (h : co.Fits pending c) (hh : pending.head? ≠ some c) (hh' : pending'.head? ≠ some c)
    (hiff : c ∈ pending ↔ c ∈ pending') : co.Fits pending' c := by
  obtain ⟨status, parked⟩ := co
  cases status with
  | running => exact absurd (h.running rfl) hh
  | normal =>
    have hin := hiff.mp (List.mem_of_mem_tail (h.normal rfl))
    cases parked <;> first | exact mem_tail_of_head?_ne hin hh' | exact h.elim
  | suspended =>
    have hout := mt hiff.mpr (h.suspended rfl).1
    cases parked with
    | body f => exact hout
    | strand s => exact ⟨hout, h.2⟩
    | nothing => exact h.elim
  | dead =>
    have hout := mt hiff.mpr (h.dead rfl)
    cases parked <;> first | exact hout | exact h.elim

end Coroutine

namespace Machine

variable {m m' : Machine} {c d : ThreadId}

structure Inv (m : Machine) : Prop where
  owners : m.owners = m.pending.map some ++ [none]
  nodup : m.pending.Nodup
  known : ∀ c ∈ m.pending, ∃ co, m.coroutine? c = some co
  fits : ∀ c co, m.coroutine? c = some co → co.Fits m.pending c

/-! ## strands and pending resumes -/

theorem Inv.head?_pending (h : m.Inv) : m.pending.head? = m.current.owner := by
  have e := h.owners
  change m.current.owner :: _ = _ at e
  cases hp : m.pending with
  | nil =>
    rw [hp] at e
    exact (List.cons.inj e).1.symm
  | cons c rest =>
    rw [hp] at e
    exact (List.cons.inj e).1.symm

theorem Inv.pending_cons (h : m.Inv) {s : Strand} {w : List Strand} (hw : m.waiting = s :: w) :
    ∃ c rest, m.current.owner = some c ∧ m.pending = c :: rest ∧
      s.owner :: w.map Strand.owner = rest.map some ++ [none] := by
  have e := h.owners
  change m.current.owner :: m.waiting.map Strand.owner = _ at e
  cases hp : m.pending with
  | nil =>
    rw [hp, hw] at e
    cases (List.cons.inj e).2
  | cons c rest =>
    rw [hp, hw] at e
    obtain ⟨e1, e2⟩ := List.cons.inj e
    exact ⟨c, rest, e1, rfl, e2⟩

theorem pending_of_owners {l : List ThreadId} (h : m.owners = l.map some ++ [none]) :
    m.pending = l := by
  rw [pending_eq_owners, h, List.filterMap_append, List.filterMap_map]
  simp

/-! ## what a step does to the control -/

/-- What a step does to the control of a machine: nothing, it creates a coroutine, it enters one,
which was suspended, or it leaves the running one, which is then parked or dead. -/
inductive Shift (m m' : Machine) : Prop
  | stay (coroutines : m'.coroutines = m.coroutines) (owners : m'.owners = m.owners)
  | spawn (f : FunctionId) (coroutines : m'.coroutines = m.coroutines.push ⟨.suspended, .body f⟩)
      (owners : m'.owners = m.owners)
  | enter (c : ThreadId) (co : Coroutine) (known : m.coroutine? c = some co)
      (suspended : co.status = .suspended)
      (coroutines : ∀ d, m'.coroutine? d
        = ((m.mark m.current.owner .normal).setCoroutine c ⟨.running, .nothing⟩).coroutine? d)
      (owners : m'.owners = some c :: m.owners)
  | leave (c : ThreadId) (rest : List ThreadId) (co : Coroutine) (pending : m.pending = c :: rest)
      (parked : co = ⟨.dead, .nothing⟩ ∨
        ∃ s : Strand, s.owner = some c ∧ co = ⟨.suspended, .strand s⟩)
      (coroutines : ∀ d, m'.coroutine? d
        = ((m.setCoroutine c co).mark rest.head? .running).coroutine? d)
      (owners : m'.owners = rest.map some ++ [none])

variable {body : Job → Action Turn} {a a' : Action Turn}

theorem Shift.of_eq (h : m' = m) : Shift m m' := by
  rw [h]
  exact .stay rfl rfl

theorem head?_of_map_append {o : Option ThreadId} {os : List (Option ThreadId)}
    {rest : List ThreadId} (h : o :: os = rest.map some ++ [none]) : rest.head? = o := by
  cases rest with
  | nil => exact (List.cons.inj h).1.symm
  | cons c rest => exact (List.cons.inj h).1.symm

theorem Inv.shift_deliver (h : m.Inv) {r : Reply} (hs : m.deliver r = .next m' a') :
    Shift m m' := by
  unfold deliver at hs
  split at hs
  · cases hs
    exact .stay rfl rfl
  · split at hs
    · cases hs
    · rename_i s w hw
      obtain ⟨c, rest, ho, hp, hrest⟩ := h.pending_cons hw
      cases hs
      refine .leave c rest ⟨.dead, .nothing⟩ hp (.inl rfl) (fun d => ?_) hrest
      rw [head?_of_map_append hrest, ho]
      rfl

theorem Inv.shift_suspend (h : m.Inv) {vs : List Value} {k : Reply → Action Turn}
    (hs : m.suspend vs k = .next m' a') : Shift m m' := by
  unfold suspend at hs
  split at hs
  · rename_i c s w ho hw
    obtain ⟨c', rest, ho', hp, hrest⟩ := h.pending_cons hw
    cases ho.symm.trans ho'
    cases hs
    refine .leave c rest ⟨.suspended, .strand (m.current.push ⟨false, k⟩)⟩ hp
      (.inr ⟨m.current.push ⟨false, k⟩, ho, rfl⟩) (fun d => ?_) hrest
    rw [head?_of_map_append hrest]
    rfl
  · cases hs
    exact .stay rfl rfl

/-- What a resume does: a coroutine that is not suspended refuses and nothing changes, and one that
is suspended is entered. -/
theorem Inv.resume_cases (h : m.Inv) (c : ThreadId) (vs : List Value) (k : Reply → Action Turn) :
    (m.roster.status c ≠ .suspended ∧ m.resume c vs k
      = .next m (k (.error (.failed (.coroutine (.notSuspended (m.roster.status c))))))) ∨
    (m.roster.status c = .suspended ∧ ∃ co m' a', m.coroutine? c = some co ∧
      co.status = .suspended ∧ m.resume c vs k = .next m' a' ∧
      (∀ d, m'.coroutine? d
        = ((m.mark m.current.owner .normal).setCoroutine c ⟨.running, .nothing⟩).coroutine? d) ∧
      m'.owners = some c :: m.owners) := by
  rw [status_roster]
  cases hco : m.coroutine? c with
  | none =>
    have hget : m.coroutines[c.index]? = none := hco
    refine .inl ⟨nofun, ?_⟩
    unfold resume
    rw [hget]
    rfl
  | some co =>
    have hget : m.coroutines[c.index]? = some co := hco
    have hfits := h.fits c co hco
    unfold resume
    rw [hget]
    obtain ⟨status, parked⟩ := co
    cases status with
    | suspended =>
      refine .inr ⟨rfl, ⟨.suspended, parked⟩, ?_⟩
      cases parked with
      | body f => exact ⟨_, _, rfl, rfl, rfl, fun _ => rfl, rfl⟩
      | strand s =>
        refine ⟨_, _, rfl, rfl, rfl, fun _ => rfl, ?_⟩
        show s.owner :: _ = _
        rw [hfits.2]
        rfl
      | nothing => exact hfits.elim
    | running => exact .inl ⟨nofun, rfl⟩
    | normal => exact .inl ⟨nofun, rfl⟩
    | dead => exact .inl ⟨nofun, rfl⟩

theorem Inv.shift_resume (h : m.Inv) {vs : List Value} {k : Reply → Action Turn}
    (hs : m.resume c vs k = .next m' a') : Shift m m' := by
  rcases h.resume_cases c vs k with ⟨_, e⟩ | ⟨_, co, m₁, a₁, hco, hst, e, hc, ho⟩
  · rw [e] at hs
    cases hs
    exact .of_eq rfl
  · rw [e] at hs
    cases hs
    exact .enter c co hco hst hc ho

theorem shift_begin {j : Job} {k : Reply → Action Turn} (hs : m.begin body j k = .next m' a') :
    Shift m m' := by
  unfold begin at hs
  split at hs
  · split at hs <;>
    · cases hs
      exact .stay rfl rfl
  · cases hs
    exact .stay rfl rfl

theorem Inv.shift_step (h : m.Inv) (hs : m.step body a = .next m' a') : Shift m m' := by
  cases a with
  | done t =>
    cases t with
    | finish vs => exact h.shift_deliver hs
    | again j =>
      cases hs
      exact .of_eq rfl
  | exit e => exact h.shift_deliver hs
  | read k =>
    cases hs
    exact .of_eq rfl
  | write f k =>
    cases hs
    exact .stay rfl rfl
  | run j k => exact shift_begin hs
  | spawn f k =>
    cases hs
    exact .spawn f rfl rfl
  | resume c vs k => exact h.shift_resume hs
  | yield vs k => exact h.shift_suspend hs
  | inspect k =>
    cases hs
    exact .of_eq rfl

/-! ## the invariant along a run -/

theorem Inv.enter (h : m.Inv) {co : Coroutine} (hco : m.coroutine? c = some co)
    (hs : co.status = .suspended)
    (hc : ∀ d, m'.coroutine? d
      = ((m.mark m.current.owner .normal).setCoroutine c ⟨.running, .nothing⟩).coroutine? d)
    (ho : m'.owners = some c :: m.owners) : m'.Inv := by
  have hout : c ∉ m.pending := ((h.fits c co hco).suspended hs).1
  have hp : m'.pending = c :: m.pending := by
    apply pending_of_owners
    rw [ho, h.owners]
    rfl
  have hget : ∀ d, m'.coroutine? d = if c = d then (m.coroutine? d).map fun _ => ⟨.running, .nothing⟩
      else if m.pending.head? = some d then (m.coroutine? d).map fun _ => ⟨.normal, .nothing⟩
      else m.coroutine? d := by
    intro d
    rw [hc, coroutine?_setCoroutine, coroutine?_mark, h.head?_pending]
    by_cases hcd : c = d
    · subst hcd
      have hne : ¬ m.current.owner = some c := by
        rw [← h.head?_pending]
        exact fun e => hout (List.mem_of_mem_head? e)
      rw [if_pos rfl, if_pos rfl, if_neg hne]
    · rw [if_neg hcd, if_neg hcd]
  refine ⟨by rw [hp, ho, h.owners]; rfl, ?_, ?_, ?_⟩
  · rw [hp]
    exact List.nodup_cons.mpr ⟨hout, h.nodup⟩
  · intro d hd
    rw [hp, List.mem_cons] at hd
    have hknown : ∃ co, m.coroutine? d = some co := by
      rcases hd with rfl | hd
      · exact ⟨co, hco⟩
      · exact h.known d hd
    obtain ⟨co', hco'⟩ := hknown
    rw [hget, hco']
    split
    · exact ⟨_, rfl⟩
    · split <;> exact ⟨_, rfl⟩
  · intro d co' hd
    rw [hget] at hd
    rw [hp]
    split at hd
    · rename_i hcd
      obtain ⟨_, _, rfl⟩ := Option.map_eq_some_iff.mp hd
      exact congrArg some hcd
    · rename_i hcd
      split at hd
      · rename_i hhead
        obtain ⟨_, _, rfl⟩ := Option.map_eq_some_iff.mp hd
        exact List.mem_of_mem_head? hhead
      · rename_i hhead
        refine (h.fits d co' hd).elsewhere hhead (fun e => hcd (Option.some.inj e)) ?_
        rw [List.mem_cons]
        exact ⟨.inr, fun e => e.resolve_left fun e => hcd e.symm⟩

theorem Inv.leave (h : m.Inv) {rest : List ThreadId} {co : Coroutine}
    (hpe : m.pending = c :: rest)
    (hpk : co = ⟨.dead, .nothing⟩ ∨ ∃ s : Strand, s.owner = some c ∧ co = ⟨.suspended, .strand s⟩)
    (hc : ∀ d, m'.coroutine? d = ((m.setCoroutine c co).mark rest.head? .running).coroutine? d)
    (ho : m'.owners = rest.map some ++ [none]) : m'.Inv := by
  have hp : m'.pending = rest := pending_of_owners ho
  have hn := h.nodup
  rw [hpe, List.nodup_cons] at hn
  have hget : ∀ d, m'.coroutine? d
      = if rest.head? = some d then (m.coroutine? d).map fun _ => ⟨.running, .nothing⟩
        else if c = d then (m.coroutine? d).map fun _ => co else m.coroutine? d := by
    intro d
    rw [hc, coroutine?_mark, coroutine?_setCoroutine]
    by_cases hhead : rest.head? = some d
    · have hcd : ¬ c = d := by
        rintro rfl
        exact hn.1 (List.mem_of_mem_head? hhead)
      rw [if_pos hhead, if_pos hhead, if_neg hcd]
    · rw [if_neg hhead, if_neg hhead]
  refine ⟨by rw [hp, ho], by rw [hp]; exact hn.2, ?_, ?_⟩
  · intro d hd
    rw [hp] at hd
    obtain ⟨co', hco'⟩ := h.known d (by rw [hpe]; exact List.mem_cons_of_mem _ hd)
    rw [hget, hco']
    split
    · exact ⟨_, rfl⟩
    · split <;> exact ⟨_, rfl⟩
  · intro d co' hd
    rw [hget] at hd
    rw [hp]
    split at hd
    · rename_i hhead
      obtain ⟨_, _, rfl⟩ := Option.map_eq_some_iff.mp hd
      exact hhead
    · rename_i hhead
      split at hd
      · rename_i hcd
        obtain ⟨_, _, rfl⟩ := Option.map_eq_some_iff.mp hd
        rw [← hcd]
        rcases hpk with rfl | ⟨s, hs, rfl⟩
        · exact hn.1
        · exact ⟨hn.1, hs⟩
      · rename_i hcd
        have hf := h.fits d co' hd
        rw [hpe] at hf
        refine hf.elsewhere (fun e => hcd (Option.some.inj e)) hhead ?_
        rw [List.mem_cons]
        exact ⟨fun e => e.resolve_left fun e => hcd e.symm, .inr⟩

theorem Inv.of_shift (h : m.Inv) (hs : Shift m m') : m'.Inv := by
  cases hs with
  | stay hc ho =>
    have hp := pending_congr ho
    refine ⟨by rw [ho, hp]; exact h.owners, by rw [hp]; exact h.nodup, ?_, ?_⟩
    · intro c hcp
      rw [hp] at hcp
      rw [coroutine?_congr hc]
      exact h.known c hcp
    · intro c co hco
      rw [coroutine?_congr hc] at hco
      rw [hp]
      exact h.fits c co hco
  | spawn f hc ho =>
    have hp := pending_congr ho
    have hget : ∀ d, m'.coroutine? d
        = if d.index = m.coroutines.size then some ⟨.suspended, .body f⟩ else m.coroutine? d := by
      intro d
      unfold coroutine?
      rw [hc, Array.getElem?_push]
    have hlt : ∀ d co, m.coroutine? d = some co → d.index < m.coroutines.size := by
      intro d co hd
      exact (Array.getElem?_eq_some_iff.mp hd).1
    refine ⟨by rw [ho, hp]; exact h.owners, by rw [hp]; exact h.nodup, ?_, ?_⟩
    · intro c hcp
      rw [hp] at hcp
      obtain ⟨co, hco⟩ := h.known c hcp
      rw [hget, if_neg (Nat.ne_of_lt (hlt c co hco))]
      exact ⟨co, hco⟩
    · intro c co hco
      rw [hget] at hco
      rw [hp]
      split at hco
      · rename_i hnew
        cases hco
        intro hin
        obtain ⟨co, hco⟩ := h.known c hin
        exact absurd hnew (Nat.ne_of_lt (hlt c co hco))
      · exact h.fits c co hco
  | enter c co hco hst hc ho => exact h.enter hco hst hc ho
  | leave c rest co hpe hpk hc ho => exact h.leave hpe hpk hc ho

/-- Nothing is pending at the top level of a program, whatever coroutines are left over. -/
theorem Inv.restart (h : m.Inv) (hp : m.pending = []) (heap : Heap) :
    Inv { initial heap with coroutines := m.coroutines } where
  owners := rfl
  nodup := List.nodup_nil
  known := fun _ hc => absurd hc List.not_mem_nil
  fits := fun c co hco => by
    have hf := h.fits c co hco
    rw [hp] at hf
    exact hf

theorem inv_initial (heap : Heap) : (initial heap).Inv where
  owners := rfl
  nodup := List.nodup_nil
  known := fun _ hc => absurd hc List.not_mem_nil
  fits := fun c co hco => by
    unfold coroutine? initial at hco
    simp at hco

theorem deliver_of_halt {r : Reply} (hs : m.step body a = .halt m' r) :
    ∃ r', m.deliver r' = .halt m' r := by
  cases a with
  | done t =>
    cases t with
    | finish vs => exact ⟨_, hs⟩
    | again j => cases hs
  | exit e => exact ⟨_, hs⟩
  | run j k =>
    change m.begin body j k = _ at hs
    unfold begin at hs
    split at hs
    · split at hs <;> cases hs
    · cases hs
  | resume c vs k =>
    change m.resume c vs k = _ at hs
    unfold resume at hs
    dsimp only at hs
    split at hs
    · cases hs
    · split at hs <;> cases hs
  | yield vs k =>
    change m.suspend vs k = _ at hs
    unfold suspend at hs
    split at hs <;> cases hs
  | read k => cases hs
  | write f k => cases hs
  | spawn f k => cases hs
  | inspect k => cases hs

theorem halt_cases {r : Reply} (hs : m.step body a = .halt m' r) : m' = m ∧ m.waiting = [] := by
  obtain ⟨r', hd⟩ := deliver_of_halt hs
  unfold deliver at hd
  split at hd
  · cases hd
  · split at hd
    · rename_i hw
      cases hd
      exact ⟨rfl, hw⟩
    · cases hd

theorem Inv.pending_halt (h : m.Inv) (hw : m.waiting = []) : m.pending = [] := by
  have e := h.owners
  change m.current.owner :: m.waiting.map Strand.owner = _ at e
  rw [hw] at e
  cases hp : m.pending with
  | nil => rfl
  | cons c rest =>
    rw [hp] at e
    have := (List.cons.inj e).2
    simp at this

/-- A moment of a program: a machine, and what it is about to do. -/
abbrev Moment := Machine × Action Turn

/-- What comes after a moment of a program: the next step, or, when the top level has ended, another
action at the top level, with whatever heap, and with the coroutines that are left. -/
inductive Proceeds (body : Job → Action Turn) : Moment → Moment → Prop
  | step {m m' : Machine} {a a' : Action Turn} (h : m.step body a = .next m' a') :
      Proceeds body (m, a) (m', a')
  | restart {m m' : Machine} {a : Action Turn} {r : Reply} (h : m.step body a = .halt m' r)
      (heap : Heap) (a' : Action Turn) :
      Proceeds body (m, a) ({ initial heap with coroutines := m'.coroutines }, a')

abbrev Run (body : Job → Action Turn) : Moment → Moment → Prop :=
  Relation.ReflTransGen (Proceeds body)

theorem Inv.proceeds {x y : Moment} (h : x.1.Inv) (hs : Proceeds body x y) : y.1.Inv := by
  cases hs with
  | step hs => exact h.of_shift (h.shift_step hs)
  | restart hs heap a' =>
    obtain ⟨rfl, hw⟩ := halt_cases hs
    exact h.restart (h.pending_halt hw) heap

theorem Inv.run {x y : Moment} (h : x.1.Inv) (hr : Run body x y) : y.1.Inv := by
  induction hr with
  | refl => exact h
  | tail _ hs ih => exact ih.proceeds hs

/-! ## dead coroutines -/

theorem Inv.dead_of_shift (h : m.Inv) (hs : Shift m m') {co : Coroutine}
    (hco : m.coroutine? c = some co) (hd : co.status = .dead) : m'.coroutine? c = some co := by
  have hout := (h.fits c co hco).dead hd
  cases hs with
  | stay hc _ => rw [coroutine?_congr hc, hco]
  | spawn f hc _ =>
    have hlt := (Array.getElem?_eq_some_iff.mp hco).1
    unfold coroutine?
    rw [hc, Array.getElem?_push, if_neg (Nat.ne_of_lt hlt)]
    exact hco
  | enter c' co' hco' hst hc _ =>
    have hne : c' ≠ c := by
      rintro rfl
      cases hco'.symm.trans hco
      rw [hst] at hd
      cases hd
    have hhead : ¬ m.current.owner = some c := by
      rw [← h.head?_pending]
      exact fun e => hout (List.mem_of_mem_head? e)
    rw [hc, coroutine?_setCoroutine, if_neg hne, coroutine?_mark, if_neg hhead, hco]
  | leave c' rest co' hpe _ hc _ =>
    rw [hpe, List.mem_cons] at hout
    have hne : c' ≠ c := fun e => hout (.inl e.symm)
    have hhead : ¬ rest.head? = some c := fun e => hout (.inr (List.mem_of_mem_head? e))
    rw [hc, coroutine?_mark, if_neg hhead, coroutine?_setCoroutine, if_neg hne, hco]

theorem Inv.dead_run {x y : Moment} (h : x.1.Inv) (hr : Run body x y) {co : Coroutine}
    (hco : x.1.coroutine? c = some co) (hd : co.status = .dead) : y.1.coroutine? c = some co := by
  induction hr with
  | refl => exact hco
  | @tail y z hxy hs ih =>
    have hy := h.run hxy
    cases hs with
    | step hs => exact hy.dead_of_shift (hy.shift_step hs) ih hd
    | restart hs heap a' =>
      obtain ⟨rfl, _⟩ := halt_cases hs
      exact ih

/-! ## the statuses -/

theorem Inv.status_iff (h : m.Inv) {co : Coroutine} (hco : m.coroutine? c = some co) :
    (m.roster.status c = .running ↔ m.pending.head? = some c) ∧
    (m.roster.status c = .normal ↔ c ∈ m.pending.tail) ∧
    (m.roster.status c = .suspended ∨ m.roster.status c = .dead ↔ c ∉ m.pending) := by
  have hf := h.fits c co hco
  have hst : m.roster.status c = co.status := by
    rw [status_roster, hco]
    rfl
  have hdisj : m.pending.head? = some c → c ∉ m.pending.tail := by
    intro hh ht
    cases hp : m.pending with
    | nil =>
      rw [hp] at hh
      cases hh
    | cons b rest =>
      have hn := h.nodup
      rw [hp] at hh ht hn
      cases hh
      exact (List.nodup_cons.mp hn).1 ht
  have hhead : m.pending.head? = some c → c ∈ m.pending := List.mem_of_mem_head?
  have htail : c ∈ m.pending.tail → c ∈ m.pending := List.mem_of_mem_tail
  rw [hst]
  cases hs : co.status with
  | running =>
    have := hf.running hs
    simp [this, hdisj this, hhead this]
  | normal =>
    have := hf.normal hs
    simp [this, mt hdisj (not_not.mpr this), htail this]
  | suspended =>
    have := (hf.suspended hs).1
    simp [this, mt hhead this, mt htail this]
  | dead =>
    have := hf.dead hs
    simp [this, mt hhead this, mt htail this]

theorem Inv.step_running (h : m.Inv) (vs : List Value) :
    m.step body (Library.Coroutines.running vs).asTurn
      = .next m (.done (.finish (match m.pending.head? with
        | some c => [.thread c, .boolean false]
        | none => [.nil, .boolean true]))) := by
  rw [h.head?_pending]
  show Progress.next m (Action.asTurn (match m.current.owner with
    | some c => .done [.thread c, .boolean false]
    | none => .done [.nil, .boolean true])) = _
  cases m.current.owner <;> rfl

theorem Inv.step_isyieldable (h : m.Inv) (vs : List Value) :
    m.step body (Library.Coroutines.isyieldable vs).asTurn
      = .next m (.done (.finish [.boolean (!m.pending.isEmpty)])) := by
  have e : m.current.owner.isSome = !m.pending.isEmpty := by
    rw [← h.head?_pending]
    cases m.pending <;> rfl
  rw [← e]
  rfl

/-- **The statuses of coroutines.**  At every moment of every program the strands under way are those
of the pending coroutines, which are all different, with the top level behind them.  The innermost
pending coroutine is running, the others are normal, and those that are not pending are suspended or
dead.  The innermost one is what a program is told to be running, and it may yield if there is one.
A dead coroutine stays as it is for ever and is never pending again.  Resuming a coroutine that is
not suspended fails and changes nothing at all, and resuming one that is suspended enters it. -/
theorem coroutine_statuses {body : Job → Action Turn} {heap : Heap} {start : Action Turn}
    {m : Machine} {a : Action Turn} (hr : Run body (initial heap, start) (m, a)) :
    m.owners = m.pending.map some ++ [none] ∧ m.pending.Nodup ∧
    (∀ c ∈ m.pending, c.index < m.coroutines.size) ∧
    (∀ c, c.index < m.coroutines.size →
      (m.roster.status c = .running ↔ m.pending.head? = some c) ∧
      (m.roster.status c = .normal ↔ c ∈ m.pending.tail) ∧
      (m.roster.status c = .suspended ∨ m.roster.status c = .dead ↔ c ∉ m.pending)) ∧
    m.roster.current = m.pending.head? ∧
    (∀ vs, m.step body (Library.Coroutines.running vs).asTurn
      = .next m (.done (.finish (match m.pending.head? with
        | some c => [.thread c, .boolean false]
        | none => [.nil, .boolean true])))) ∧
    (∀ vs, m.step body (Library.Coroutines.isyieldable vs).asTurn
      = .next m (.done (.finish [.boolean (!m.pending.isEmpty)]))) ∧
    (∀ c, c.index < m.coroutines.size → m.roster.status c = .dead →
      ∀ m' a', Run body (m, a) (m', a') →
        m'.coroutine? c = m.coroutine? c ∧ m'.roster.status c = .dead ∧ c ∉ m'.pending) ∧
    (∀ c vs k, m.roster.status c ≠ .suspended → m.step body (.resume c vs k)
      = .next m (k (.error (.failed (.coroutine (.notSuspended (m.roster.status c))))))) ∧
    (∀ c vs k, m.roster.status c = .suspended →
      ∃ m' a', m.step body (.resume c vs k) = .next m' a' ∧ m'.pending = c :: m.pending) := by
  have h : m.Inv := (inv_initial heap).run hr
  have known : ∀ c, c.index < m.coroutines.size → ∃ co, m.coroutine? c = some co :=
    fun c hc => ⟨_, Array.getElem?_eq_getElem hc⟩
  refine ⟨h.owners, h.nodup, ?_, ?_, h.head?_pending.symm, h.step_running, h.step_isyieldable, ?_,
    ?_, ?_⟩
  · intro c hc
    obtain ⟨co, hco⟩ := h.known c hc
    exact (Array.getElem?_eq_some_iff.mp hco).1
  · intro c hc
    obtain ⟨co, hco⟩ := known c hc
    exact h.status_iff hco
  · intro c hc hd m' a' hr'
    obtain ⟨co, hco⟩ := known c hc
    have hst : co.status = .dead := by
      rw [status_roster, hco] at hd
      exact hd
    have hco' : m'.coroutine? c = some co := h.dead_run hr' hco hst
    have hdead : m'.roster.status c = .dead := by
      rw [status_roster, hco']
      exact hst
    exact ⟨hco'.trans hco.symm, hdead, ((h.run hr').fits c co hco').dead hst⟩
  · intro c vs k hs
    rcases h.resume_cases c vs k with ⟨_, e⟩ | ⟨hs', _⟩
    · exact e
    · exact absurd hs' hs
  · intro c vs k hs
    rcases h.resume_cases c vs k with ⟨hs', _⟩ | ⟨_, co, m', a', _, _, e, _, ho⟩
    · exact absurd hs hs'
    · refine ⟨m', a', e, pending_of_owners ?_⟩
      rw [ho, h.owners]
      rfl

def nesting (f : FunctionId) : Action Turn := .spawn f fun c => .resume c [] answer

/-- The first function runs the second one in a coroutine. -/
def nestingBody : Job → Action Turn
  | .function ⟨0⟩ _ => nesting ⟨1⟩
  | _ => .done (.finish [])

/-- Inside a coroutine that another one has resumed. -/
theorem coroutine_statuses_nested :
    ∃ m a, Run nestingBody (initial Heap.initial, nesting ⟨0⟩) (m, a) ∧ m.pending = [⟨1⟩, ⟨0⟩] ∧
      m.roster.status ⟨1⟩ = .running ∧ m.roster.status ⟨0⟩ = .normal := by
  have hr : Run nestingBody (initial Heap.initial, nesting ⟨0⟩) _ :=
    ((((Relation.ReflTransGen.single (.step rfl)).tail (.step rfl)).tail (.step rfl)).tail
      (.step rfl)).tail (.step rfl)
  obtain ⟨_, _, _, hst, _⟩ := coroutine_statuses hr
  exact ⟨_, _, hr, rfl, (hst ⟨1⟩ (by decide)).1.mpr rfl, (hst ⟨0⟩ (by decide)).2.1.mpr (by decide)⟩

end Machine

end LuaMachine
