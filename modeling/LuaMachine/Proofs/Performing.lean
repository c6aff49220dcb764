import LuaMachine.Proofs.Callers

/-!
# What an action does

The machine takes an action apart step by step, and an action that asks for a call has to wait for
the reply.  Here is what an action does as a whole: what it ends with, and the machine that it
leaves.

* `Performs`             an action ends with a result or an exit, by recursion on the action;
* `performs_bind`        one action after another;
* `PerformsEach`         an action for each element of a list, in order;
* `Valid`                what holds of a machine at every moment of a run;
* `returns_iff_performs`   the machine does what the action performs, and then what comes after it;
* `replies_iff_performs`   a call gives what the body of its function performs;
* `Gives`, `LibraryGives`   an action, or a call of a library function, ends in one way only.

An action that never ends, since a call in it never returns, performs nothing.
-/

namespace LuaMachine

/-! ## the tables of a heap -/

namespace Heap

variable {h : Heap} {t : TableId}

theorem modifyTable_eq (ht : t.index < h.tables.size) (f : Table → Table) :
    h.modifyTable t f = h.setTable t (f (h.table t)) := by
  unfold modifyTable setTable table
  congr 1
  apply Array.ext_getElem?
  intro i
  rw [Array.getElem?_modify, Array.getElem?_setIfInBounds, Array.getD_eq_getD_getElem?]
  by_cases hi : t.index = i
  · rw [if_pos hi, if_pos hi, if_pos ht, ← hi, Array.getElem?_eq_getElem ht]
    rfl
  · rw [if_neg hi, if_neg hi]

theorem setTable_self (h : Heap) (t : TableId) : h.setTable t (h.table t) = h := by
  unfold setTable table
  congr 1
  apply Array.ext_getElem?
  intro i
  rw [Array.getElem?_setIfInBounds, Array.getD_eq_getD_getElem?]
  by_cases hi : t.index = i
  · subst hi
    rw [if_pos rfl]
    split
    · rename_i hlt
      rw [Array.getElem?_eq_getElem hlt]
      rfl
    · rename_i hge
      exact (Array.getElem?_eq_none (Nat.le_of_not_lt hge)).symm
  · rw [if_neg hi]

theorem table_setTable {u : TableId} (hu : u.index < h.tables.size) (T : Table) (t : TableId) :
    (h.setTable u T).table t = if t = u then T else h.table t := by
  unfold setTable table
  rw [Array.getD_eq_getD_getElem?, Array.getD_eq_getD_getElem?, Array.getElem?_setIfInBounds]
  by_cases he : t = u
  · rw [if_pos he, he, if_pos rfl, if_pos hu]
    rfl
  · rw [if_neg he, if_neg fun e => he (congrArg TableId.mk e.symm)]

theorem lt_of_length_pos (hl : 0 < (h.table t).length) : t.index < h.tables.size := by
  by_contra hge
  unfold table at hl
  rw [Array.getD_eq_getD_getElem?, Array.getElem?_eq_none (Nat.le_of_not_lt hge)] at hl
  exact absurd hl (Nat.lt_irrefl 0)

end Heap

namespace Machine

variable {body : Job → Action Turn} {m m' m'' : Machine} {α β : Type} {a : Action α}
  {o : Option ThreadId} {n N : Nat} {x y z : Moment}

/-! ## performing -/

/-- What an action ends with on a machine, and the machine that it leaves. -/
def Performs (body : Job → Action Turn) : Action α → Machine → Except Exit α → Machine → Prop
  | .done x, m, q, m' => q = .ok x ∧ m' = m
  | .exit e, m, q, m' => q = .error e ∧ m' = m
  | .read k, m, q, m' => Performs body (k m.heap) m q m'
  | .write f k, m, q, m' => Performs body k { m with heap := f m.heap } q m'
  | .run j k, m, q, m' => ∃ r n, Answered body (.run j) m r n ∧ Performs body (k r) n q m'
  | .spawn f k, m, q, m' => Performs body (k ⟨m.coroutines.size⟩)
      { m with coroutines := m.coroutines.push ⟨.suspended, .body f⟩ } q m'
  | .resume c vs k, m, q, m' =>
    ∃ r n, Answered body (.resume c vs) m r n ∧ Performs body (k r) n q m'
  | .yield vs k, m, q, m' => ∃ r n, Answered body (.yield vs) m r n ∧ Performs body (k r) n q m'
  | .inspect k, m, q, m' => Performs body (k m.roster) m q m'

/-- The reply of a request comes before either end of what follows. -/
theorem exists_answered_or {ask : (Reply → Action Turn) → Action Turn}
    {P : Reply → Machine → Prop} {A : Reply → Machine → Except Exit α → Machine → Prop}
    {F : α → Machine → Prop} {E : Exit → Prop}
    (h : ∀ r n, P r n ↔ (∃ x l, A r n (.ok x) l ∧ F x l) ∨ ∃ e, A r n (.error e) m' ∧ E e) :
    (∃ r n, Answered body ask m r n ∧ P r n) ↔
      (∃ x l, (∃ r n, Answered body ask m r n ∧ A r n (.ok x) l) ∧ F x l) ∨
      ∃ e, (∃ r n, Answered body ask m r n ∧ A r n (.error e) m') ∧ E e := by
  constructor
  · rintro ⟨r, n, hr, hp⟩
    rcases (h r n).mp hp with ⟨x, l, ha, hf⟩ | ⟨e, ha, he⟩
    · exact .inl ⟨x, l, ⟨r, n, hr, ha⟩, hf⟩
    · exact .inr ⟨e, ⟨r, n, hr, ha⟩, he⟩
  · rintro (⟨x, l, ⟨r, n, hr, ha⟩, hf⟩ | ⟨e, ⟨r, n, hr, ha⟩, he⟩)
    · exact ⟨r, n, hr, (h r n).mpr (.inl ⟨x, l, ha, hf⟩)⟩
    · exact ⟨r, n, hr, (h r n).mpr (.inr ⟨e, ha, he⟩)⟩

/-- **One action after another**: the first one ends with an exit, or the second one goes on with
its result. -/
theorem performs_bind {f : α → Action β} {q : Except Exit β} :
    Performs body (a.bind f) m q m' ↔
      (∃ x n, Performs body a m (.ok x) n ∧ Performs body (f x) n q m') ∨
      ∃ e, Performs body a m (.error e) m' ∧ q = .error e := by
  induction a generalizing m with
  | done x =>
    constructor
    · exact fun h => .inl ⟨x, m, ⟨rfl, rfl⟩, h⟩
    · rintro (⟨_, _, ⟨e, rfl⟩, h⟩ | ⟨_, ⟨e, _⟩, _⟩)
      · cases e
        exact h
      · cases e
  | exit e =>
    constructor
    · rintro ⟨rfl, rfl⟩
      exact .inr ⟨e, ⟨rfl, rfl⟩, rfl⟩
    · rintro (⟨_, _, ⟨e', _⟩, _⟩ | ⟨_, ⟨e', rfl⟩, rfl⟩)
      · cases e'
      · cases e'
        exact ⟨rfl, rfl⟩
  | read k ih => exact ih _
  | write g k ih => exact ih
  | spawn g k ih => exact ih _
  | inspect k ih => exact ih _
  | run j k ih => exact exists_answered_or fun r n => ih r
  | resume c vs k ih => exact exists_answered_or fun r n => ih r
  | yield vs k ih => exact exists_answered_or fun r n => ih r

theorem performs_map {f : α → β} {q : Except Exit β} :
    Performs body (f <$> a) m q m' ↔ ∃ p, Performs body a m p m' ∧ q = p.map f := by
  rw [show f <$> a = a.bind fun x => .done (f x) from rfl, performs_bind]
  constructor
  · rintro (⟨x, n, ha, rfl, rfl⟩ | ⟨e, ha, rfl⟩)
    · exact ⟨.ok x, ha, rfl⟩
    · exact ⟨.error e, ha, rfl⟩
  · rintro ⟨p, ha, rfl⟩
    cases p with
    | ok x => exact .inl ⟨x, m', ha, rfl, rfl⟩
    | error e => exact .inr ⟨e, ha, rfl⟩

theorem performs_bind_ok {f : α → Action β} {y : β} :
    Performs body (a.bind f) m (.ok y) m' ↔ ∃ x n, Performs body a m (.ok x) n ∧
      Performs body (f x) n (.ok y) m' := by
  rw [performs_bind]
  constructor
  · rintro (h | ⟨e, _, he⟩)
    · exact h
    · cases he
  · exact .inl

theorem performs_ofExcept_ok {r : Except Failure α} {f : α → Action β} {y : β} :
    Performs body ((Action.ofExcept r).bind f) m (.ok y) m' ↔
      ∃ x, r = .ok x ∧ Performs body (f x) m (.ok y) m' := by
  cases r with
  | error e =>
    constructor
    · rintro ⟨h, _⟩
      cases h
    · rintro ⟨_, h, _⟩
      cases h
  | ok x =>
    constructor
    · exact fun h => ⟨x, rfl, h⟩
    · rintro ⟨_, h, hp⟩
      cases h
      exact hp

/-! ## one action for each element of a list -/

section
variable {f : α → Action β}

/-- An action for each element of a list, one after the other, each ending with a result. -/
inductive PerformsEach (body : Job → Action Turn) (f : α → Action β) :
    List α → Machine → List β → Machine → Prop
  | nil (m : Machine) : PerformsEach body f [] m [] m
  | cons {a : α} {as : List α} {b : β} {bs : List β} {m n m' : Machine} :
      Performs body (f a) m (.ok b) n → PerformsEach body f as n bs m' →
      PerformsEach body f (a :: as) m (b :: bs) m'

theorem PerformsEach.length_eq {as : List α} {bs : List β} (h : PerformsEach body f as m bs m') :
    bs.length = as.length := by
  induction h with
  | nil m => rfl
  | cons _ _ ih => rw [List.length_cons, ih, List.length_cons]

theorem performs_mapM_loop {as : List α} {acc r : List β} :
    Performs body (List.mapM.loop f as acc) m (.ok r) m' ↔
      ∃ bs, PerformsEach body f as m bs m' ∧ r = acc.reverse ++ bs := by
  induction as generalizing acc m with
  | nil =>
    show Except.ok r = Except.ok acc.reverse ∧ m' = m ↔ _
    constructor
    · rintro ⟨e, rfl⟩
      exact ⟨[], .nil _, by rw [Except.ok.inj e, List.append_nil]⟩
    · rintro ⟨_, ⟨⟩, rfl⟩
      exact ⟨by rw [List.append_nil], rfl⟩
  | cons a as ih =>
    refine performs_bind_ok.trans ?_
    constructor
    · rintro ⟨b, n, ha, hp⟩
      obtain ⟨bs, hbs, rfl⟩ := ih.mp hp
      exact ⟨b :: bs, .cons ha hbs, by rw [List.reverse_cons, List.append_assoc, List.singleton_append]⟩
    · rintro ⟨_, hbs, rfl⟩
      cases hbs with
      | @cons _ _ b bs _ n _ ha hbs =>
        refine ⟨b, n, ha, ih.mpr ⟨bs, hbs, ?_⟩⟩
        rw [List.reverse_cons, List.append_assoc, List.singleton_append]

theorem performs_mapM {as : List α} {bs : List β} :
    Performs body (as.mapM f) m (.ok bs) m' ↔ PerformsEach body f as m bs m' := by
  refine performs_mapM_loop.trans ?_
  constructor
  · rintro ⟨_, h, rfl⟩
    exact h
  · exact fun h => ⟨bs, h, rfl⟩

end

/-! ## what holds at every moment -/

structure Valid (m : Machine) : Prop where
  inv : m.Inv
  counts : ∀ o, (m.strandOf o).Counts

theorem valid_initial (heap : Heap) : (initial heap).Valid := ⟨inv_initial heap, counts_initial heap⟩

theorem Valid.run (h : x.1.Valid) (hr : Run body x y) : y.1.Valid :=
  ⟨h.inv.run hr, h.inv.counts_run h.counts hr⟩

theorem Valid.step (h : m.Valid) {a a' : Action Turn} (hs : m.step body a = .next m' a') :
    m'.Valid := Valid.run (x := (m, a)) h (.single (.step hs))

theorem Valid.answered (h : m.Valid) {ask : (Reply → Action Turn) → Action Turn}
    (hq : Request ask) {r : Reply} (ha : Answered body ask m r m') :
    m'.Valid ∧ m'.current = m.current := by
  obtain ⟨y, hs, hr⟩ := ha answer
  exact ⟨h.run (x := (m, ask answer)) (.head hs hr.run), ha.current hq h.inv h.counts⟩

/-- **An action comes back to the strand that it runs on.** -/
theorem Valid.performs (h : m.Valid) {q : Except Exit α} (hp : Performs body a m q m') :
    m'.Valid ∧ m'.current = m.current := by
  induction a generalizing m with
  | done x =>
    obtain ⟨_, rfl⟩ := hp
    exact ⟨h, rfl⟩
  | exit e =>
    obtain ⟨_, rfl⟩ := hp
    exact ⟨h, rfl⟩
  | read k ih => exact ih _ h hp
  | write f k ih =>
    have hs : m.step body (.write f (answer (.ok []))) = .next _ _ := rfl
    have h' := h.step hs
    have hp' := ih h' hp
    exact hp'
  | spawn f k ih =>
    have hs : m.step body (.spawn f fun _ => answer (.ok [])) = .next _ _ := rfl
    have h' := h.step hs
    have hp' := ih _ h' hp
    exact hp'
  | inspect k ih => exact ih _ h hp
  | run j k ih =>
    obtain ⟨r, n, hr, hp⟩ := hp
    obtain ⟨hn, hcur⟩ := h.answered (.run j) hr
    exact (ih r hn hp).imp_right (·.trans hcur)
  | resume c vs k ih =>
    obtain ⟨r, n, hr, hp⟩ := hp
    obtain ⟨hn, hcur⟩ := h.answered (.resume c vs) hr
    exact (ih r hn hp).imp_right (·.trans hcur)
  | yield vs k ih =>
    obtain ⟨r, n, hr, hp⟩ := hp
    obtain ⟨hn, hcur⟩ := h.answered (.yield vs) hr
    exact (ih r hn hp).imp_right (·.trans hcur)

/-! ## returning further -/

/-- On the way back to few frames a thread comes back to more of them first. -/
theorem Returns.split (hr : Returns body o n x z) (hle : n ≤ N) :
    ∃ y, Returns body o N x y ∧ Returns body o n y z := by
  induction hr with
  | back h => exact ⟨_, .back (Nat.le_trans h hle), .back h⟩
  | @later x y z hlt hs hyz ih =>
    by_cases hN : (x.1.strandOf o).frames.length ≤ N
    · exact ⟨x, .back hN, .later hlt hs hyz⟩
    · obtain ⟨w, hw, hz⟩ := ih
      exact ⟨w, .later (Nat.lt_of_not_le hN) hs hw, hz⟩

theorem Returns.trans (hr : Returns body o N x y) (hle : n ≤ N) (hz : Returns body o n y z) :
    Returns body o n x z := by
  induction hr with
  | back _ => exact hz
  | later hlt hs _ ih => exact .later (Nat.lt_of_le_of_lt hle hlt) hs (ih hz)

theorem Valid.returns_iff_answered (h : m.Valid) {ask : (Reply → Action Turn) → Action Turn}
    (hq : Request ask) {k : Reply → Action Turn} (hn : n < m.current.frames.length) :
    Returns body m.current.owner n (m, ask k) z ↔
      ∃ r m', Answered body ask m r m' ∧ Returns body m.current.owner n (m', k r) z := by
  have hcur : n < (m.strandOf m.current.owner).frames.length := by rwa [h.inv.strandOf_current]
  constructor
  · intro hr
    cases hr with
    | back hle => exact absurd hle (Nat.not_le_of_lt hcur)
    | later _ hs hyz =>
      obtain ⟨w, hw, hz⟩ := hyz.split (Nat.le_of_lt hn)
      obtain ⟨r, e, ha⟩ := h.inv.answered_of_returns hq hs hw
      refine ⟨r, w.1, ha, ?_⟩
      rw [← e]
      exact hz
  · rintro ⟨r, m', ha, hz⟩
    obtain ⟨y, hs, hr⟩ := ha k
    exact .later hcur hs (hr.trans (Nat.le_of_lt hn) hz)

/-- What is left to do after an action has ended. -/
def ended : Except Exit Turn → Action Turn
  | .ok t => .done t
  | .error e => .exit e

theorem Valid.returns_iff_request (h : m.Valid) {ask : (Reply → Action Turn) → Action Turn}
    (hq : Request ask) {k : Reply → Action Turn} (hn : n < m.current.frames.length)
    (ih : ∀ r {m : Machine}, m.Valid → n < m.current.frames.length →
      (Returns body m.current.owner n (m, k r) z ↔ ∃ q m', Performs body (k r) m q m' ∧
        Returns body m.current.owner n (m', ended q) z)) :
    Returns body m.current.owner n (m, ask k) z ↔
      ∃ q m', (∃ r l, Answered body ask m r l ∧ Performs body (k r) l q m') ∧
        Returns body m.current.owner n (m', ended q) z := by
  rw [h.returns_iff_answered hq hn]
  constructor
  · rintro ⟨r, l, ha, hz⟩
    obtain ⟨hl, hcur⟩ := h.answered hq ha
    rw [← hcur, ih r hl (hcur ▸ hn)] at hz
    obtain ⟨q, m', hp, hz⟩ := hz
    exact ⟨q, m', ⟨r, l, ha, hp⟩, hcur ▸ hz⟩
  · rintro ⟨q, m', ⟨r, l, ha, hp⟩, hz⟩
    obtain ⟨hl, hcur⟩ := h.answered hq ha
    refine ⟨r, l, ha, ?_⟩
    rw [← hcur, ih r hl (hcur ▸ hn)]
    exact ⟨q, m', hp, hcur ▸ hz⟩

/-- **The machine does what an action performs**, and then what is left to do. -/
theorem Valid.returns_iff_performs (h : m.Valid) {a : Action Turn}
    (hn : n < m.current.frames.length) :
    Returns body m.current.owner n (m, a) z ↔
      ∃ q m', Performs body a m q m' ∧ Returns body m.current.owner n (m', ended q) z := by
  -- by recursion on the action, since it says what the machine does next
  induction a generalizing m with
  | done t =>
    constructor
    · exact fun hz => ⟨.ok t, m, ⟨rfl, rfl⟩, hz⟩
    · rintro ⟨_, _, ⟨rfl, rfl⟩, hz⟩
      exact hz
  | exit e =>
    constructor
    · exact fun hz => ⟨.error e, m, ⟨rfl, rfl⟩, hz⟩
    · rintro ⟨_, _, ⟨rfl, rfl⟩, hz⟩
      exact hz
  | read k ih =>
    rw [h.inv.returns_iff_step rfl hn rfl]
    exact ih _ h hn
  | write f k ih =>
    rw [h.inv.returns_iff_step rfl hn rfl]
    have hs : m.step body (.write f k) = .next _ _ := rfl
    exact ih (h.step hs) hn
  | spawn f k ih =>
    rw [h.inv.returns_iff_step rfl hn rfl]
    have hs : m.step body (.spawn f k) = .next _ _ := rfl
    exact ih _ (h.step hs) hn
  | inspect k ih =>
    rw [h.inv.returns_iff_step rfl hn rfl]
    exact ih _ h hn
  | run j k ih => exact h.returns_iff_request (.run j) hn ih
  | resume c vs k ih => exact h.returns_iff_request (.resume c vs) hn ih
  | yield vs k ih => exact h.returns_iff_request (.yield vs) hn ih

/-! ## calls -/

def calling (m : Machine) : Machine := { m with current := m.current.push ⟨true, answer⟩ }

theorem Valid.calling (h : m.Valid) (hroom : m.current.depth < Strand.maxDepth) :
    m.calling.Valid := by
  have hs : m.step Job.body (.run (.function ⟨0⟩ []) answer) = .next m.calling _ := step_call hroom
  exact h.step hs

theorem ended_map (q : Reply) : ended (q.map Turn.finish) = answer q := by
  cases q <;> rfl

theorem Valid.returns_iff_reply (h : m.Valid) {s : Strand} {f : Frame} (hm : m.current = s.push f)
    {q : Reply} : Returns body s.owner s.frames.length (m, answer q) z ↔
      z = ({ m with current := s }, f.resume (if f.isCall then callReply q else q)) := by
  have hpop : Inv { m with current := s } := h.inv.with_current (by rw [hm]; rfl)
  rw [h.inv.returns_iff_push hm rfl (Nat.le_refl _)]
  constructor
  · exact hpop.returns_same rfl
  · rintro rfl
    exact .back (Nat.le_of_eq (by rw [hpop.strandOf_current]))

/-- **A call gives what the body of its function performs.** -/
theorem Valid.replies_iff_performs (h : m.Valid) (hroom : m.current.depth < Strand.maxDepth)
    {f : FunctionId} {vs : List Value} {r : Reply} :
    Replies Job.body m (.function f vs) r m' ↔
      ∃ q n, Performs Job.body ((m.heap.function f).body f vs) m.calling q n ∧ r = callReply q ∧
        m' = { n with current := m.current } := by
  have hcall := h.calling hroom
  have hlt : m.current.frames.length < m.calling.current.frames.length := Nat.lt_succ_self _
  have key : ∀ z, (∃ y, Proceeds Job.body (m, .run (.function f vs) answer) y ∧
      Returns Job.body m.current.owner m.current.frames.length y z) ↔
      ∃ q n, Performs Job.body ((m.heap.function f).body f vs) m.calling q n ∧
        z = ({ n with current := m.current }, answer (callReply q)) := by
    intro z
    rw [h.inv.returns_iff_body hroom rfl]
    show Returns Job.body m.calling.current.owner _ (m.calling, _) z ↔ _
    rw [hcall.returns_iff_performs hlt]
    constructor
    · rintro ⟨p, n, hp, hz⟩
      obtain ⟨q, hq, rfl⟩ := performs_map.mp hp
      obtain ⟨hn, hcur⟩ := hcall.performs hq
      rw [ended_map] at hz
      exact ⟨q, n, hq, (hn.returns_iff_reply hcur).mp hz⟩
    · rintro ⟨q, n, hq, rfl⟩
      obtain ⟨hn, hcur⟩ := hcall.performs hq
      refine ⟨q.map Turn.finish, n, performs_map.mpr ⟨q, hq, rfl⟩, ?_⟩
      rw [ended_map]
      exact (hn.returns_iff_reply hcur).mpr rfl
  constructor
  · intro hr
    obtain ⟨q, n, hq, e⟩ := (key _).mp (hr answer)
    obtain ⟨rfl, e'⟩ := Prod.mk.inj e
    exact ⟨q, n, hq, answer_injective e', rfl⟩
  · rintro ⟨q, n, hq, rfl, rfl⟩
    obtain ⟨y, hs, hr⟩ := (key _).mpr ⟨q, n, hq, rfl⟩
    obtain ⟨r, e, ha⟩ := h.inv.answered_of_returns (.run _) hs hr
    rw [answer_injective e]
    exact ha

/-! ## functions stay -/

theorem Inv.spared_request (h : m.Inv) {ask : (Reply → Action Turn) → Action Turn}
    (hq : Request ask) {k : Reply → Action Turn} (hk : ∀ r, (k r).Steady) {a' : Action Turn}
    (hs : m.step Job.body (ask k) = .next m' a') : Spared m m' a' := by
  cases hq with
  | run j => exact spared_begin hk hs
  | resume c vs => exact h.spared_resume hk hs
  | yield vs => exact spared_suspend hk hs

/-- At the top level the functions stay until a request has its reply. -/
theorem Inv.retains_answered (h : m.Inv) (ho : m.current.owner = none) {now : Action Turn}
    (hx : Steadfast (m, now)) {ask : (Reply → Action Turn) → Action Turn} (hq : Request ask)
    {r : Reply} (ha : Answered Job.body ask m r m') :
    m.heap.Retains m'.heap ∧ Steadfast (m', answer r) := by
  -- what the caller does with the reply does not matter, so let it be steady
  obtain ⟨y, hs, hr⟩ := ha answer
  have hask : (ask answer).Spares m.heap := by cases hq <;> exact fun r => steady_answer r
  have hst := hx.at_top ho (ask answer)
  have hcur := h.strandOf_current
  rw [ho] at hr hcur
  have htop : SteadyAbove m.current.frames.length (m.strandOf none).frames :=
    steadyAbove_of_length_le (Nat.le_of_eq (by rw [hcur]))
  have htop' := (h.turns hs none).1.steadyAbove hask htop
  have hst' := hst.proceeds h hs
  have hy : y.1.Inv := h.proceeds hs
  obtain ⟨hret, hspares⟩ : Spared m y.1 y.2 := by
    have hposed : Posed Job.body ask m := h.posed hq
    cases hposed with
    | once r hstep =>
      cases hs.eq_of_next (hstep answer)
      exact h.spared_request hq steady_answer (hstep answer)
    | waits isCall wait a' hstep _ _ =>
      cases hs.eq_of_next (hstep answer)
      exact h.spared_request hq steady_answer (hstep answer)
  obtain ⟨hret', hcalm⟩ := hr.retains hy ⟨hst', htop', hspares⟩
  exact ⟨hret.trans hret', hcalm.steadfast⟩

/-- A request at the top level, in front of actions for which that is known already. -/
theorem Valid.retains_request (h : m.Valid) (ho : m.current.owner = none) {now : Action Turn}
    (hx : Steadfast (m, now)) {ask : (Reply → Action Turn) → Action Turn} (hq : Request ask)
    {k : Reply → Action α} (ha : ∀ r heap, (k r).Spares heap) {q : Except Exit α}
    (ih : ∀ r {m : Machine}, m.Valid → m.current.owner = none → Steadfast (m, now) →
      (k r).Spares m.heap → Performs Job.body (k r) m q m' →
      m.heap.Retains m'.heap ∧ Steadfast (m', now))
    (hp : ∃ r l, Answered Job.body ask m r l ∧ Performs Job.body (k r) l q m') :
    m.heap.Retains m'.heap ∧ Steadfast (m', now) := by
  obtain ⟨r, l, hr, hp⟩ := hp
  obtain ⟨hl, hcur⟩ := h.answered hq hr
  have ho' : l.current.owner = none := by rw [hcur, ho]
  obtain ⟨hret, hst⟩ := h.inv.retains_answered ho hx hq hr
  obtain ⟨hret', hst'⟩ := ih r hl ho' (hst.at_top ho' now) (ha r _) hp
  exact ⟨hret.trans hret', hst'⟩

/-- **At the top level a steady action retains the functions**, whatever coroutines do meanwhile. -/
theorem Valid.retains_performs (h : m.Valid) (ho : m.current.owner = none) {now : Action Turn}
    (hx : Steadfast (m, now)) (ha : a.Spares m.heap) {q : Except Exit α}
    (hp : Performs Job.body a m q m') : m.heap.Retains m'.heap ∧ Steadfast (m', now) := by
  induction a generalizing m with
  | done x =>
    obtain ⟨_, rfl⟩ := hp
    exact ⟨.refl _, hx⟩
  | exit e =>
    obtain ⟨_, rfl⟩ := hp
    exact ⟨.refl _, hx⟩
  | read k ih => exact ih _ h ho hx ha hp
  | write f k ih =>
    have hs : m.step Job.body (.write f now) = .next _ now := rfl
    have hx' := (hx.at_top ho (.write f now)).proceeds h.inv (.step hs)
    obtain ⟨hret, hst⟩ := ih (h.step hs) ho hx' ha.2 hp
    exact ⟨ha.1.trans hret, hst⟩
  | spawn f k ih =>
    have hs : m.step Job.body (.spawn f fun _ => now) = .next _ now := rfl
    have hx' := (hx.at_top ho (.spawn f fun _ => now)).proceeds h.inv (.step hs)
    have hret := ih ⟨m.coroutines.size⟩ (h.step hs) ho hx' (ha _) hp
    exact hret
  | inspect k ih => exact ih _ h ho hx (ha _) hp
  | run j k ih => exact h.retains_request ho hx (.run j) ha ih hp
  | resume c vs k ih => exact h.retains_request ho hx (.resume c vs) ha ih hp
  | yield vs k ih => exact h.retains_request ho hx (.yield vs) ha ih hp

/-! ## one end -/

/-- An action ends, and in one way only. -/
def Gives (body : Job → Action Turn) (a : Action α) (m : Machine) (q : Except Exit α)
    (m' : Machine) : Prop := ∀ p n, Performs body a m p n ↔ p = q ∧ n = m'

theorem Gives.unique {q q' : Except Exit α} {n n' : Machine} (h : Gives body a m q n)
    (h' : Gives body a m q' n') : q' = q ∧ n' = n := (h q' n').mp ((h' q' n').mpr ⟨rfl, rfl⟩)

/-- After an action that ends with a result, another one goes on with it. -/
theorem Gives.performs_bind {x : α} {n l : Machine} (hg : Gives body a m (.ok x) n)
    {g : α → Action β} {q : Except Exit β} :
    Performs body (a.bind g) m q l ↔ Performs body (g x) n q l := by
  rw [Machine.performs_bind]
  constructor
  · rintro (⟨y, m', ha, hp⟩ | ⟨e, ha, _⟩)
    · obtain ⟨hx, rfl⟩ := (hg _ _).mp ha
      cases hx
      exact hp
    · cases ((hg _ _).mp ha).1
  · exact fun hp => .inl ⟨x, n, (hg _ _).mpr ⟨rfl, rfl⟩, hp⟩

theorem Gives.bind {x : α} {n l : Machine} (hg : Gives body a m (.ok x) n) {g : α → Action β}
    {q : Except Exit β} (h : Gives body (g x) n q l) : Gives body (a.bind g) m q l :=
  fun p l' => hg.performs_bind.trans (h p l')

/-- Every call of a library function with some arguments replies, and in one way only. -/
def LibraryGives (m : Machine) (b : Builtin) (vs : List Value) (r : Reply) (m' : Machine) : Prop :=
  ∀ f, m.heap.function f = .builtin b →
    ∀ s n, Replies Job.body m (.function f vs) s n ↔ s = r ∧ n = m'

theorem Valid.libraryGives (h : m.Valid) (hroom : m.current.depth < Strand.maxDepth) {b : Builtin}
    {vs : List Value} {q r : Reply} (hg : Gives Job.body (b.run vs) m.calling q m')
    (hr : callReply q = r) (hm : { m' with current := m.current } = m'') :
    LibraryGives m b vs r m'' := by
  intro f hf s n
  rw [h.replies_iff_performs hroom, hf, ← hr, ← hm]
  constructor
  · rintro ⟨p, l, hp, rfl, rfl⟩
    obtain ⟨rfl, rfl⟩ := (hg p l).mp hp
    exact ⟨rfl, rfl⟩
  · rintro ⟨rfl, rfl⟩
    exact ⟨q, m', (hg q m').mpr ⟨rfl, rfl⟩, rfl, rfl⟩

theorem LibraryGives.gives_call {b : Builtin} {vs us : List Value} {f : FunctionId}
    (hlib : LibraryGives m b vs (.ok us) m') (hf : m.heap.function f = .builtin b) :
    Gives Job.body (Action.call (.function f) vs) m (.ok us) m' := by
  intro q l
  show (∃ r n, Replies Job.body m (.function f vs) r n ∧
    Performs Job.body (Action.ofReply r) n q l) ↔ _
  constructor
  · rintro ⟨r, n, hr, hp⟩
    obtain ⟨rfl, rfl⟩ := (hlib f hf r n).mp hr
    exact hp
  · exact fun hp => ⟨_, _, (hlib f hf _ _).mpr ⟨rfl, rfl⟩, hp⟩

/-! ## one table -/

def setTable (m : Machine) (t : TableId) (table : Table) : Machine :=
  { m with heap := m.heap.setTable t table }

theorem gives_modifyTable {t : TableId} (ht : t.index < m.heap.tables.size) (f : Table → Table)
    (x : α) :
    Gives Job.body (.write (·.modifyTable t f) (.done x)) m (.ok x)
      (m.setTable t (f (m.heap.table t))) := by
  intro q n
  show q = .ok x ∧ n = { m with heap := m.heap.modifyTable t f } ↔ _
  rw [Heap.modifyTable_eq ht]
  rfl

theorem gives_heap : Gives body Action.heap m (.ok m.heap) m := fun _ _ => Iff.rfl

theorem gives_exit (e : Exit) : Gives Job.body (.exit e : Action α) m (.error e) m :=
  fun _ _ => Iff.rfl

end Machine

end LuaMachine
