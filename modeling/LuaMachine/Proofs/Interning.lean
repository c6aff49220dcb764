import Mathlib.Data.List.Perm.Basic
import Mathlib.Logic.Function.Basic
import Mathlib.Logic.Relation
import LuaMachine.Proofs.Pool

/-!
# Interning from several threads

Threads share a pool.  A thread looks into its own cache without a lock; after that it takes the lock
of the pool, looks through the bucket of the bytes, one entry after the other, and enters a new
string if there is none; then it lets go of the lock and writes its cache.  A sweep has the lock and
looks at one entry after the other.  Handles are copied and released at any moment, also between the
looks at two entries, and no lock is needed for it.  A handle that a look at an entry takes and gives
back at once is a copy that is released.

* `Pool.Stage`        where a thread stands in an operation;
* `Pool.Shared`       a pool, the stages of its threads, and the handles that there are;
* `Shared.Step`       one step of one thread;
* `Stage.Fits`        what an operation has seen is still true as far as it matters;
* `Shared.Inv`        what holds of a shared pool at every moment.

A string that was seen released stays released, so an entry that is left out is never missed; one
that was seen alive may have been released since, and then it is kept for nothing.
`Shared.run_intern` says that `Pool.intern` is what the steps do when no other thread interferes.
-/

namespace LuaMachine.Pool

/-! ## threads -/

/-- Where a thread stands in an operation. -/
inductive Stage where
  | idle
  /-- Its cache had nothing for these bytes, and it wants the lock. -/
  | missed (bs : Bytes)
  /-- It has the lock and looks through the bucket of the bytes: the entries to come, those that are
  kept, and the string that it has found. -/
  | scanning (bs : Bytes) (rest kept : List StringId) (found : Option StringId)
  /-- It has the lock and sweeps: the entries to come, and which ones it saw alive.  It may do so
  because it has just entered a string. -/
  | sweeping (after : Option (Bytes × StringId)) (rest : List StringId) (alive : StringId → Bool)
  /-- It has the string with these bytes, and its cache is still to be written. -/
  | entered (bs : Bytes) (s : StringId)

namespace Stage

def locks : Stage → Bool
  | scanning .. => true
  | sweeping .. => true
  | _ => false

/-- The handle that the operation will return. -/
def handle? : Stage → Option StringId
  | scanning _ _ _ found => found
  | sweeping after _ _ => after.map Prod.snd
  | entered _ s => some s
  | _ => none

def afterSweep : Option (Bytes × StringId) → Stage
  | some (bs, s) => entered bs s
  | none => idle

end Stage

structure Shared where
  pool : Pool
  stage : Nat → Stage
  /-- All handles: each is in the hands of the program, or in those of a thread's operation. -/
  held : List (Option Nat × StringId)
  /-- What interning has returned so far, and for which bytes. -/
  issued : List (Bytes × StringId)

def entries (p : Pool) : List StringId := p.buckets.toList.flatMap Prod.snd

namespace Shared

def initial : Shared := ⟨Pool.empty, fun _ => .idle, [], []⟩

def goTo (σ : Shared) (t : Nat) (st : Stage) : Shared :=
  { σ with stage := Function.update σ.stage t st }

def Free (σ : Shared) : Prop := ∀ t, (σ.stage t).locks = false

inductive Step : Shared → Shared → Prop
  /-- The cache has the string. -/
  | hit {σ : Shared} {t : Nat} {bs : Bytes} {s : StringId} (idle : σ.stage t = .idle)
      (short : bs.size ≤ shortLimit) (found : σ.pool.cached? (slotOf t bs.fnv1a) bs = some s) :
      Step σ { σ with
        pool := σ.pool.clone s, held := (none, s) :: σ.held, issued := (bs, s) :: σ.issued }
  | miss {σ : Shared} {t : Nat} {bs : Bytes} (idle : σ.stage t = .idle)
      (short : bs.size ≤ shortLimit) (absent : σ.pool.cached? (slotOf t bs.fnv1a) bs = none) :
      Step σ (σ.goTo t (.missed bs))
  /-- A long string is not pooled. -/
  | long {σ : Shared} {t : Nat} {bs : Bytes} (idle : σ.stage t = .idle)
      (long : shortLimit < bs.size) :
      Step σ { σ with
        pool := (σ.pool.own bs).1, held := (none, (σ.pool.own bs).2) :: σ.held,
        issued := (bs, (σ.pool.own bs).2) :: σ.issued }
  /-- A string object that is made without interning. -/
  | own {σ : Shared} {bs : Bytes} :
      Step σ { σ with
        pool := (σ.pool.own bs).1, held := (none, (σ.pool.own bs).2) :: σ.held }
  | clone {σ : Shared} {s : StringId} (held : (none, s) ∈ σ.held) :
      Step σ { σ with pool := σ.pool.clone s, held := (none, s) :: σ.held }
  | drop {σ : Shared} {s : StringId} (held : (none, s) ∈ σ.held) :
      Step σ { σ with pool := σ.pool.drop s, held := σ.held.erase (none, s) }
  | lock {σ : Shared} {t : Nat} {bs : Bytes} (missed : σ.stage t = .missed bs) (free : σ.Free) :
      Step σ (σ.goTo t (.scanning bs (σ.pool.bucket bs.fnv1a) [] none))
  /-- The entry of a released string is left out. -/
  | leaveOut {σ : Shared} {t : Nat} {bs : Bytes} {s : StringId} {rest kept : List StringId}
      {found : Option StringId} (scanning : σ.stage t = .scanning bs (s :: rest) kept found)
      (released : σ.pool.isLive s = false) : Step σ (σ.goTo t (.scanning bs rest kept found))
  | pass {σ : Shared} {t : Nat} {bs : Bytes} {s : StringId} {rest kept : List StringId}
      {found : Option StringId} (scanning : σ.stage t = .scanning bs (s :: rest) kept found)
      (live : σ.pool.isLive s = true) (other : found ≠ none ∨ σ.pool.hasBytes s bs = false) :
      Step σ (σ.goTo t (.scanning bs rest (kept ++ [s]) found))
  | find {σ : Shared} {t : Nat} {bs : Bytes} {s : StringId} {rest kept : List StringId}
      (scanning : σ.stage t = .scanning bs (s :: rest) kept none)
      (live : σ.pool.isLive s = true) (same : σ.pool.hasBytes s bs = true) :
      Step σ (goTo { σ with pool := σ.pool.clone s, held := (some t, s) :: σ.held } t
        (.scanning bs rest (kept ++ [s]) (some s)))
  /-- The string was found. -/
  | keep {σ : Shared} {t : Nat} {bs : Bytes} {s : StringId} {kept : List StringId}
      (scanning : σ.stage t = .scanning bs [] kept (some s)) :
      Step σ (goTo { σ with pool := σ.pool.keep bs.fnv1a kept } t (.entered bs s))
  /-- The string is new, and it may be time for a sweep. -/
  | add {σ : Shared} {t : Nat} {bs : Bytes} {kept : List StringId}
      (scanning : σ.stage t = .scanning bs [] kept none) :
      Step σ (goTo { σ with
          pool := σ.pool.add bs kept, held := (some t, ⟨σ.pool.cells.size⟩) :: σ.held } t
        (if (σ.pool.add bs kept).sweepAt ≤ (σ.pool.add bs kept).count then
          .sweeping (some (bs, ⟨σ.pool.cells.size⟩)) (σ.pool.add bs kept).entries
            (σ.pool.add bs kept).isLive
        else .entered bs ⟨σ.pool.cells.size⟩))
  /-- Counting the live strings begins with a sweep. -/
  | count {σ : Shared} {t : Nat} (idle : σ.stage t = .idle) (free : σ.Free) :
      Step σ (σ.goTo t (.sweeping none σ.pool.entries σ.pool.isLive))
  | inspect {σ : Shared} {t : Nat} {after : Option (Bytes × StringId)} {s : StringId}
      {rest : List StringId} {alive : StringId → Bool}
      (sweeping : σ.stage t = .sweeping after (s :: rest) alive) :
      Step σ (σ.goTo t (.sweeping after rest (Function.update alive s (σ.pool.isLive s))))
  | sweep {σ : Shared} {t : Nat} {after : Option (Bytes × StringId)} {alive : StringId → Bool}
      (sweeping : σ.stage t = .sweeping after [] alive) :
      Step σ (goTo { σ with pool := σ.pool.sweepBy alive } t (Stage.afterSweep after))
  | store {σ : Shared} {t : Nat} {bs : Bytes} {s : StringId} (entered : σ.stage t = .entered bs s) :
      Step σ (goTo { σ with
          pool := σ.pool.setCache (slotOf t bs.fnv1a) s
          held := (none, s) :: σ.held.erase (some t, s)
          issued := (bs, s) :: σ.issued } t .idle)

abbrev Run : Shared → Shared → Prop := Relation.ReflTransGen Step

end Shared

/-! ## counting handles -/

/-- The handles of every string are counted. -/
structure Counted (p : Pool) (l : List StringId) : Prop where
  handles : ∀ s c, p.cell? s = some c → c.handles = l.count s
  known : ∀ s ∈ l, ∃ c, p.cell? s = some c

namespace Counted

variable {p q : Pool} {l l' : List StringId} {s : StringId}

theorem isLive (h : p.Counted l) (hs : s ∈ l) : p.isLive s = true := by
  obtain ⟨c, hc⟩ := h.known s hs
  refine isLive_iff.mpr ⟨c, hc, ?_⟩
  rw [h.handles s c hc]
  exact List.count_pos_iff.mpr hs

theorem perm (h : p.Counted l) (hl : l.Perm l') : p.Counted l' :=
  ⟨fun s c hc => (h.handles s c hc).trans (hl.count_eq s),
    fun s hs => h.known s (hl.mem_iff.mpr hs)⟩

theorem of_cells (h : p.Counted l) (hc : q.cells = p.cells) : q.Counted l := by
  have hcell : ∀ s, q.cell? s = p.cell? s := by
    intro s
    unfold cell?
    rw [hc]
  constructor
  · intro s c hs
    rw [hcell] at hs
    exact h.handles s c hs
  · intro s hs
    rw [hcell]
    exact h.known s hs

theorem adjust (h : p.Counted l) {f : Nat → Nat} (hl : l'.count s = f (l.count s))
    (hne : ∀ u, u ≠ s → l'.count u = l.count u) (hk : ∀ u ∈ l', ∃ c, p.cell? u = some c) :
    (p.adjust s f).Counted l' := by
  constructor
  · intro u c hc
    rw [cell?_adjust] at hc
    split at hc
    · rename_i hu
      subst hu
      obtain ⟨d, hd, rfl⟩ := Option.map_eq_some_iff.mp hc
      rw [hl, ← h.handles s d hd]
    · rename_i hu
      rw [hne u (Ne.symm hu)]
      exact h.handles u c hc
  · intro u hu
    obtain ⟨c, hc⟩ := hk u hu
    rw [cell?_adjust, hc]
    split <;> exact ⟨_, rfl⟩

theorem clone (h : p.Counted l) (hlive : p.isLive s = true) : (p.clone s).Counted (s :: l) := by
  refine h.adjust List.count_cons_self (fun u hu => List.count_cons_of_ne (Ne.symm hu)) ?_
  intro u hu
  rcases List.mem_cons.mp hu with rfl | hu
  · obtain ⟨c, hc, -⟩ := isLive_iff.mp hlive
    exact ⟨c, hc⟩
  · exact h.known u hu

theorem drop (h : p.Counted l) (s : StringId) : (p.drop s).Counted (l.erase s) :=
  h.adjust List.count_erase_self (fun _ hu => List.count_erase_of_ne hu)
    fun u hu => h.known u (List.mem_of_mem_erase hu)

theorem release {held : List (Option Nat × StringId)} (h : p.Counted (held.map Prod.snd))
    {x : Option Nat × StringId} (hx : x ∈ held) :
    (p.drop x.2).Counted ((held.erase x).map Prod.snd) := by
  refine (h.drop x.2).perm ?_
  have hp := ((List.perm_cons_erase hx).map Prod.snd).erase x.2
  rwa [List.map_cons, List.erase_cons_head] at hp

theorem handOver {held : List (Option Nat × StringId)} (h : p.Counted (held.map Prod.snd))
    {o o' : Option Nat} (hs : (o, s) ∈ held) :
    p.Counted (((o', s) :: held.erase (o, s)).map Prod.snd) :=
  h.perm ((List.perm_cons_erase hs).map Prod.snd)

theorem allocate (h : p.Counted l) (bs : Bytes) (interned : Bool) :
    (p.allocate bs interned).1.Counted (⟨p.cells.size⟩ :: l) := by
  have hnew : (⟨p.cells.size⟩ : StringId) ∉ l := by
    intro hin
    obtain ⟨c, hc⟩ := h.known _ hin
    rw [cell?_new] at hc
    cases hc
  constructor
  · intro u c hc
    rw [cell?_allocate] at hc
    split at hc
    · rename_i hu
      subst hu
      cases hc
      rw [List.count_cons_self, List.count_eq_zero.mpr hnew]
    · rename_i hu
      rw [List.count_cons_of_ne (Ne.symm hu)]
      exact h.handles u c hc
  · intro u hu
    rw [cell?_allocate]
    split
    · exact ⟨_, rfl⟩
    · rename_i hne
      exact h.known u ((List.mem_cons.mp hu).resolve_left hne)

end Counted

/-! ## what an operation has seen -/

namespace Stage

variable {p q : Pool} {st : Stage}

/-- What an operation has seen is still true as far as it matters: every live entry of the bucket is
kept or still to come, none of those kept has the bytes unless the string is found, and every live
entry was seen alive or is still to come. -/
def Fits (p : Pool) : Stage → Prop
  | idle => True
  | missed _ => True
  | scanning bs rest kept found =>
    (kept ++ rest).Sublist (p.bucket bs.fnv1a) ∧
    (∀ s ∈ p.bucket bs.fnv1a, p.isLive s = true → s ∈ kept ++ rest) ∧
    (found = none → ∀ s ∈ kept, p.hasBytes s bs = false) ∧
    (∀ s, found = some s → p.Pooled s bs)
  | sweeping after _ alive =>
    (∀ k, ∀ s ∈ p.bucket k, p.isLive s = true → alive s = true) ∧
    (∀ bs s, after = some (bs, s) → p.Pooled s bs)
  | entered bs s => p.Pooled s bs

/-- What others do meanwhile does not matter: without the lock they do not change the buckets. -/
theorem Fits.later (h : st.Fits p) (hp : p.Sound) (hl : p.Later q)
    (hb : st.locks = true → ∀ k, q.bucket k = p.bucket k) : st.Fits q := by
  have live : ∀ k, ∀ s ∈ p.bucket k, q.isLive s = true → p.isLive s = true := by
    intro k s hs hlive
    obtain ⟨c, hc, -⟩ := hp.entry k s hs
    exact hl.isLive hc hlive
  cases st with
  | idle => trivial
  | missed bs => trivial
  | scanning bs rest kept found =>
    obtain ⟨hsub, hlive, hnone, hsome⟩ := h
    refine ⟨?_, ?_, fun hf s hs => ?_, fun s hs => (hsome s hs).later hl⟩
    · rw [hb rfl]
      exact hsub
    · intro s hs hq
      rw [hb rfl] at hs
      exact hlive s hs (live _ s hs hq)
    · obtain ⟨c, hc, -⟩ := hp.entry _ s (hsub.subset (List.mem_append_left _ hs))
      by_contra hyes
      rw [Bool.not_eq_false] at hyes
      have := hl.hasBytes hc hyes
      rw [hnone hf s hs] at this
      cases this
  | sweeping after rest alive =>
    obtain ⟨hlive, hsome⟩ := h
    refine ⟨fun k s hs hq => ?_, fun bs s hs => (hsome bs s hs).later hl⟩
    rw [hb rfl] at hs
    exact hlive k s hs (live k s hs hq)
  | entered bs s => exact Pooled.later h hl

section scanning
variable {bs : Bytes} {s : StringId} {rest kept : List StringId} {found : Option StringId}

theorem Fits.leaveOut (h : (scanning bs (s :: rest) kept found).Fits p)
    (released : p.isLive s = false) : (scanning bs rest kept found).Fits p := by
  obtain ⟨hsub, hlive, hnone, hsome⟩ := h
  refine ⟨?_, fun u hu hul => ?_, hnone, hsome⟩
  · exact (List.Sublist.append_left (List.sublist_cons_self s rest) kept).trans hsub
  · rcases List.mem_append.mp (hlive u hu hul) with hk | hr
    · exact List.mem_append_left _ hk
    · refine List.mem_append_right _ ((List.mem_cons.mp hr).resolve_left ?_)
      rintro rfl
      rw [released] at hul
      cases hul

theorem Fits.pass (h : (scanning bs (s :: rest) kept found).Fits p)
    (other : found ≠ none ∨ p.hasBytes s bs = false) :
    (scanning bs rest (kept ++ [s]) found).Fits p := by
  obtain ⟨hsub, hlive, hnone, hsome⟩ := h
  have e : kept ++ [s] ++ rest = kept ++ s :: rest := by simp
  refine ⟨e ▸ hsub, e ▸ hlive, fun hf u hu => ?_, hsome⟩
  rcases List.mem_append.mp hu with hu | hu
  · exact hnone hf u hu
  · rw [List.mem_singleton.mp hu]
    exact other.resolve_left fun hne => hne hf

theorem Fits.pooled (h : (scanning bs (s :: rest) kept found).Fits p) (hp : p.Sound)
    (same : p.hasBytes s bs = true) : p.Pooled s bs := by
  obtain ⟨hsub, -, -, -⟩ := h
  obtain ⟨c, hc, hi, -⟩ := hp.entry _ s (hsub.subset (List.mem_append_right _ List.mem_cons_self))
  obtain ⟨d, hd, hb⟩ := hasBytes_iff.mp same
  cases hc.symm.trans hd
  exact ⟨c, hc, hb, hi⟩

theorem Fits.find (h : (scanning bs (s :: rest) kept none).Fits p) (hs : p.Pooled s bs)
    (live : p.isLive s = true) : (scanning bs rest (kept ++ [s]) (some s)).Fits (p.clone s) := by
  obtain ⟨hsub, hlive, -, -⟩ := h
  have e : kept ++ [s] ++ rest = kept ++ s :: rest := by simp
  refine ⟨e ▸ hsub, fun u hu hul => ?_, nofun, fun u hu => ?_⟩
  · rw [isLive_clone live] at hul
    rw [e]
    exact hlive u hu hul
  · cases hu
    exact hs.later (fades_clone live).later

/-- The string that was entered is pooled, whether a sweep follows or not. -/
theorem fits_added (p : Pool) (bs : Bytes) (kept : List StringId) :
    (if (p.add bs kept).sweepAt ≤ (p.add bs kept).count then
      sweeping (some (bs, ⟨p.cells.size⟩)) (p.add bs kept).entries (p.add bs kept).isLive
    else entered bs ⟨p.cells.size⟩).Fits (p.add bs kept) := by
  have hp : (p.add bs kept).Pooled ⟨p.cells.size⟩ bs :=
    ⟨_, (cell?_add ..).trans (if_pos rfl), rfl, rfl⟩
  split
  · refine ⟨fun _ _ _ => id, fun bs' s' e => ?_⟩
    cases e
    exact hp
  · exact hp

end scanning

section sweeping
variable {after : Option (Bytes × StringId)} {s : StringId} {rest : List StringId}
  {alive : StringId → Bool}

theorem Fits.inspect (h : (sweeping after (s :: rest) alive).Fits p) :
    (sweeping after rest (Function.update alive s (p.isLive s))).Fits p := by
  obtain ⟨hlive, hsome⟩ := h
  refine ⟨fun k u hu hul => ?_, hsome⟩
  by_cases hus : u = s
  · subst hus
    rw [Function.update_self, hul]
  · rw [Function.update_of_ne hus]
    exact hlive k u hu hul

theorem Fits.afterSweep (h : (sweeping after rest alive).Fits p) (hl : p.Later q) :
    (Stage.afterSweep after).Fits q := by
  obtain ⟨-, hsome⟩ := h
  cases after with
  | none => trivial
  | some x => exact (hsome x.1 x.2 rfl).later hl

theorem handle?_afterSweep :
    (Stage.afterSweep after).handle? = (sweeping after rest alive).handle? := by
  cases after <;> rfl

theorem locks_afterSweep : (Stage.afterSweep after).locks = false := by
  cases after <;> rfl

end sweeping

end Stage

/-! ## the invariant -/

namespace Shared

variable {σ τ : Shared} {t : Nat} {bs : Bytes} {s : StringId} {st : Stage}

/-- The string that interning returned has the bytes, and it is pooled if it is short. -/
def Returned (p : Pool) (bs : Bytes) (s : StringId) : Prop :=
  ∃ c, p.cell? s = some c ∧ c.bytes = bs ∧ (bs.size ≤ shortLimit → c.interned = true)

theorem Returned.later {p q : Pool} (h : Returned p bs s) (hl : p.Later q) : Returned q bs s := by
  obtain ⟨c, hc, hb, hi⟩ := h
  obtain ⟨n, hq, -⟩ := hl s c hc
  exact ⟨_, hq, hb, hi⟩

theorem returned_of_pooled {p : Pool} (h : p.Pooled s bs) : Returned p bs s := by
  obtain ⟨c, hc, hb, hi⟩ := h
  exact ⟨c, hc, hb, fun _ => hi⟩

theorem returned_cons {p : Pool} {issued : List (Bytes × StringId)} (h : Returned p bs s) :
    ∀ bs' s', (bs', s') ∈ (bs, s) :: issued → (bs', s') ∈ issued ∨ Returned p bs' s' := by
  intro bs' s' hin
  rcases List.mem_cons.mp hin with e | hin
  · cases e
    exact .inr h
  · exact .inl hin

structure Inv (σ : Shared) : Prop where
  sound : σ.pool.Sound
  fits : ∀ t, (σ.stage t).Fits σ.pool
  exclusive : ∀ t u, (σ.stage t).locks = true → (σ.stage u).locks = true → t = u
  counted : σ.pool.Counted (σ.held.map Prod.snd)
  working : ∀ t s, (σ.stage t).handle? = some s → (some t, s) ∈ σ.held
  issued : ∀ bs s, (bs, s) ∈ σ.issued → Returned σ.pool bs s

namespace Inv

theorem initial : Inv initial where
  sound := sound_empty
  fits := fun _ => trivial
  exclusive := fun _ _ h => by cases h
  counted := ⟨fun s c hc => by simp [Shared.initial, cell?, Pool.empty] at hc, nofun⟩
  working := fun _ _ h => by cases h
  issued := nofun

/-- A step that no thread needs the lock for, and that leaves the stages alone. -/
theorem outside (h : σ.Inv) {p : Pool} {held : List (Option Nat × StringId)}
    {issued : List (Bytes × StringId)} (hp : p.Sound) (hl : σ.pool.Later p)
    (hb : p.buckets = σ.pool.buckets) (hc : p.Counted (held.map Prod.snd))
    (hw : ∀ u s, (some u, s) ∈ σ.held → (some u, s) ∈ held)
    (hi : ∀ bs s, (bs, s) ∈ issued → (bs, s) ∈ σ.issued ∨ Returned p bs s) :
    Inv ⟨p, σ.stage, held, issued⟩ where
  sound := hp
  fits := fun t => (h.fits t).later h.sound hl fun _ k => by unfold bucket; rw [hb]
  exclusive := h.exclusive
  counted := hc
  working := fun t s hs => hw t s (h.working t s hs)
  issued := fun bs s hs => (hi bs s hs).elim (fun e => (h.issued bs s e).later hl) id

/-- A thread goes to another stage.  It changes the buckets only if it has the lock. -/
theorem inside (h : σ.Inv) {p : Pool} {held : List (Option Nat × StringId)}
    {issued : List (Bytes × StringId)} (hp : p.Sound) (hl : σ.pool.Later p)
    (hb : (σ.stage t).locks = true ∨ p.buckets = σ.pool.buckets)
    (hlock : st.locks = true → (σ.stage t).locks = true ∨ σ.Free) (hst : st.Fits p)
    (hc : p.Counted (held.map Prod.snd))
    (hh : ∀ s, st.handle? = some s → (some t, s) ∈ held)
    (hw : ∀ u s, u ≠ t → (some u, s) ∈ σ.held → (some u, s) ∈ held)
    (hi : ∀ bs s, (bs, s) ∈ issued → (bs, s) ∈ σ.issued ∨ Returned p bs s) :
    Inv (goTo ⟨p, σ.stage, held, issued⟩ t st) := by
  have hself : Function.update σ.stage t st t = st := Function.update_self t st σ.stage
  have hother : ∀ u, u ≠ t → Function.update σ.stage t st u = σ.stage u :=
    fun u hu => Function.update_of_ne hu st σ.stage
  -- a thread that has the lock is the one that steps, if there is one that had it or gets it
  have hsole : ∀ u, u ≠ t → (σ.stage u).locks = true → (σ.stage t).locks = true → False :=
    fun u hu hul htl => hu (h.exclusive u t hul htl)
  constructor
  · exact hp
  · intro u
    by_cases hu : u = t
    · subst hu
      show (Function.update σ.stage u st u).Fits p
      rw [hself]
      exact hst
    · show (Function.update σ.stage t st u).Fits p
      rw [hother u hu]
      refine (h.fits u).later h.sound hl fun hul k => ?_
      rcases hb with hb | hb
      · exact (hsole u hu hul hb).elim
      · unfold bucket
        rw [hb]
  · have hnone : ∀ u, u ≠ t → (σ.stage u).locks = true → st.locks = true → False := by
      intro u hu hul hstl
      rcases hlock hstl with htl | hfree
      · exact hsole u hu hul htl
      · rw [hfree u] at hul
        cases hul
    intro u v hul hvl
    change (Function.update σ.stage t st u).locks = true at hul
    change (Function.update σ.stage t st v).locks = true at hvl
    by_cases hu : u = t
    · by_cases hv : v = t
      · rw [hu, hv]
      · rw [hu, hself] at hul
        rw [hother v hv] at hvl
        exact (hnone v hv hvl hul).elim
    · rw [hother u hu] at hul
      by_cases hv : v = t
      · rw [hv, hself] at hvl
        exact (hnone u hu hul hvl).elim
      · rw [hother v hv] at hvl
        exact h.exclusive u v hul hvl
  · exact hc
  · intro u s hs
    change (Function.update σ.stage t st u).handle? = some s at hs
    by_cases hu : u = t
    · subst hu
      rw [hself] at hs
      exact hh s hs
    · rw [hother u hu] at hs
      exact hw u s hu (h.working u s hs)
  · exact fun bs s hs => (hi bs s hs).elim (fun e => (h.issued bs s e).later hl) id

theorem turn (h : σ.Inv) (hlock : st.locks = true → (σ.stage t).locks = true ∨ σ.Free)
    (hst : st.Fits σ.pool) (hh : ∀ s, st.handle? = some s → (σ.stage t).handle? = some s) :
    Inv (σ.goTo t st) :=
  h.inside h.sound (later_of_cells rfl) (.inr rfl) hlock hst h.counted
    (fun s hs => h.working t s (hh s hs)) (fun _ _ _ hs => hs) fun _ _ hs => .inl hs

theorem stage_fits (h : σ.Inv) (ht : σ.stage t = st) : st.Fits σ.pool := ht ▸ h.fits t

theorem isLive_of_held (h : σ.Inv) {o : Option Nat} (hs : (o, s) ∈ σ.held) :
    σ.pool.isLive s = true := h.counted.isLive (List.mem_map_of_mem hs)

/-! ### interning and handles -/

theorem hit (h : σ.Inv) {slot : CacheSlot} (found : σ.pool.cached? slot bs = some s) :
    Inv { σ with
      pool := σ.pool.clone s, held := (none, s) :: σ.held, issued := (bs, s) :: σ.issued } := by
  obtain ⟨hpooled, hlive⟩ := h.sound.pooled_of_cached found
  have hl := (fades_clone hlive).later
  exact h.outside (h.sound.clone hlive) hl rfl (h.counted.clone hlive)
    (fun _ _ => List.mem_cons_of_mem _) (returned_cons (returned_of_pooled (hpooled.later hl)))

theorem long (h : σ.Inv) (long : shortLimit < bs.size) :
    Inv { σ with
      pool := (σ.pool.own bs).1, held := (none, (σ.pool.own bs).2) :: σ.held,
      issued := (bs, (σ.pool.own bs).2) :: σ.issued } := by
  refine h.outside (h.sound.own bs) (later_allocate _ bs false) rfl (h.counted.allocate bs false)
    (fun _ _ => List.mem_cons_of_mem _) (returned_cons ?_)
  refine ⟨_, (cell?_allocate _ bs false _).trans (if_pos rfl), rfl, fun hshort => ?_⟩
  exact absurd hshort (Nat.not_le_of_lt long)

theorem clone (h : σ.Inv) (held : (none, s) ∈ σ.held) :
    Inv { σ with pool := σ.pool.clone s, held := (none, s) :: σ.held } := by
  have hlive := h.isLive_of_held held
  exact h.outside (h.sound.clone hlive) (fades_clone hlive).later rfl (h.counted.clone hlive)
    (fun _ _ => List.mem_cons_of_mem _) fun _ _ => .inl

theorem drop (h : σ.Inv) (held : (none, s) ∈ σ.held) :
    Inv { σ with pool := σ.pool.drop s, held := σ.held.erase (none, s) } := by
  refine h.outside (h.sound.drop s) (fades_drop _ s).later rfl (h.counted.release held)
    (fun u v hv => ?_) fun _ _ => .inl
  exact (List.mem_erase_of_ne (by simp)).mpr hv

theorem store (h : σ.Inv) (entered : σ.stage t = .entered bs s) (slot : CacheSlot) :
    Inv (goTo { σ with
      pool := σ.pool.setCache slot s
      held := (none, s) :: σ.held.erase (some t, s)
      issued := (bs, s) :: σ.issued } t .idle) := by
  have hpooled : σ.pool.Pooled s bs := h.stage_fits entered
  have hin : (some t, s) ∈ σ.held := h.working t s (by rw [entered]; rfl)
  refine h.inside (h.sound.setCache hpooled _) (later_of_cells rfl) (.inr rfl) nofun trivial
    (Counted.of_cells (h.counted.handOver hin) rfl) nofun (fun u v hu hv => ?_)
    (returned_cons (returned_of_pooled hpooled))
  refine List.mem_cons_of_mem _ ((List.mem_erase_of_ne ?_).mpr hv)
  intro e
  exact hu (Option.some.inj (Prod.mk.inj e).1)

/-! ### under the lock -/

section
variable {rest kept : List StringId}

theorem find (h : σ.Inv) (scanning : σ.stage t = .scanning bs (s :: rest) kept none)
    (live : σ.pool.isLive s = true) (same : σ.pool.hasBytes s bs = true) :
    Inv (goTo { σ with pool := σ.pool.clone s, held := (some t, s) :: σ.held } t
      (.scanning bs rest (kept ++ [s]) (some s))) := by
  have hfits := h.stage_fits scanning
  refine h.inside (h.sound.clone live) (fades_clone live).later (.inr rfl)
    (fun _ => .inl (by rw [scanning]; rfl)) (hfits.find (hfits.pooled h.sound same) live)
    (h.counted.clone live) ?_ (fun _ _ _ => List.mem_cons_of_mem _) fun _ _ => .inl
  intro u hu
  cases hu
  exact List.mem_cons_self

theorem keep (h : σ.Inv) (scanning : σ.stage t = .scanning bs [] kept (some s)) :
    Inv (goTo { σ with pool := σ.pool.keep bs.fnv1a kept } t (.entered bs s)) := by
  obtain ⟨hsub, hlive, -, hsome⟩ := h.stage_fits scanning
  rw [List.append_nil] at hsub hlive
  refine h.inside (h.sound.keep hsub hlive) (later_of_cells rfl) (.inl (by rw [scanning]; rfl))
    nofun ?_ (h.counted.of_cells rfl) ?_ (fun _ _ _ => id) fun _ _ => .inl
  · exact (hsome s rfl).later (later_of_cells rfl)
  · intro u hu
    exact h.working t u (by rw [scanning]; exact hu)

theorem add (h : σ.Inv) (scanning : σ.stage t = .scanning bs [] kept none) :
    Inv (goTo { σ with
        pool := σ.pool.add bs kept, held := (some t, ⟨σ.pool.cells.size⟩) :: σ.held } t
      (if (σ.pool.add bs kept).sweepAt ≤ (σ.pool.add bs kept).count then
        .sweeping (some (bs, ⟨σ.pool.cells.size⟩)) (σ.pool.add bs kept).entries
          (σ.pool.add bs kept).isLive
      else .entered bs ⟨σ.pool.cells.size⟩)) := by
  obtain ⟨hsub, hlive, hnone, -⟩ := h.stage_fits scanning
  rw [List.append_nil] at hsub hlive
  refine h.inside (h.sound.add hsub hlive (hnone rfl)) (later_add σ.pool bs kept)
    (.inl (by rw [scanning]; rfl)) (fun _ => .inl (by rw [scanning]; rfl))
    (Stage.fits_added σ.pool bs kept) ((h.counted.allocate bs true).of_cells rfl) ?_
    (fun _ _ _ => List.mem_cons_of_mem _) fun _ _ => .inl
  intro u hu
  split at hu <;>
  · cases hu
    exact List.mem_cons_self

theorem sweep (h : σ.Inv) {after : Option (Bytes × StringId)} {alive : StringId → Bool}
    (sweeping : σ.stage t = .sweeping after [] alive) :
    Inv (goTo { σ with pool := σ.pool.sweepBy alive } t (Stage.afterSweep after)) := by
  have hfits := h.stage_fits sweeping
  have hl : σ.pool.Later (σ.pool.sweepBy alive) := later_of_cells rfl
  refine h.inside (h.sound.sweepBy hfits.1) hl (.inl (by rw [sweeping]; rfl)) ?_
    (hfits.afterSweep hl) (h.counted.of_cells rfl) ?_ (fun _ _ _ => id) fun _ _ => .inl
  · intro hlock
    rw [Stage.locks_afterSweep] at hlock
    cases hlock
  · intro u hu
    rw [Stage.handle?_afterSweep, ← sweeping] at hu
    exact h.working t u hu

end

theorem step (h : σ.Inv) (hs : Step σ τ) : τ.Inv := by
  cases hs with
  | hit _ _ found => exact h.hit found
  | miss _ _ _ => exact h.turn nofun trivial nofun
  | long _ long => exact h.long long
  | @own bs =>
    exact h.outside (h.sound.own bs) (later_allocate _ bs false) rfl (h.counted.allocate bs false)
      (fun _ _ => List.mem_cons_of_mem _) fun _ _ => .inl
  | clone held => exact h.clone held
  | drop held => exact h.drop held
  | lock _ free =>
    exact h.turn (fun _ => .inr free) ⟨.refl _, fun _ hs _ => hs, nofun, nofun⟩ nofun
  | leaveOut scanning released =>
    exact h.turn (fun _ => .inl (by rw [scanning]; rfl))
      ((h.stage_fits scanning).leaveOut released) (fun u hu => by rw [scanning]; exact hu)
  | pass scanning _ other =>
    exact h.turn (fun _ => .inl (by rw [scanning]; rfl)) ((h.stage_fits scanning).pass other)
      (fun u hu => by rw [scanning]; exact hu)
  | find scanning live same => exact h.find scanning live same
  | keep scanning => exact h.keep scanning
  | add scanning => exact h.add scanning
  | count _ free => exact h.turn (fun _ => .inr free) ⟨fun _ _ _ => id, nofun⟩ nofun
  | inspect sweeping =>
    exact h.turn (fun _ => .inl (by rw [sweeping]; rfl)) (h.stage_fits sweeping).inspect
      (fun u hu => by rw [sweeping]; exact hu)
  | sweep sweeping => exact h.sweep sweeping
  | store entered => exact h.store entered _

theorem run (h : σ.Inv) (hr : Run σ τ) : τ.Inv := by
  induction hr with
  | refl => exact h
  | tail _ hs ih => exact ih.step hs

end Inv

end Shared

theorem enter_eq (p : Pool) (bs : Bytes) :
    p.enter bs =
      match ((p.bucket bs.fnv1a).filter p.isLive).find? (p.hasBytes · bs) with
      | some s => ((p.clone s).keep bs.fnv1a ((p.bucket bs.fnv1a).filter p.isLive), s)
      | none =>
        let q := p.add bs ((p.bucket bs.fnv1a).filter p.isLive)
        (if q.sweepAt ≤ q.count then q.sweep else q, ⟨p.cells.size⟩) := by
  unfold enter
  dsimp only
  show (match ((p.bucket bs.fnv1a).filter p.isLive).find? (p.hasBytes · bs) with
    | some s => _
    | none => _) = _
  cases ((p.bucket bs.fnv1a).filter p.isLive).find? (p.hasBytes · bs) <;> rfl

namespace Shared

/-! ## a thread that is not interrupted -/

section uninterrupted

variable {f : Nat → Stage} {t : Nat} {p q : Pool} {held held' : List (Option Nat × StringId)}
  {issued issued' : List (Bytes × StringId)} {st st' : Stage} {bs : Bytes} {s : StringId}

/-- A thread stands somewhere, and the others stand where they stood. -/
def standing (f : Nat → Stage) (t : Nat) (st : Stage) (p : Pool)
    (held : List (Option Nat × StringId)) (issued : List (Bytes × StringId)) : Shared :=
  ⟨p, Function.update f t st, held, issued⟩

theorem stage_standing : (standing f t st p held issued).stage t = st := by
  show Function.update f t st t = st
  rw [Function.update_self]

theorem move
    (h : Step (standing f t st p held issued)
      (goTo ⟨q, Function.update f t st, held', issued'⟩ t st')) :
    Step (standing f t st p held issued) (standing f t st' q held' issued') := by
  unfold goTo at h
  rwa [Function.update_idem] at h

theorem run_pass {rest kept : List StringId} {found : Option StringId}
    (hf : found ≠ none ∨ ∀ s ∈ rest, p.isLive s = true → p.hasBytes s bs = false) :
    Run (standing f t (.scanning bs rest kept found) p held issued)
      (standing f t (.scanning bs [] (kept ++ rest.filter p.isLive) found) p held issued) := by
  induction rest generalizing kept with
  | nil =>
    rw [List.filter_nil, List.append_nil]
  | cons s rest ih =>
    have hf' : found ≠ none ∨ ∀ s ∈ rest, p.isLive s = true → p.hasBytes s bs = false :=
      hf.imp id fun hall u hu => hall u (List.mem_cons_of_mem _ hu)
    cases hlive : p.isLive s with
    | false =>
      rw [List.filter_cons_of_neg (by simp [hlive])]
      exact .head (move (.leaveOut stage_standing hlive)) (ih hf')
    | true =>
      have hother := hf.imp id fun hall => hall s List.mem_cons_self hlive
      rw [List.filter_cons_of_pos hlive, List.append_cons]
      exact .head (move (.pass stage_standing hlive hother)) (ih hf')

/-- Looking through entries up to the one that has the bytes, and through the others. -/
theorem run_find {rest kept : List StringId}
    (hf : (rest.filter p.isLive).find? (p.hasBytes · bs) = some s) :
    Run (standing f t (.scanning bs rest kept none) p held issued)
      (standing f t (.scanning bs [] (kept ++ rest.filter p.isLive) (some s)) (p.clone s)
        ((some t, s) :: held) issued) := by
  induction rest generalizing kept with
  | nil => cases hf
  | cons u rest ih =>
    cases hlive : p.isLive u with
    | false =>
      rw [List.filter_cons_of_neg (by simp [hlive])] at hf ⊢
      exact .head (move (.leaveOut stage_standing hlive)) (ih hf)
    | true =>
      rw [List.filter_cons_of_pos hlive] at hf ⊢
      rw [List.append_cons]
      cases hbytes : p.hasBytes u bs with
      | false =>
        rw [List.find?_cons_of_neg (by simp [hbytes])] at hf
        exact .head (move (.pass stage_standing hlive (.inr hbytes))) (ih hf)
      | true =>
        rw [List.find?_cons_of_pos (by simp [hbytes])] at hf
        cases hf
        refine .head (move (.find stage_standing hlive hbytes)) ?_
        rw [← isLive_clone hlive]
        exact run_pass (.inl nofun)

theorem run_sweep {after : Option (Bytes × StringId)} {rest : List StringId} :
    Run (standing f t (.sweeping after rest p.isLive) p held issued)
      (standing f t (Stage.afterSweep after) p.sweep held issued) := by
  induction rest with
  | nil =>
    rw [sweep_eq]
    exact .single (move (.sweep stage_standing))
  | cons s rest ih =>
    have hs : Step (standing f t (.sweeping after (s :: rest) p.isLive) p held issued)
        (standing f t (.sweeping after rest (Function.update p.isLive s (p.isLive s))) p held
          issued) := move (.inspect stage_standing)
    rw [Function.update_eq_self] at hs
    exact .head hs ih

theorem run_enter (hfree : ∀ u, (f u).locks = false) :
    Run (standing f t (.missed bs) p held issued)
      (standing f t (.entered bs (p.enter bs).2) (p.enter bs).1
        ((some t, (p.enter bs).2) :: held) issued) := by
  have hlock : Step (standing f t (.missed bs) p held issued)
      (standing f t (.scanning bs (p.bucket bs.fnv1a) [] none) p held issued) := by
    refine move (.lock stage_standing fun u => ?_)
    show (Function.update f t (.missed bs) u).locks = false
    by_cases hu : u = t
    · rw [hu, Function.update_self]
      rfl
    · rw [Function.update_of_ne hu]
      exact hfree u
  refine .head hlock ?_
  rw [enter_eq]
  cases hf : ((p.bucket bs.fnv1a).filter p.isLive).find? (p.hasBytes · bs) with
  | some s => exact (run_find hf).tail (move (.keep stage_standing))
  | none =>
    have hnone : ∀ s ∈ p.bucket bs.fnv1a, p.isLive s = true → p.hasBytes s bs = false := by
      intro s hs hl
      simpa using List.find?_eq_none.mp hf s (List.mem_filter.mpr ⟨hs, hl⟩)
    refine (run_pass (.inr hnone)).trans ?_
    rw [List.nil_append]
    dsimp only
    generalize (p.bucket bs.fnv1a).filter p.isLive = kept
    have hadd : Step (standing f t (.scanning bs [] kept none) p held issued)
        (standing f t
          (if (p.add bs kept).sweepAt ≤ (p.add bs kept).count then
            .sweeping (some (bs, ⟨p.cells.size⟩)) (p.add bs kept).entries (p.add bs kept).isLive
          else .entered bs ⟨p.cells.size⟩)
          (p.add bs kept) ((some t, ⟨p.cells.size⟩) :: held) issued) :=
      move (.add stage_standing)
    refine .head hadd ?_
    split
    · exact run_sweep
    · exact .refl

end uninterrupted

variable {σ : Shared} {t : Nat}

/-- **Interning without interruption.** -/
theorem run_intern (h : σ.stage t = .idle) (hfree : σ.Free) (bs : Bytes) :
    Run σ ⟨(σ.pool.intern t bs).1, σ.stage, (none, (σ.pool.intern t bs).2) :: σ.held,
      (bs, (σ.pool.intern t bs).2) :: σ.issued⟩ := by
  unfold intern
  split
  · rename_i hlong
    exact .single (.long h hlong)
  · rename_i hshort
    dsimp only
    cases hc : σ.pool.cached? (slotOf t bs.fnv1a) bs with
    | some s => exact .single (.hit h (Nat.le_of_not_lt hshort) hc)
    | none =>
      dsimp only
      have hmiss : Step σ (standing σ.stage t (.missed bs) σ.pool σ.held σ.issued) :=
        .miss h (Nat.le_of_not_lt hshort) hc
      refine .head hmiss ((run_enter hfree).tail ?_)
      have hstore := move (.store (stage_standing : (standing σ.stage t
        (.entered bs (σ.pool.enter bs).2) (σ.pool.enter bs).1
        ((some t, (σ.pool.enter bs).2) :: σ.held) σ.issued).stage t = _))
      unfold standing at hstore ⊢
      rwa [List.erase_cons_head, ← h, Function.update_eq_self] at hstore

/-- **Counting the live strings without interruption.** -/
theorem run_liveCount (h : σ.stage t = .idle) (hfree : σ.Free) :
    Run σ { σ with pool := σ.pool.liveCount.1 } := by
  have hcount : Step σ (standing σ.stage t (.sweeping none σ.pool.entries σ.pool.isLive) σ.pool
      σ.held σ.issued) := .count h hfree
  refine .head hcount (run_sweep.trans ?_)
  unfold standing Stage.afterSweep
  dsimp only
  rw [← h, Function.update_eq_self]
  exact .refl

/-! ## canonical strings -/

/-- **Interning is canonical.**  Whatever threads do, in whichever order their steps come: interning
returns strings with the bytes asked for; short strings that were returned for the same bytes, and
to which the program still has handles, are the same string; and the bucket of a pooled string that
is alive has its entry, and no other one of a live string with its bytes.  The pool's own operations
are steps of a thread that is not interrupted. -/
theorem interning_canonical {σ : Shared} (hr : Run initial σ) :
    (∀ bs s, (bs, s) ∈ σ.issued → ∃ c, σ.pool.cell? s = some c ∧ c.bytes = bs) ∧
    (∀ bs s u, bs.size ≤ shortLimit → (bs, s) ∈ σ.issued → (bs, u) ∈ σ.issued →
      (none, s) ∈ σ.held → (none, u) ∈ σ.held → s = u) ∧
    (∀ s c, σ.pool.cell? s = some c → c.interned = true → 0 < c.handles →
      c.hash = c.bytes.fnv1a ∧
      (σ.pool.bucket c.hash).filter (fun e => σ.pool.isLive e && σ.pool.hasBytes e c.bytes) = [s]) ∧
    (∀ t, σ.stage t = .idle → σ.Free →
      (∀ bs, Run initial ⟨(σ.pool.intern t bs).1, σ.stage,
        (none, (σ.pool.intern t bs).2) :: σ.held, (bs, (σ.pool.intern t bs).2) :: σ.issued⟩) ∧
      Run initial { σ with pool := σ.pool.liveCount.1 }) := by
  have h : σ.Inv := Inv.initial.run hr
  refine ⟨fun bs s hs => ?_, fun bs s u hshort hs hu hsh huh => ?_, fun s c hc hi hl => ⟨?_, ?_⟩,
    fun t ht hfree => ⟨fun bs => hr.trans (run_intern ht hfree bs),
      hr.trans (run_liveCount ht hfree)⟩⟩
  · obtain ⟨c, hc, hb, -⟩ := h.issued bs s hs
    exact ⟨c, hc, hb⟩
  · obtain ⟨c, hc, hcb, hci⟩ := h.issued bs s hs
    obtain ⟨d, hd, hdb, hdi⟩ := h.issued bs u hu
    obtain ⟨c', hc', hcl⟩ := isLive_iff.mp (h.isLive_of_held hsh)
    obtain ⟨d', hd', hdl⟩ := isLive_iff.mp (h.isLive_of_held huh)
    cases hc.symm.trans hc'
    cases hd.symm.trans hd'
    exact h.sound.unique s u c d hc hd (hci hshort) (hdi hshort) hcl hdl (hcb.trans hdb.symm)
  · exact h.sound.hash s c hc
  · exact h.sound.filter_bucket hc hi hl

/-- Two threads that intern the same name get the same string. -/
theorem interning_canonical_two_threads :
    ((Pool.empty.intern 0 (Bytes.ofString "__index")).1.intern 1 (Bytes.ofString "__index")).2
      = (Pool.empty.intern 0 (Bytes.ofString "__index")).2 := by
  have idle : ∀ p held issued, Free ⟨p, fun _ => .idle, held, issued⟩ := fun _ _ _ _ => rfl
  have h₁ : Run initial _ := run_intern (t := 0) rfl (idle _ _ _) (Bytes.ofString "__index")
  have h₂ := h₁.trans (run_intern (t := 1) rfl (idle _ _ _) (Bytes.ofString "__index"))
  exact (interning_canonical h₂).2.1 (Bytes.ofString "__index") _ _ (by decide)
    List.mem_cons_self (List.mem_cons_of_mem _ List.mem_cons_self)
    List.mem_cons_self (List.mem_cons_of_mem _ List.mem_cons_self)

end Shared

end LuaMachine.Pool
