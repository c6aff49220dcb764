import Mathlib.Data.Finset.Card
import LuaMachine.Proofs.Interning

/-!
# The entries of the pool are counted

The pool counts its entries.  A look-up takes off those that it leaves out and adds the one that it
enters; a sweep counts anew.  Strings are released without the pool being told, so in between there
are entries for nothing, and only after a sweep the counter is the number of live strings.

* `Pool.entries_perm`, `Pool.entries_sweepBy`   all entries, bucket by bucket;
* `Pool.Tallied`         the counter says how many entries there are;
* `Pool.bytesOf`         the bytes of a string; no two live entries have the same;
* `Shared.Tally`         what is known of the entries and the handles at every moment of a run;
* `Shared.contents`      the short contents that the program has from interning;
* `Shared.pool_accounting`   the counter, what a sweep keeps, and what counting gives.
-/

namespace LuaMachine.Pool

variable {p q : Pool} {s : StringId} {bs : Bytes} {k : UInt64}

/-! ## all entries -/

def entriesApart (p : Pool) (k : UInt64) : List StringId :=
  (p.buckets.toList.filter fun x => !(k == x.1)).flatMap Prod.snd

theorem nodup_buckets (p : Pool) : p.buckets.toList.Nodup := by
  refine Std.HashMap.distinct_keys_toList.imp ?_
  rintro x y h rfl
  rw [BEq.rfl] at h
  cases h

theorem bucket_of_mem {x : UInt64 × List StringId} (hx : x ∈ p.buckets.toList) :
    p.bucket x.1 = x.2 := by
  unfold bucket
  rw [Std.HashMap.getD_eq_getD_getElem?, Std.HashMap.mem_toList_iff_getElem?_eq_some.mp hx]
  rfl

theorem bucket_perm (p : Pool) (k : UInt64) :
    ((p.buckets.toList.filter fun x => k == x.1).flatMap Prod.snd).Perm (p.bucket k) := by
  have hp : (p.buckets.toList.filter fun x => k == x.1).Perm
      (p.buckets[k]?.map fun es => (k, es)).toList := by
    refine (List.perm_ext_iff_of_nodup (p.nodup_buckets.filter _) ?_).mpr ?_
    · cases p.buckets[k]? with
      | none => exact List.nodup_nil
      | some es => exact List.nodup_singleton _
    · rintro ⟨k', es⟩
      rw [List.mem_filter, Std.HashMap.mem_toList_iff_getElem?_eq_some, beq_iff_eq,
        Option.mem_toList, Option.map_eq_some_iff]
      constructor
      · rintro ⟨he, rfl⟩
        exact ⟨es, he, rfl⟩
      · rintro ⟨_, he, e⟩
        cases e
        exact ⟨he, rfl⟩
  refine (hp.flatMap_right _).trans (.of_eq ?_)
  unfold bucket
  rw [Std.HashMap.getD_eq_getD_getElem?]
  cases p.buckets[k]? with
  | none => rfl
  | some es => exact List.append_nil es

theorem entries_perm (p : Pool) (k : UInt64) :
    p.entries.Perm (p.bucket k ++ p.entriesApart k) := by
  have hp := List.filter_append_perm (fun x => k == x.1) p.buckets.toList
  refine (hp.symm.flatMap_right Prod.snd).trans ?_
  rw [List.flatMap_append]
  exact (p.bucket_perm k).append_right _

theorem entries_setBucket (p : Pool) (k : UInt64) (es : List StringId) :
    (p.setBucket k es).entries.Perm (es ++ p.entriesApart k) := by
  refine (Std.HashMap.toList_insert_perm.flatMap_right Prod.snd).trans ?_
  rw [List.flatMap_cons]
  refine .of_eq ?_
  unfold entriesApart
  congr 3
  funext x
  cases k == x.1 <;> rfl

theorem entries_sweepBy (p : Pool) (alive : StringId → Bool) :
    (p.sweepBy alive).entries.Perm (p.entries.filter alive) := by
  refine (Std.HashMap.toList_filterMap.flatMap_right Prod.snd).trans (.of_eq ?_)
  unfold entries
  induction p.buckets.toList with
  | nil => rfl
  | cons x xs ih =>
    rw [List.flatMap_cons, List.filter_append, ← ih, List.filterMap_cons]
    unfold survivorsBy
    cases x.2.filter alive <;> rfl

theorem count_sweepBy (p : Pool) (alive : StringId → Bool) :
    (p.sweepBy alive).count = (p.sweepBy alive).entries.length := by
  have key : ∀ (l : List (UInt64 × List StringId)) (n : Nat),
      l.foldl (fun n x => n + x.2.length) n = n + (l.flatMap Prod.snd).length := by
    intro l
    induction l with
    | nil => exact fun _ => rfl
    | cons x l ih =>
      intro n
      rw [List.foldl_cons, ih, List.flatMap_cons, List.length_append, Nat.add_assoc]
  show Std.HashMap.fold _ 0 _ = _
  rw [Std.HashMap.fold_eq_foldl_toList, key, Nat.zero_add]
  rfl

theorem mem_entries (p : Pool) : s ∈ p.entries ↔ ∃ k, s ∈ p.bucket k := by
  constructor
  · intro hs
    obtain ⟨x, hx, hs⟩ := List.mem_flatMap.mp hs
    rw [← bucket_of_mem hx] at hs
    exact ⟨x.1, hs⟩
  · rintro ⟨k, hs⟩
    exact (p.entries_perm k).symm.subset (List.mem_append_left _ hs)

theorem Sound.nodup_entries (h : p.Sound) : p.entries.Nodup := by
  refine List.nodup_flatMap.mpr ⟨fun x hx => ?_, ?_⟩
  · rw [← bucket_of_mem hx]
    exact h.nodup x.1
  · refine Std.HashMap.distinct_keys_toList.imp_of_mem ?_
    intro x y hx hy hne s hsx hsy
    rw [← bucket_of_mem hx] at hsx
    rw [← bucket_of_mem hy] at hsy
    obtain ⟨c, hc, -, hcx⟩ := h.entry _ s hsx
    obtain ⟨d, hd, -, hdy⟩ := h.entry _ s hsy
    cases hc.symm.trans hd
    rw [← hcx, ← hdy, BEq.rfl] at hne
    cases hne

def bytesOf (p : Pool) (s : StringId) : Bytes := ((p.cell? s).map Cell.bytes).getD #[]

theorem bytesOf_eq {c : Cell} (hc : p.cell? s = some c) : p.bytesOf s = c.bytes := by
  unfold bytesOf
  rw [hc]
  rfl

theorem Sound.mem_live_entries (h : p.Sound) : s ∈ p.entries.filter p.isLive ↔
    ∃ c, p.cell? s = some c ∧ c.interned = true ∧ 0 < c.handles := by
  rw [List.mem_filter, mem_entries]
  constructor
  · rintro ⟨⟨k, hk⟩, hl⟩
    obtain ⟨c, hc, hi, -⟩ := h.entry k s hk
    obtain ⟨d, hd, hpos⟩ := isLive_iff.mp hl
    cases hc.symm.trans hd
    exact ⟨c, hc, hi, hpos⟩
  · rintro ⟨c, hc, hi, hpos⟩
    exact ⟨⟨_, h.present s c hc hi hpos⟩, isLive_iff.mpr ⟨c, hc, hpos⟩⟩

theorem Sound.nodup_bytes (h : p.Sound) : ((p.entries.filter p.isLive).map p.bytesOf).Nodup := by
  refine (h.nodup_entries.filter _).map_on fun s hs u hu he => ?_
  obtain ⟨c, hc, hci, hcl⟩ := h.mem_live_entries.mp hs
  obtain ⟨d, hd, hdi, hdl⟩ := h.mem_live_entries.mp hu
  rw [bytesOf_eq hc, bytesOf_eq hd] at he
  exact h.unique s u c d hc hd hci hdi hcl hdl he

/-! ## the counter -/

/-- The counter says how many entries there are. -/
def Tallied (p : Pool) : Prop := p.count = p.entries.length

theorem tallied_empty : empty.Tallied := by
  show 0 = ((∅ : Std.HashMap UInt64 (List StringId)).toList.flatMap Prod.snd).length
  rw [Std.HashMap.toList_empty]
  rfl

theorem tallied_sweepBy (p : Pool) (alive : StringId → Bool) : (p.sweepBy alive).Tallied :=
  count_sweepBy p alive

namespace Tallied

variable {kept : List StringId}

theorem congr (h : p.Tallied) (hb : q.buckets = p.buckets) (hc : q.count = p.count) :
    q.Tallied := by
  unfold Tallied entries
  rw [hb, hc]
  exact h

theorem length_bucket_le (h : p.Tallied) (k : UInt64) : (p.bucket k).length ≤ p.count := by
  rw [h, (p.entries_perm k).length_eq, List.length_append]
  exact Nat.le_add_right _ _

theorem setBucket {es : List StringId} (h : p.Tallied) (hb : q.buckets = p.buckets)
    (hc : q.count + (p.bucket k).length = p.count + es.length) : (q.setBucket k es).Tallied := by
  have hapart : q.entriesApart k = p.entriesApart k := by
    unfold entriesApart
    rw [hb]
  have hold := (p.entries_perm k).length_eq
  have hnew := (q.entries_setBucket k es).length_eq
  rw [List.length_append] at hold hnew
  rw [hapart] at hnew
  unfold Tallied at h ⊢
  show q.count = _
  omega

theorem keep (h : p.Tallied) (hle : kept.length ≤ (p.bucket k).length) :
    (p.keep k kept).Tallied := by
  have hmany := h.length_bucket_le k
  refine h.setBucket rfl ?_
  show p.count - ((p.bucket k).length - kept.length) + (p.bucket k).length = _
  omega

theorem add (h : p.Tallied) (hle : kept.length ≤ (p.bucket bs.fnv1a).length) :
    (p.add bs kept).Tallied := by
  have hmany := h.length_bucket_le bs.fnv1a
  refine h.setBucket rfl ?_
  show p.count - ((p.bucket bs.fnv1a).length - kept.length) + 1 + (p.bucket bs.fnv1a).length = _
  rw [List.length_append, List.length_singleton]
  omega

end Tallied

/-! ## what the pool's strings are -/

/-- Another pool whose pooled strings were pooled before, with the same bytes. -/
def Keeps (p q : Pool) : Prop :=
  ∀ s c, q.cell? s = some c → c.interned = true →
    ∃ d, p.cell? s = some d ∧ d.bytes = c.bytes ∧ d.interned = true

theorem keeps_of_cells (h : q.cells = p.cells) : p.Keeps q := by
  intro s c hc hi
  unfold cell? at hc ⊢
  rw [h] at hc
  exact ⟨c, hc, rfl, hi⟩

theorem Fades.keeps (h : p.Fades q) : p.Keeps q := by
  intro s c hc hi
  rcases h s with ⟨_, hn⟩ | ⟨d, n, hd, hq, _⟩
  · cases hn.symm.trans hc
  · cases hq.symm.trans hc
    exact ⟨d, hd, rfl, hi⟩

theorem keeps_own (p : Pool) (bs : Bytes) : p.Keeps (p.own bs).1 := by
  intro s c hc hi
  unfold own at hc
  rw [cell?_allocate] at hc
  split at hc
  · cases hc
    cases hi
  · exact ⟨c, hc, rfl, hi⟩

theorem Later.trans {r : Pool} (h : p.Later q) (h' : q.Later r) : p.Later r := by
  intro s c hc
  obtain ⟨n, hq, hn⟩ := h s c hc
  obtain ⟨m, hr, hm⟩ := h' s _ hq
  exact ⟨m, hr, hn ∘ hm⟩

theorem later_enter (p : Pool) (bs : Bytes) : p.Later (p.enter bs).1 := by
  rw [enter_eq]
  cases hf : ((p.bucket bs.fnv1a).filter p.isLive).find? (p.hasBytes · bs) with
  | some s =>
    obtain ⟨_, hl⟩ := List.mem_filter.mp (List.mem_of_find?_eq_some hf)
    exact (fades_clone hl).later.trans (later_of_cells rfl)
  | none =>
    dsimp only
    generalize (p.bucket bs.fnv1a).filter p.isLive = kept
    split
    · exact (later_add p bs kept).trans (later_of_cells rfl)
    · exact later_add p bs kept

theorem later_intern (p : Pool) (t : Nat) (bs : Bytes) : p.Later (p.intern t bs).1 := by
  unfold intern
  split
  · exact later_allocate p bs false
  · dsimp only
    cases hc : p.cached? (slotOf t bs.fnv1a) bs with
    | some s =>
      obtain ⟨_, hok⟩ := Option.filter_eq_some_iff.mp hc
      exact (fades_clone (Bool.and_eq_true_iff.mp hok).1).later
    | none => exact (later_enter p bs).trans (later_of_cells rfl)

def Stage.bytes? : Stage → Option Bytes
  | .missed bs => some bs
  | .scanning bs _ _ _ => some bs
  | _ => none

namespace Shared

variable {σ τ : Shared} {t : Nat} {st : Stage}

/-- What is known of the entries and of the handles at every moment: the entries are counted; what
is pooled is short, and was returned or is about to be; and an operation has the one handle that it
will return. -/
structure Tally (σ : Shared) : Prop where
  tallied : σ.pool.Tallied
  wanted : ∀ t bs, (σ.stage t).bytes? = some bs → bs.size ≤ shortLimit
  pooled : ∀ s c, σ.pool.cell? s = some c → c.interned = true → c.bytes.size ≤ shortLimit ∧
    ((c.bytes, s) ∈ σ.issued ∨ ∃ t, (σ.stage t).handle? = some s)
  lent : ∀ t s, σ.held.count (some t, s) = if (σ.stage t).handle? = some s then 1 else 0

namespace Tally

theorem initial : Tally initial where
  tallied := tallied_empty
  wanted := nofun
  pooled := fun s c hc => by simp [Shared.initial, cell?, Pool.empty] at hc
  lent := fun _ _ => rfl

theorem outside (h : σ.Tally) {p : Pool} {held : List (Option Nat × StringId)}
    {issued : List (Bytes × StringId)} (hb : p.buckets = σ.pool.buckets)
    (hn : p.count = σ.pool.count) (hk : σ.pool.Keeps p)
    (hl : ∀ t s, held.count (some t, s) = σ.held.count (some t, s))
    (hi : ∀ x ∈ σ.issued, x ∈ issued) : Tally ⟨p, σ.stage, held, issued⟩ where
  tallied := h.tallied.congr hb hn
  wanted := h.wanted
  pooled := by
    intro s c hc hint
    obtain ⟨d, hd, hbytes, hdi⟩ := hk s c hc hint
    obtain ⟨hshort, hret⟩ := h.pooled s d hd hdi
    rw [hbytes] at hshort hret
    exact ⟨hshort, hret.imp_left (hi _)⟩
  lent := fun t s => (hl t s).trans (h.lent t s)

theorem inside (h : σ.Tally) {p : Pool} {held : List (Option Nat × StringId)}
    {issued : List (Bytes × StringId)} (hp : p.Tallied)
    (hw : ∀ bs, st.bytes? = some bs → bs.size ≤ shortLimit)
    (hk : ∀ s c, p.cell? s = some c → c.interned = true →
      (∃ d, σ.pool.cell? s = some d ∧ d.bytes = c.bytes ∧ d.interned = true) ∨
      c.bytes.size ≤ shortLimit ∧ st.handle? = some s)
    (hr : ∀ s c, p.cell? s = some c → (σ.stage t).handle? = some s →
      (c.bytes, s) ∈ issued ∨ st.handle? = some s)
    (hself : ∀ s, held.count (some t, s) = if st.handle? = some s then 1 else 0)
    (hl : ∀ u s, u ≠ t → held.count (some u, s) = σ.held.count (some u, s))
    (hi : ∀ x ∈ σ.issued, x ∈ issued) : Tally (goTo ⟨p, σ.stage, held, issued⟩ t st) := by
  have hat : (goTo ⟨p, σ.stage, held, issued⟩ t st).stage t = st := by
    show Function.update σ.stage t st t = st
    rw [Function.update_self]
  have hoff : ∀ u, u ≠ t → (goTo ⟨p, σ.stage, held, issued⟩ t st).stage u = σ.stage u := by
    intro u hu
    show Function.update σ.stage t st u = σ.stage u
    rw [Function.update_of_ne hu]
  refine ⟨hp, fun u bs hu => ?_, fun s c hc hint => ?_, fun u s => ?_⟩
  · by_cases e : u = t
    · rw [e, hat] at hu
      exact hw bs hu
    · rw [hoff u e] at hu
      exact h.wanted u bs hu
  · rcases hk s c hc hint with ⟨d, hd, hbytes, hdi⟩ | ⟨hshort, hhas⟩
    · obtain ⟨hshort, hret⟩ := h.pooled s d hd hdi
      rw [hbytes] at hshort hret
      refine ⟨hshort, ?_⟩
      rcases hret with hret | ⟨u, hu⟩
      · exact .inl (hi _ hret)
      · by_cases e : u = t
        · subst e
          exact (hr s c hc hu).imp_right fun hst => ⟨u, by rw [hat]; exact hst⟩
        · exact .inr ⟨u, by rw [hoff u e]; exact hu⟩
    · exact ⟨hshort, .inr ⟨t, by rw [hat]; exact hhas⟩⟩
  · by_cases e : u = t
    · rw [e, hat]
      exact hself s
    · rw [hoff u e]
      exact (hl u s e).trans (h.lent u s)

theorem turn (h : σ.Tally) (hw : ∀ bs, st.bytes? = some bs → bs.size ≤ shortLimit)
    (hh : st.handle? = (σ.stage t).handle?) : Tally (σ.goTo t st) :=
  h.inside h.tallied hw (fun s c hc hi => .inl ⟨c, hc, rfl, hi⟩)
    (fun _ _ _ hs => .inr (hh.trans hs)) (fun s => by rw [hh]; exact h.lent t s) (fun _ _ _ => rfl)
    fun _ hx => hx

/-- The handle that an operation gets is the one that it will return. -/
theorem inside_lend (h : σ.Tally) {p : Pool} {s : StringId} (hp : p.Tallied)
    (hnone : (σ.stage t).handle? = none) (hst : st.handle? = some s)
    (hw : ∀ bs, st.bytes? = some bs → bs.size ≤ shortLimit)
    (hk : ∀ u c, p.cell? u = some c → c.interned = true →
      (∃ d, σ.pool.cell? u = some d ∧ d.bytes = c.bytes ∧ d.interned = true) ∨
      c.bytes.size ≤ shortLimit ∧ u = s) :
    Tally (goTo ⟨p, σ.stage, (some t, s) :: σ.held, σ.issued⟩ t st) := by
  refine h.inside hp hw (fun u c hc hi => ?_) (fun u c _ hu => ?_) (fun u => ?_) (fun u v hu => ?_)
    fun _ => id
  · refine (hk u c hc hi).imp_right fun hnew => ⟨hnew.1, ?_⟩
    rw [hst, hnew.2]
  · rw [hnone] at hu
    cases hu
  · rw [List.count_cons, h.lent, hnone, hst]
    simp
  · exact List.count_cons_of_ne fun e => hu (Option.some.inj (Prod.mk.inj e).1).symm

theorem step (h : σ.Tally) (hσ : σ.Inv) (hs : Step σ τ) : τ.Tally := by
  have hne : ∀ (s : StringId) t u, ((none, s) : Option Nat × StringId) ≠ (some t, u) := by simp
  cases hs with
  | @hit t bs s idle short found =>
    obtain ⟨_, hlive⟩ := hσ.sound.pooled_of_cached found
    exact h.outside rfl rfl (fades_clone hlive).keeps (fun _ _ => List.count_cons_of_ne (hne _ _ _))
      fun _ => List.mem_cons_of_mem _
  | @miss t bs idle short absent =>
    refine h.turn (fun bs' e => ?_) (by rw [idle]; rfl)
    cases e
    exact short
  | @long t bs idle long =>
    exact h.outside rfl rfl (keeps_own _ bs) (fun _ _ => List.count_cons_of_ne (hne _ _ _))
      fun _ => List.mem_cons_of_mem _
  | @own bs =>
    exact h.outside rfl rfl (keeps_own _ bs) (fun _ _ => List.count_cons_of_ne (hne _ _ _))
      fun _ => id
  | @clone s hheld =>
    exact h.outside rfl rfl (fades_clone (hσ.isLive_of_held hheld)).keeps
      (fun _ _ => List.count_cons_of_ne (hne _ _ _)) fun _ => id
  | @drop s hheld =>
    exact h.outside rfl rfl (fades_drop _ s).keeps
      (fun _ _ => List.count_erase_of_ne (hne _ _ _).symm) fun _ => id
  | @lock t bs missed free =>
    exact h.turn (fun bs' e => h.wanted t bs' (by rw [missed]; exact e)) (by rw [missed]; rfl)
  | @leaveOut t bs s rest kept found scanning released =>
    exact h.turn (fun bs' e => h.wanted t bs' (by rw [scanning]; exact e)) (by rw [scanning]; rfl)
  | @pass t bs s rest kept found scanning live other =>
    exact h.turn (fun bs' e => h.wanted t bs' (by rw [scanning]; exact e)) (by rw [scanning]; rfl)
  | @find t bs s rest kept scanning live found =>
    exact h.inside_lend (h.tallied.congr rfl rfl) (by rw [scanning]; rfl) rfl
      (fun bs' e => h.wanted t bs' (by rw [scanning]; exact e))
      fun u c hc hi => .inl ((fades_clone live).keeps u c hc hi)
  | @keep t bs s kept scanning =>
    obtain ⟨hsub, -, -, -⟩ := hσ.stage_fits scanning
    rw [List.append_nil] at hsub
    exact h.inside (h.tallied.keep hsub.length_le) nofun
      (fun u c hc hi => .inl (keeps_of_cells rfl u c hc hi))
      (fun u c _ hu => .inr (by rw [scanning] at hu; exact hu))
      (fun u => (h.lent t u).trans (by rw [scanning]; rfl)) (fun _ _ _ => rfl) fun _ => id
  | @add t bs kept scanning =>
    obtain ⟨hsub, -, -, -⟩ := hσ.stage_fits scanning
    rw [List.append_nil] at hsub
    refine h.inside_lend (h.tallied.add hsub.length_le) (by rw [scanning]; rfl) ?_ ?_
      fun u c hc hi => ?_
    · split <;> rfl
    · split <;> exact nofun
    · rw [cell?_add] at hc
      split at hc
      · rename_i hu
        cases hc
        exact .inr ⟨h.wanted t bs (by rw [scanning]; rfl), hu⟩
      · exact .inl ⟨c, hc, rfl, hi⟩
  | @count t idle free => exact h.turn nofun (by rw [idle]; rfl)
  | @inspect t after s rest alive sweeping => exact h.turn nofun (by rw [sweeping]; rfl)
  | @sweep t after alive sweeping =>
    have hafter : (Stage.afterSweep after).handle? = (σ.stage t).handle? := by
      rw [sweeping]
      cases after <;> rfl
    refine h.inside (tallied_sweepBy _ _) (fun bs e => ?_)
      (fun u c hc hi => .inl (keeps_of_cells rfl u c hc hi))
      (fun u c _ hu => .inr (hafter.trans hu)) (fun u => ?_) (fun _ _ _ => rfl) fun _ => id
    · cases after <;> cases e
    · rw [hafter]
      exact h.lent t u
  | @store t bs s entered =>
    have hpooled : σ.pool.Pooled s bs := hσ.stage_fits entered
    have hhandle : (σ.stage t).handle? = some s := by rw [entered]; rfl
    refine h.inside (h.tallied.congr rfl rfl) nofun
      (fun u c hc hi => .inl (keeps_of_cells rfl u c hc hi)) (fun u c hc hu => ?_) (fun u => ?_)
      (fun u v hu => ?_) fun _ => List.mem_cons_of_mem _
    · obtain ⟨d, hd, hbytes, -⟩ := hpooled
      cases hhandle.symm.trans hu
      cases hc.symm.trans hd
      rw [hbytes]
      exact .inl List.mem_cons_self
    · rw [List.count_cons_of_ne (hne _ _ _)]
      by_cases e : u = s
      · rw [e, List.count_erase_self, h.lent, hhandle]
        simp [Stage.handle?]
      · rw [List.count_erase_of_ne (by simpa using e), h.lent, hhandle]
        simp [Stage.handle?, Ne.symm e]
    · rw [List.count_cons_of_ne (hne _ _ _), List.count_erase_of_ne]
      exact fun e => hu (Option.some.inj (Prod.mk.inj e).1)

theorem run (hr : Run Shared.initial σ) : σ.Tally := by
  induction hr with
  | refl => exact .initial
  | tail hr hs ih => exact ih.step (Inv.initial.run hr) hs

end Tally

/-! ## live strings and contents -/

/-- No thread is in the middle of an operation. -/
def Quiet (σ : Shared) : Prop := ∀ t, σ.stage t = .idle

def intern (σ : Shared) (t : Nat) (bs : Bytes) : Shared where
  pool := (σ.pool.intern t bs).1
  stage := σ.stage
  held := (none, (σ.pool.intern t bs).2) :: σ.held
  issued := (bs, (σ.pool.intern t bs).2) :: σ.issued

def liveCount (σ : Shared) : Shared := { σ with pool := σ.pool.liveCount.1 }

/-- The short contents for which the program has a handle that interning returned. -/
def contents (σ : Shared) : Finset Bytes :=
  ((σ.issued.filter fun x => x.1.size ≤ shortLimit ∧ (none, x.2) ∈ σ.held).map Prod.fst).toFinset

theorem mem_contents {bs : Bytes} : bs ∈ σ.contents ↔
    bs.size ≤ shortLimit ∧ ∃ s, (bs, s) ∈ σ.issued ∧ (none, s) ∈ σ.held := by
  unfold contents
  rw [List.mem_toFinset, List.mem_map]
  constructor
  · rintro ⟨⟨bs, s⟩, hx, rfl⟩
    obtain ⟨hi, hok⟩ := List.mem_filter.mp hx
    obtain ⟨hshort, hheld⟩ := of_decide_eq_true hok
    exact ⟨hshort, s, hi, hheld⟩
  · rintro ⟨hshort, s, hi, hheld⟩
    exact ⟨(bs, s), List.mem_filter.mpr ⟨hi, decide_eq_true ⟨hshort, hheld⟩⟩, rfl⟩

theorem Inv.held_of_quiet (h : σ.Inv) (hσ : σ.Tally) (hq : σ.Quiet) {s : StringId}
    (hl : σ.pool.isLive s = true) : (none, s) ∈ σ.held := by
  obtain ⟨c, hc, hpos⟩ := isLive_iff.mp hl
  rw [h.counted.handles s c hc, List.count_pos_iff, List.mem_map] at hpos
  obtain ⟨⟨o, s⟩, hs, rfl⟩ := hpos
  cases o with
  | none => exact hs
  | some t =>
    have hno := hσ.lent t s
    rw [hq t] at hno
    exact absurd hs (List.count_eq_zero.mp hno)

theorem mem_live_bytes (h : σ.Inv) (hσ : σ.Tally) (hq : σ.Quiet) {bs : Bytes} :
    bs ∈ (σ.pool.entries.filter σ.pool.isLive).map σ.pool.bytesOf ↔ bs ∈ σ.contents := by
  rw [List.mem_map, mem_contents]
  constructor
  · rintro ⟨s, hs, rfl⟩
    obtain ⟨c, hc, hi, hpos⟩ := h.sound.mem_live_entries.mp hs
    obtain ⟨hshort, hret⟩ := hσ.pooled s c hc hi
    rw [bytesOf_eq hc]
    refine ⟨hshort, s, hret.resolve_right ?_, h.held_of_quiet hσ hq (isLive_iff.mpr ⟨c, hc, hpos⟩)⟩
    rintro ⟨t, ht⟩
    rw [hq t] at ht
    cases ht
  · rintro ⟨hshort, s, hi, hheld⟩
    obtain ⟨c, hc, rfl, hint⟩ := h.issued bs s hi
    obtain ⟨d, hd, hpos⟩ := isLive_iff.mp (h.isLive_of_held hheld)
    cases hc.symm.trans hd
    exact ⟨s, h.sound.mem_live_entries.mpr ⟨c, hc, hint hshort, hpos⟩, bytesOf_eq hc⟩

/-- **The entries of live strings are as many as the contents that are held.** -/
theorem length_live_entries (h : σ.Inv) (hσ : σ.Tally) (hq : σ.Quiet) :
    (σ.pool.entries.filter σ.pool.isLive).length = σ.contents.card := by
  have hset : ((σ.pool.entries.filter σ.pool.isLive).map σ.pool.bytesOf).toFinset = σ.contents := by
    ext bs
    rw [List.mem_toFinset]
    exact mem_live_bytes h hσ hq
  rw [← hset, List.toFinset_card_of_nodup h.sound.nodup_bytes, List.length_map]

theorem Inv.mem_bucket (h : σ.Inv) {s : StringId} {c : Cell} (hc : σ.pool.cell? s = some c)
    (hi : c.interned = true) {o : Option Nat} (hs : (o, s) ∈ σ.held) :
    s ∈ σ.pool.bucket c.hash := by
  obtain ⟨d, hd, hpos⟩ := isLive_iff.mp (h.isLive_of_held hs)
  cases hc.symm.trans hd
  exact h.sound.present s c hc hi hpos

/-- **The entries are counted, and those of live strings are kept.**  Whatever threads do, in
whichever order their steps come: the counter is the number of entries; a look-up takes off no more
than that; and a sweep keeps the entries of live strings, also the one that was entered just before
it.  Where no thread is in the middle of an operation, interning as a whole keeps them too, and
counting the live strings gives the number of short contents for which the program has a handle from
interning. -/
theorem pool_accounting (hr : Run initial σ) :
    σ.pool.count = σ.pool.entries.length ∧
    (∀ t bs kept found, σ.stage t = .scanning bs [] kept found →
      kept.length ≤ (σ.pool.bucket bs.fnv1a).length ∧
      (σ.pool.bucket bs.fnv1a).length - kept.length ≤ σ.pool.count) ∧
    (∀ t after alive, σ.stage t = .sweeping after [] alive →
      (σ.pool.sweepBy alive).count ≤ σ.pool.count ∧
      (∀ k, ∀ s ∈ σ.pool.bucket k, σ.pool.isLive s = true → s ∈ (σ.pool.sweepBy alive).bucket k) ∧
      ∀ bs s, after = some (bs, s) → s ∈ (σ.pool.sweepBy alive).bucket bs.fnv1a) ∧
    (σ.Quiet →
      (∀ t bs, Run initial (σ.intern t bs) ∧
        (σ.pool.bucket bs.fnv1a).length - ((σ.pool.bucket bs.fnv1a).filter σ.pool.isLive).length
          ≤ σ.pool.count ∧
        (∀ k, ∀ s ∈ σ.pool.bucket k, σ.pool.isLive s = true →
          s ∈ (σ.pool.intern t bs).1.bucket k) ∧
        (bs.size ≤ shortLimit →
          (σ.pool.intern t bs).2 ∈ (σ.pool.intern t bs).1.bucket bs.fnv1a)) ∧
      Run initial σ.liveCount ∧
      (∀ k, σ.pool.liveCount.1.bucket k = (σ.pool.bucket k).filter σ.pool.isLive) ∧
      σ.pool.liveCount.2 = σ.contents.card) := by
  have h : σ.Inv := Inv.initial.run hr
  have hσ : σ.Tally := .run hr
  refine ⟨hσ.tallied, fun t bs kept found hs => ?_, fun t after alive hs => ?_, fun hq => ?_⟩
  · obtain ⟨hsub, -, -, -⟩ := h.stage_fits hs
    rw [List.append_nil] at hsub
    exact ⟨hsub.length_le, Nat.le_trans (Nat.sub_le _ _) (hσ.tallied.length_bucket_le _)⟩
  · obtain ⟨hlive, hafter⟩ := h.stage_fits hs
    have hkeep : ∀ k, ∀ s ∈ σ.pool.bucket k, σ.pool.isLive s = true →
        s ∈ (σ.pool.sweepBy alive).bucket k := by
      intro k s hin hl
      rw [bucket_sweepBy]
      exact List.mem_filter.mpr ⟨hin, hlive k s hin hl⟩
    refine ⟨?_, hkeep, fun bs s e => ?_⟩
    · rw [count_sweepBy, (entries_sweepBy _ _).length_eq, hσ.tallied]
      exact List.length_filter_le _ _
    · subst e
      have hheld : (some t, s) ∈ σ.held := h.working t s (by rw [hs]; rfl)
      obtain ⟨c, hc, rfl, hi⟩ := hafter bs s rfl
      have hin := h.mem_bucket hc hi hheld
      rw [h.sound.hash s c hc] at hin
      exact hkeep _ s hin (h.isLive_of_held hheld)
  · have hfree : σ.Free := by
      intro t
      rw [hq t]
      rfl
    have hcount : Run initial σ.liveCount := hr.trans (run_liveCount (hq 0) hfree)
    refine ⟨fun t bs => ?_, hcount, fun k => bucket_sweepBy _ _ k, ?_⟩
    · have hrun : Run initial (σ.intern t bs) := hr.trans (run_intern (hq t) hfree bs)
      have h' : (σ.intern t bs).Inv := Inv.initial.run hrun
      refine ⟨hrun, Nat.le_trans (Nat.sub_le _ _) (hσ.tallied.length_bucket_le _),
        fun k s hin hl => ?_, fun hshort => ?_⟩
      · obtain ⟨c, hc, hi, rfl⟩ := h.sound.entry k s hin
        obtain ⟨n, hc', -⟩ := later_intern σ.pool t bs s c hc
        have hheld : (none, s) ∈ (σ.intern t bs).held :=
          List.mem_cons_of_mem _ (h.held_of_quiet hσ hq hl)
        exact (h'.mem_bucket hc' hi hheld :)
      · obtain ⟨c, hc, rfl, hi⟩ := h'.issued _ _ List.mem_cons_self
        have hin := h'.mem_bucket hc (hi hshort) List.mem_cons_self
        rw [h'.sound.hash _ c hc] at hin
        exact hin
    · show σ.pool.sweep.count = _
      rw [sweep_eq, count_sweepBy, (entries_sweepBy _ _).length_eq]
      exact length_live_entries h hσ hq

theorem Run.release {p : Pool} {stage : Nat → Stage} {s : StringId}
    {held : List (Option Nat × StringId)} {issued : List (Bytes × StringId)}
    (hr : Run initial ⟨p, stage, (none, s) :: held, issued⟩) :
    Run initial ⟨p.drop s, stage, held, issued⟩ := by
  have hs : Step ⟨p, stage, (none, s) :: held, issued⟩
      ⟨p.drop s, stage, ((none, s) :: held).erase (none, s), issued⟩ := .drop List.mem_cons_self
  rw [List.erase_cons_head] at hs
  exact hr.tail hs

/-- Two handles to one string count as one content, and after both are released there is none. -/
theorem pool_accounting_released :
    let first := Pool.empty.intern 0 (Bytes.ofString "__index")
    let second := first.1.intern 1 (Bytes.ofString "__index")
    second.1.liveCount.2 = 1 ∧ ((second.1.drop second.2).drop first.2).liveCount.2 = 0 := by
  intro first second
  have h₁ : Run initial (initial.intern 0 (Bytes.ofString "__index")) :=
    (((pool_accounting .refl).2.2.2 fun _ => rfl).1 0 _).1
  have h₂ : Run initial ⟨second.1, fun _ => .idle, [(none, second.2), (none, first.2)],
      [(Bytes.ofString "__index", second.2), (Bytes.ofString "__index", first.2)]⟩ :=
    (((pool_accounting h₁).2.2.2 fun _ => rfl).1 1 _).1
  refine ⟨((pool_accounting h₂).2.2.2 fun _ => rfl).2.2.2.trans (Finset.card_eq_one.mpr ?_),
    ((pool_accounting h₂.release.release).2.2.2 fun _ => rfl).2.2.2.trans
      (Finset.card_eq_zero.mpr ?_)⟩
  · refine ⟨Bytes.ofString "__index", Finset.ext fun bs => ?_⟩
    have hshort : (Bytes.ofString "__index").size ≤ shortLimit := by decide
    rw [mem_contents, Finset.mem_singleton]
    constructor
    · rintro ⟨-, s, hs, -⟩
      rcases List.mem_pair.mp hs with e | e <;> exact (Prod.mk.inj e).1
    · rintro rfl
      exact ⟨hshort, second.2, List.mem_cons_self, List.mem_cons_self⟩
  · refine Finset.eq_empty_of_forall_notMem fun bs hbs => ?_
    obtain ⟨-, s, -, hs⟩ := mem_contents.mp hbs
    cases hs

end Shared

end LuaMachine.Pool
