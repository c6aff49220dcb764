import Mathlib.Data.List.Basic
import Mathlib.Data.List.Nodup
import LuaMachine.Pool

/-!
# The entries of the string pool

A string object keeps its bytes, and one that has no handle left never gets one again.  The pool can
rely on nothing else, since handles come and go without it.

* `Pool.Fades`     the handles of some strings have changed, and no released string has come back;
* `Pool.Sound`     what the buckets and the caches say about the strings: every live pooled string
                   has an entry, and no two of them have the same bytes;
* `Pool.sweepBy`   a sweep that removes the entries which were not seen alive.

Each change that an operation makes keeps a pool sound, given what the operation has seen before.
-/

namespace LuaMachine.Pool

variable {p q : Pool} {s u : StringId} {bs : Bytes} {c d : Cell}

/-! ## string objects -/

theorem isLive_iff : p.isLive s = true ↔ ∃ c, p.cell? s = some c ∧ 0 < c.handles := by
  unfold isLive
  cases p.cell? s with
  | none => simp
  | some c => simp

theorem hasBytes_iff : p.hasBytes s bs = true ↔ ∃ c, p.cell? s = some c ∧ c.bytes = bs := by
  unfold hasBytes
  cases p.cell? s with
  | none => simp
  | some c => simp

theorem index_eq_iff : s.index = u.index ↔ s = u := by
  cases s
  cases u
  simp

theorem cell?_adjust (p : Pool) (s u : StringId) (f : Nat → Nat) :
    (p.adjust s f).cell? u
      = if s = u then (p.cell? u).map fun c => { c with handles := f c.handles }
        else p.cell? u := by
  show (p.cells.modify s.index _)[u.index]? = _
  rw [Array.getElem?_modify]
  simp only [index_eq_iff]
  rfl

theorem cell?_allocate (p : Pool) (bs : Bytes) (interned : Bool) (u : StringId) :
    (p.allocate bs interned).1.cell? u
      = if u = ⟨p.cells.size⟩ then some ⟨bs, bs.fnv1a, interned, 1⟩ else p.cell? u := by
  show (p.cells.push _)[u.index]? = _
  rw [Array.getElem?_push]
  have hiff : u.index = p.cells.size ↔ u = ⟨p.cells.size⟩ := by
    rw [← index_eq_iff]
  simp only [hiff]
  rfl

theorem cell?_new (p : Pool) : p.cell? ⟨p.cells.size⟩ = none :=
  Array.getElem?_eq_none (Nat.le_refl _)

theorem cell?_allocate_of_some (hc : p.cell? s = some c) (bs : Bytes) (interned : Bool) :
    (p.allocate bs interned).1.cell? s = some c := by
  rw [cell?_allocate, if_neg, hc]
  rintro rfl
  rw [cell?_new] at hc
  cases hc

theorem isLive_clone (h : p.isLive s = true) : (p.clone s).isLive = p.isLive := by
  funext u
  unfold isLive clone
  rw [cell?_adjust]
  by_cases hu : s = u
  · subst hu
    obtain ⟨c, hc, hpos⟩ := isLive_iff.mp h
    rw [if_pos rfl, hc]
    simp [hpos]
  · rw [if_neg hu]

/-! ## handles come and go -/

/-- The handles of some strings have changed, and no released string has come back. -/
def Fades (p q : Pool) : Prop :=
  ∀ s, p.cell? s = none ∧ q.cell? s = none ∨
    ∃ c n, p.cell? s = some c ∧ q.cell? s = some { c with handles := n } ∧ (0 < n → 0 < c.handles)

theorem fades_adjust (p : Pool) (s : StringId) {f : Nat → Nat}
    (hf : ∀ c, p.cell? s = some c → 0 < f c.handles → 0 < c.handles) :
    p.Fades (p.adjust s f) := by
  intro u
  rw [cell?_adjust]
  cases hu : p.cell? u with
  | none =>
    left
    refine ⟨rfl, ?_⟩
    split <;> rfl
  | some c =>
    right
    by_cases hs : s = u
    · subst hs
      exact ⟨c, f c.handles, rfl, by rw [if_pos rfl]; rfl, hf c hu⟩
    · exact ⟨c, c.handles, rfl, if_neg hs, id⟩

theorem fades_clone (h : p.isLive s = true) : p.Fades (p.clone s) := by
  refine fades_adjust p s fun c hc _ => ?_
  obtain ⟨d, hd, hpos⟩ := isLive_iff.mp h
  cases hc.symm.trans hd
  exact hpos

theorem fades_drop (p : Pool) (s : StringId) : p.Fades (p.drop s) :=
  fades_adjust p s fun _ _ h => Nat.lt_of_lt_of_le h (Nat.sub_le _ _)

/-- What is known of a string stays known: its bytes, and that it has been released. -/
def Later (p q : Pool) : Prop :=
  ∀ s c, p.cell? s = some c →
    ∃ n, q.cell? s = some { c with handles := n } ∧ (0 < n → 0 < c.handles)

theorem Fades.later (h : p.Fades q) : p.Later q := by
  intro s c hc
  rcases h s with ⟨hn, -⟩ | ⟨d, n, hd, hq, hpos⟩
  · cases hn.symm.trans hc
  · cases hd.symm.trans hc
    exact ⟨n, hq, hpos⟩

theorem later_of_cells (h : q.cells = p.cells) : p.Later q := by
  intro s c hc
  refine ⟨c.handles, ?_, id⟩
  unfold cell? at hc ⊢
  rw [h]
  exact hc

theorem later_allocate (p : Pool) (bs : Bytes) (interned : Bool) :
    p.Later (p.allocate bs interned).1 :=
  fun _ c hc => ⟨c.handles, cell?_allocate_of_some hc bs interned, id⟩

theorem Later.isLive (h : p.Later q) (hc : p.cell? s = some c) (hl : q.isLive s = true) :
    p.isLive s = true := by
  obtain ⟨n, hq, hpos⟩ := h s c hc
  obtain ⟨d, hd, hd'⟩ := isLive_iff.mp hl
  cases hq.symm.trans hd
  exact isLive_iff.mpr ⟨c, hc, hpos hd'⟩

theorem Later.hasBytes (h : p.Later q) (hc : p.cell? s = some c) (hl : q.hasBytes s bs = true) :
    p.hasBytes s bs = true := by
  obtain ⟨n, hq, -⟩ := h s c hc
  obtain ⟨d, hd, hd'⟩ := hasBytes_iff.mp hl
  cases hq.symm.trans hd
  exact hasBytes_iff.mpr ⟨c, hc, hd'⟩

def Pooled (p : Pool) (s : StringId) (bs : Bytes) : Prop :=
  ∃ c, p.cell? s = some c ∧ c.bytes = bs ∧ c.interned = true

theorem Pooled.later (h : p.Pooled s bs) (hl : p.Later q) : q.Pooled s bs := by
  obtain ⟨c, hc, hb, hi⟩ := h
  obtain ⟨n, hq, -⟩ := hl s c hc
  exact ⟨_, hq, hb, hi⟩

/-! ## sound pools -/

/-- What the buckets and the caches say about the strings. -/
structure Sound (p : Pool) : Prop where
  hash : ∀ s c, p.cell? s = some c → c.hash = c.bytes.fnv1a
  entry : ∀ h, ∀ s ∈ p.bucket h, ∃ c, p.cell? s = some c ∧ c.interned = true ∧ c.hash = h
  nodup : ∀ h, (p.bucket h).Nodup
  present : ∀ s c, p.cell? s = some c → c.interned = true → 0 < c.handles → s ∈ p.bucket c.hash
  unique : ∀ s u c d, p.cell? s = some c → p.cell? u = some d → c.interned = true →
    d.interned = true → 0 < c.handles → 0 < d.handles → c.bytes = d.bytes → s = u
  cached : ∀ (at' : CacheSlot) s, p.cache[at']? = some s →
    ∃ c, p.cell? s = some c ∧ c.interned = true

theorem sound_empty : empty.Sound where
  hash := by
    intro s c hc
    simp [cell?, empty] at hc
  entry := by
    intro h s hs
    simp [bucket, empty] at hs
  nodup := by
    intro h
    simp [bucket, empty]
  present := by
    intro s c hc
    simp [cell?, empty] at hc
  unique := by
    intro s u c d hc
    simp [cell?, empty] at hc
  cached := by
    intro at' s hs
    simp [empty] at hs

theorem Sound.pooled_of_cached (h : p.Sound) {at' : CacheSlot} (hs : p.cached? at' bs = some s) :
    p.Pooled s bs ∧ p.isLive s = true := by
  unfold cached? at hs
  obtain ⟨hcache, hok⟩ := Option.filter_eq_some_iff.mp hs
  rw [Bool.and_eq_true] at hok
  obtain ⟨c, hc, hi⟩ := h.cached at' s hcache
  obtain ⟨d, hd, hb⟩ := hasBytes_iff.mp hok.2
  cases hc.symm.trans hd
  exact ⟨⟨c, hc, hb, hi⟩, hok.1⟩

/-- **The one entry of a live pooled string**: no other entry in its bucket is that of a live string
with the same bytes. -/
theorem Sound.filter_bucket (h : p.Sound) (hc : p.cell? s = some c) (hi : c.interned = true)
    (hl : 0 < c.handles) :
    (p.bucket c.hash).filter (fun e => p.isLive e && p.hasBytes e c.bytes) = [s] := by
  have hs : s ∈ (p.bucket c.hash).filter fun e => p.isLive e && p.hasBytes e c.bytes := by
    rw [List.mem_filter, Bool.and_eq_true]
    exact ⟨h.present s c hc hi hl, isLive_iff.mpr ⟨c, hc, hl⟩, hasBytes_iff.mpr ⟨c, hc, rfl⟩⟩
  have hall : ∀ e ∈ (p.bucket c.hash).filter (fun e => p.isLive e && p.hasBytes e c.bytes),
      e = s := by
    intro e he
    rw [List.mem_filter, Bool.and_eq_true] at he
    obtain ⟨hin, hlive, hbytes⟩ := he
    obtain ⟨d, hd, hdi, -⟩ := h.entry _ e hin
    obtain ⟨d', hd', hpos⟩ := isLive_iff.mp hlive
    obtain ⟨d'', hd'', hb⟩ := hasBytes_iff.mp hbytes
    cases hd.symm.trans hd'
    cases hd.symm.trans hd''
    exact h.unique e s d c hd hc hdi hi hpos hl hb
  have hn := (h.nodup c.hash).filter fun e => p.isLive e && p.hasBytes e c.bytes
  rw [List.eq_replicate_of_mem hall] at hn hs ⊢
  rw [List.nodup_replicate] at hn
  obtain ⟨hpos, -⟩ := List.mem_replicate.mp hs
  rw [show List.length _ = 1 by omega]
  rfl

/-! ## what keeps a pool sound -/

namespace Sound

theorem fades (h : p.Sound) (hf : p.Fades q) (hb : q.buckets = p.buckets)
    (hcache : q.cache = p.cache) : q.Sound := by
  have hbucket : ∀ k, q.bucket k = p.bucket k := by
    intro k
    unfold bucket
    rw [hb]
  have back : ∀ s c, q.cell? s = some c → ∃ d, p.cell? s = some d ∧ c.bytes = d.bytes ∧
      c.hash = d.hash ∧ c.interned = d.interned ∧ (0 < c.handles → 0 < d.handles) := by
    intro s c hc
    rcases hf s with ⟨-, hn⟩ | ⟨d, n, hd, hq, hpos⟩
    · cases hn.symm.trans hc
    · cases hq.symm.trans hc
      exact ⟨d, hd, rfl, rfl, rfl, hpos⟩
  constructor
  · intro s c hc
    obtain ⟨d, hd, hbs, hh, -, -⟩ := back s c hc
    rw [hh, hbs]
    exact h.hash s d hd
  · intro k s hs
    rw [hbucket] at hs
    obtain ⟨c, hc, hi, hk⟩ := h.entry k s hs
    obtain ⟨n, hq, -⟩ := hf.later s c hc
    exact ⟨_, hq, hi, hk⟩
  · intro k
    rw [hbucket]
    exact h.nodup k
  · intro s c hc hi hl
    obtain ⟨d, hd, -, hh, hint, hpos⟩ := back s c hc
    rw [hbucket, hh]
    exact h.present s d hd (hint ▸ hi) (hpos hl)
  · intro s u c d hc hd hci hdi hcl hdl he
    obtain ⟨c', hc', hbs, -, hint, hpos⟩ := back s c hc
    obtain ⟨d', hd', hbs', -, hint', hpos'⟩ := back u d hd
    exact h.unique s u c' d' hc' hd' (hint ▸ hci) (hint' ▸ hdi) (hpos hcl) (hpos' hdl)
      (hbs.symm.trans (he.trans hbs'))
  · intro at' s hs
    rw [hcache] at hs
    obtain ⟨c, hc, hi⟩ := h.cached at' s hs
    obtain ⟨n, hq, -⟩ := hf.later s c hc
    exact ⟨_, hq, hi⟩

theorem clone (h : p.Sound) (hl : p.isLive s = true) : (p.clone s).Sound :=
  h.fades (fades_clone hl) rfl rfl

theorem drop (h : p.Sound) (s : StringId) : (p.drop s).Sound := h.fades (fades_drop p s) rfl rfl

theorem own (h : p.Sound) (bs : Bytes) : (p.own bs).1.Sound := by
  have hnew : ∀ s c, (p.own bs).1.cell? s = some c →
      p.cell? s = some c ∨ c = ⟨bs, bs.fnv1a, false, 1⟩ := by
    intro s c hc
    unfold Pool.own at hc
    rw [cell?_allocate] at hc
    split at hc
    · exact .inr (Option.some.inj hc).symm
    · exact .inl hc
  have hold : ∀ s c, p.cell? s = some c → (p.own bs).1.cell? s = some c :=
    fun _ _ hc => cell?_allocate_of_some hc bs false
  constructor
  · intro s c hc
    rcases hnew s c hc with hc | rfl
    · exact h.hash s c hc
    · rfl
  · intro k s hs
    obtain ⟨c, hc, hrest⟩ := h.entry k s hs
    exact ⟨c, hold s c hc, hrest⟩
  · exact h.nodup
  · intro s c hc hi hl
    rcases hnew s c hc with hc | rfl
    · exact h.present s c hc hi hl
    · cases hi
  · intro s u c d hc hd hci hdi hcl hdl he
    rcases hnew s c hc with hc | rfl
    · rcases hnew u d hd with hd | rfl
      · exact h.unique s u c d hc hd hci hdi hcl hdl he
      · cases hdi
    · cases hci
  · intro at' s hs
    obtain ⟨c, hc, hi⟩ := h.cached at' s hs
    exact ⟨c, hold s c hc, hi⟩

theorem setCache (h : p.Sound) (hs : p.Pooled s bs) (at' : CacheSlot) :
    (p.setCache at' s).Sound where
  hash := h.hash
  entry := h.entry
  nodup := h.nodup
  present := h.present
  unique := h.unique
  cached := by
    intro place u hu
    change (p.cache.insert at' s)[place]? = some u at hu
    rw [Std.HashMap.getElem?_insert] at hu
    split at hu
    · cases hu
      obtain ⟨c, hc, -, hi⟩ := hs
      exact ⟨c, hc, hi⟩
    · exact h.cached place u hu

/-- Other buckets, in which entries are left out that were of released strings. -/
theorem thin (h : p.Sound) (hcells : q.cells = p.cells) (hcache : q.cache = p.cache)
    (hsub : ∀ k, (q.bucket k).Sublist (p.bucket k))
    (hlive : ∀ k, ∀ s ∈ p.bucket k, p.isLive s = true → s ∈ q.bucket k) : q.Sound := by
  have hcell : ∀ s, q.cell? s = p.cell? s := by
    intro s
    unfold cell?
    rw [hcells]
  constructor
  · intro s c hc
    rw [hcell] at hc
    exact h.hash s c hc
  · intro k s hs
    obtain ⟨c, hc, hrest⟩ := h.entry k s ((hsub k).subset hs)
    exact ⟨c, (hcell s).trans hc, hrest⟩
  · exact fun k => (h.nodup k).sublist (hsub k)
  · intro s c hc hi hl
    rw [hcell] at hc
    exact hlive _ s (h.present s c hc hi hl) (isLive_iff.mpr ⟨c, hc, hl⟩)
  · intro s u c d hc hd
    rw [hcell] at hc hd
    exact h.unique s u c d hc hd
  · intro at' s hs
    rw [hcache] at hs
    obtain ⟨c, hc, hi⟩ := h.cached at' s hs
    exact ⟨c, (hcell s).trans hc, hi⟩

end Sound

theorem bucket_setBucket (p : Pool) (k k' : UInt64) (entries : List StringId) :
    (p.setBucket k entries).bucket k' = if k = k' then entries else p.bucket k' := by
  show (p.buckets.insert k entries).getD k' [] = _
  rw [Std.HashMap.getD_insert]
  simp only [beq_iff_eq]
  rfl

/-! ## the changes of a look-up -/

/-- The entries that a look-up has kept take the place of the bucket. -/
def keep (p : Pool) (hash : UInt64) (kept : List StringId) : Pool :=
  setBucket { p with count := p.count - ((p.bucket hash).length - kept.length) } hash kept

/-- A new string, entered behind the entries that a look-up has kept. -/
def add (p : Pool) (bs : Bytes) (kept : List StringId) : Pool :=
  let p' := (p.allocate bs true).1
  setBucket { p' with count := p.count - ((p.bucket bs.fnv1a).length - kept.length) + 1 }
    bs.fnv1a (kept ++ [⟨p.cells.size⟩])

theorem bucket_keep (p : Pool) (hash k : UInt64) (kept : List StringId) :
    (p.keep hash kept).bucket k = if hash = k then kept else p.bucket k :=
  bucket_setBucket _ hash k kept

theorem bucket_add (p : Pool) (bs : Bytes) (k : UInt64) (kept : List StringId) :
    (p.add bs kept).bucket k
      = if bs.fnv1a = k then kept ++ [⟨p.cells.size⟩] else p.bucket k :=
  bucket_setBucket _ _ k _

theorem cell?_add (p : Pool) (bs : Bytes) (kept : List StringId) (u : StringId) :
    (p.add bs kept).cell? u
      = if u = ⟨p.cells.size⟩ then some ⟨bs, bs.fnv1a, true, 1⟩ else p.cell? u :=
  cell?_allocate p bs true u

theorem later_add (p : Pool) (bs : Bytes) (kept : List StringId) : p.Later (p.add bs kept) :=
  later_allocate p bs true

namespace Sound

theorem keep (h : p.Sound) {hash : UInt64} {kept : List StringId}
    (hsub : kept.Sublist (p.bucket hash))
    (hlive : ∀ s ∈ p.bucket hash, p.isLive s = true → s ∈ kept) : (p.keep hash kept).Sound := by
  refine h.thin rfl rfl (fun k => ?_) (fun k s hs hl => ?_)
  · rw [bucket_keep]
    split
    · rename_i hk
      exact hk ▸ hsub
    · exact .refl _
  · rw [bucket_keep]
    split
    · rename_i hk
      subst hk
      exact hlive s hs hl
    · exact hs

/-- A new string joins a bucket of whose live strings none has its bytes. -/
theorem add (h : p.Sound) {kept : List StringId} (hsub : kept.Sublist (p.bucket bs.fnv1a))
    (hlive : ∀ s ∈ p.bucket bs.fnv1a, p.isLive s = true → s ∈ kept)
    (hnone : ∀ s ∈ kept, p.hasBytes s bs = false) : (p.add bs kept).Sound := by
  have hnew : ∀ s c, (p.add bs kept).cell? s = some c →
      (s = ⟨p.cells.size⟩ ∧ c = ⟨bs, bs.fnv1a, true, 1⟩) ∨
        (s ≠ ⟨p.cells.size⟩ ∧ p.cell? s = some c) := by
    intro s c hc
    rw [cell?_add] at hc
    split at hc
    · rename_i hs
      exact .inl ⟨hs, (Option.some.inj hc).symm⟩
    · rename_i hs
      exact .inr ⟨hs, hc⟩
  have hold : ∀ s c, p.cell? s = some c → (p.add bs kept).cell? s = some c :=
    fun _ _ hc => cell?_allocate_of_some hc bs true
  have hfresh : ∀ k, (⟨p.cells.size⟩ : StringId) ∉ p.bucket k := by
    intro k hin
    obtain ⟨c, hc, -⟩ := h.entry k _ hin
    rw [cell?_new] at hc
    cases hc
  -- a live pooled string with these bytes would be among the entries kept
  have habsent : ∀ s c, p.cell? s = some c → c.interned = true → 0 < c.handles → c.bytes ≠ bs := by
    rintro s c hc hi hl rfl
    have hin := h.present s c hc hi hl
    rw [h.hash s c hc] at hin
    have hkept := hlive s hin (isLive_iff.mpr ⟨c, hc, hl⟩)
    have hno := hnone s hkept
    rw [hasBytes_iff.mpr ⟨c, hc, rfl⟩] at hno
    cases hno
  constructor
  · intro s c hc
    rcases hnew s c hc with ⟨-, rfl⟩ | ⟨-, hc⟩
    · rfl
    · exact h.hash s c hc
  · intro k s hs
    rw [bucket_add] at hs
    split at hs
    · rename_i hk
      rcases List.mem_append.mp hs with hs | hs
      · obtain ⟨c, hc, hrest⟩ := h.entry k s (hk ▸ hsub.subset hs)
        exact ⟨c, hold s c hc, hrest⟩
      · rw [List.mem_singleton.mp hs]
        exact ⟨_, (cell?_add p bs kept _).trans (if_pos rfl), rfl, hk⟩
    · obtain ⟨c, hc, hrest⟩ := h.entry k s hs
      exact ⟨c, hold s c hc, hrest⟩
  · intro k
    rw [bucket_add]
    split
    · refine List.Nodup.append ((h.nodup _).sublist hsub) (List.nodup_singleton _) ?_
      intro s hs hs'
      rw [List.mem_singleton.mp hs'] at hs
      exact hfresh _ (hsub.subset hs)
    · exact h.nodup k
  · intro s c hc hi hl
    rw [bucket_add]
    rcases hnew s c hc with ⟨rfl, rfl⟩ | ⟨-, hc⟩
    · rw [if_pos rfl]
      exact List.mem_append_right _ (List.mem_singleton.mpr rfl)
    · have hin := h.present s c hc hi hl
      split
      · rename_i hk
        rw [← hk] at hin
        exact List.mem_append_left _ (hlive s hin (isLive_iff.mpr ⟨c, hc, hl⟩))
      · exact hin
  · intro s u c d hc hd hci hdi hcl hdl he
    rcases hnew s c hc with ⟨rfl, rfl⟩ | ⟨-, hc⟩
    · rcases hnew u d hd with ⟨rfl, -⟩ | ⟨-, hd⟩
      · rfl
      · exact absurd he.symm (habsent u d hd hdi hdl)
    · rcases hnew u d hd with ⟨rfl, rfl⟩ | ⟨-, hd⟩
      · exact absurd he (habsent s c hc hci hcl)
      · exact h.unique s u c d hc hd hci hdi hcl hdl he
  · intro at' s hs
    obtain ⟨c, hc, hi⟩ := h.cached at' s hs
    exact ⟨c, hold s c hc, hi⟩

end Sound

/-! ## sweeps -/

def survivorsBy (alive : StringId → Bool) (entries : List StringId) : Option (List StringId) :=
  match entries.filter alive with
  | [] => none
  | live => some live

/-- A sweep that removes the entries which were not seen alive. -/
def sweepBy (p : Pool) (alive : StringId → Bool) : Pool :=
  let buckets := p.buckets.filterMap fun _ entries => survivorsBy alive entries
  let count := buckets.fold (fun n _ entries => n + entries.length) 0
  { p with buckets, count, sweepAt := max (count * 2) sweepThreshold }

theorem sweep_eq (p : Pool) : p.sweep = p.sweepBy p.isLive := rfl

theorem bucket_sweepBy (p : Pool) (alive : StringId → Bool) (k : UInt64) :
    (p.sweepBy alive).bucket k = (p.bucket k).filter alive := by
  show (p.buckets.filterMap fun _ entries => survivorsBy alive entries).getD k [] = _
  unfold bucket
  rw [Std.HashMap.getD_eq_getD_getElem?, Std.HashMap.getD_eq_getD_getElem?,
    Std.HashMap.getElem?_filterMap']
  cases p.buckets[k]? with
  | none => rfl
  | some entries =>
    show (survivorsBy alive entries).getD [] = entries.filter alive
    unfold survivorsBy
    cases entries.filter alive <;> rfl

theorem Sound.sweepBy (h : p.Sound) {alive : StringId → Bool}
    (hlive : ∀ k, ∀ s ∈ p.bucket k, p.isLive s = true → alive s = true) :
    (p.sweepBy alive).Sound := by
  refine h.thin rfl rfl (fun k => ?_) (fun k s hs hl => ?_)
  · rw [bucket_sweepBy]
    exact List.filter_sublist
  · rw [bucket_sweepBy]
    exact List.mem_filter.mpr ⟨hs, hlive k s hs hl⟩

end LuaMachine.Pool
