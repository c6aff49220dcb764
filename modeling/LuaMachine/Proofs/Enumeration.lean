import LuaMachine.Proofs.Histories
import LuaMachine.Proofs.Performing

/-!
# A traversal enumerates a table

As long as a table does not change, `Table.next` goes through the live nodes of its tape: first the
array part, then the live nodes of the hash part.  So a traversal meets every entry once.

* `Inv.entries_eq`     the entries of a table are the live nodes of its tape;
* `Inv.next_entry`     from each of them `next` gets to the one after it;
* `Visits`, `Looped`   what a loop does that calls a function on some entries;
* `Valid.replies_iff_looped`   the loop over a table calls its body on the entries of the table;
* `traversal_enumerates`       all of it, for every table.
-/

namespace LuaMachine

def Node.entry (n : Node) : Value × Value := (n.key, n.value)

namespace Table

variable {B : Nat} {t : Table} {n : Node} {ns ms : List Node} {k v c : Value}

/-! ## the live nodes of the tape -/

theorem liveFrom_eq_head? (t : Table) (s : Nat) :
    t.liveFrom s = (((t.tape.drop s).filter Node.live).map Node.entry).head? := by
  rw [List.head?_map, List.head?_filter]
  rfl

theorem Inv.next_first (h : t.Inv B) :
    t.next .nil = .ok ((t.tape.filter Node.live).map Node.entry).head? := by
  rw [next_nil h, liveFrom_eq_head?, List.drop_zero]

/-- **After a live node comes the next one.** -/
theorem Inv.next_live (h : t.Inv B) (e : t.tape.filter Node.live = ns ++ n :: ms) :
    t.next n.key = .ok (ms.map Node.entry).head? := by
  obtain ⟨l₁, l, htape, -, hl⟩ := List.filter_eq_append_iff.mp e
  obtain ⟨l₂, l₃, rfl, -, hlive, rfl⟩ := List.filter_eq_cons_iff.mp hl
  rw [← List.append_assoc] at htape
  have hn : t.tape[(l₁ ++ l₂).length]? = some n := by
    rw [htape, List.getElem?_append_right (Nat.le_refl _), Nat.sub_self]
    rfl
  have hk : n.key ≠ .nil :=
    h.sound_tape.ne_nil_of_holds ⟨n.live_iff.mp hlive, List.mem_of_getElem? hn⟩
  have hdrop : t.tape.drop ((l₁ ++ l₂).length + 1) = l₃ := by
    rw [htape, List.drop_length_add_append]
    rfl
  rw [h.next_node hn hk, liveFrom_eq_head?, hdrop]

theorem Inv.entriesAfter_eq (h : t.Inv B) (ms : List Node) : ∀ (fuel : Nat) (c : Value)
    (ns : List Node), t.tape.filter Node.live = ns ++ ms → ms.length ≤ fuel →
    t.next c = .ok (ms.map Node.entry).head? → t.entriesAfter fuel c = ms.map Node.entry := by
  induction ms with
  | nil =>
    intro fuel c ns _ _ hc
    cases fuel with
    | zero => rfl
    | succ fuel =>
      rw [entriesAfter, hc]
      rfl
  | cons n ms ih =>
    intro fuel c ns e hfuel hc
    cases fuel with
    | zero => exact absurd hfuel (Nat.not_succ_le_zero _)
    | succ fuel =>
      rw [entriesAfter, hc]
      refine congrArg (n.entry :: ·) (ih fuel n.key (ns ++ [n]) ?_ (Nat.le_of_succ_le_succ hfuel)
        (h.next_live e))
      rw [e, List.append_assoc, List.singleton_append]

/-- **The entries are the live nodes of the tape.** -/
theorem Inv.entries_eq (h : t.Inv B) : t.entries = (t.tape.filter Node.live).map Node.entry := by
  refine h.entriesAfter_eq _ _ .nil [] rfl (Nat.le_trans (List.length_filter_le _ _) ?_) h.next_first
  unfold tape tapeOf
  rw [List.length_append, length_run_array, Array.length_toList]

/-- **From each entry `next` gets to the one after it.** -/
theorem Inv.next_entry (h : t.Inv B) {es fs : List (Value × Value)} {e : Value × Value}
    (he : t.entries = es ++ e :: fs) : t.next e.1 = .ok fs.head? := by
  rw [h.entries_eq, List.map_eq_append_iff] at he
  obtain ⟨ns, l, hl, -, hms⟩ := he
  obtain ⟨n, ms, rfl, rfl, rfl⟩ := List.map_eq_cons_iff.mp hms
  exact h.next_live hl

/-! ## what the entries are -/

/-- The array part comes first, then the live nodes of the hash part. -/
theorem Inv.entries_parts (h : t.Inv lastKey) : t.entries
    = (List.range t.length).map (fun i => (.count (i + 1), t.getKey (.count (i + 1))))
      ++ (t.hash.nodes.toList.filter Node.live).map Node.entry := by
  have hrun : ∀ m ∈ Node.run 1 t.array.toList, m.live = true :=
    fun _ hm => Node.live_of_mem_run h.full hm
  rw [h.entries_eq]
  unfold tape tapeOf length
  rw [List.filter_append, List.filter_eq_self.mpr hrun, List.map_append]
  refine congrArg (· ++ _) (List.ext_getElem? fun i => ?_)
  rw [List.getElem?_map, List.getElem?_map, Node.getElem?_run, Array.getElem?_toList]
  by_cases hi : i < t.array.size
  · rw [(h.getKey_count hi).1, List.getElem?_range hi, Nat.add_comm 1]
    rfl
  · rw [Array.getElem?_eq_none (Nat.le_of_not_lt hi), List.getElem?_eq_none]
    · rfl
    · rw [List.length_range]
      exact Nat.le_of_not_lt hi

theorem Inv.nodup_entries (h : t.Inv B) : (t.entries.map Prod.fst).Nodup := by
  rw [h.entries_eq, List.map_map]
  exact h.sound_tape.nodup_live

theorem Inv.mem_entries (h : t.Inv B) : (k, v) ∈ t.entries ↔ Holds t.tape k v := by
  rw [h.entries_eq, holds_iff_filter]
  constructor
  · intro hm
    obtain ⟨n, hn, e⟩ := List.mem_map.mp hm
    cases e
    exact hn
  · exact fun hm => List.mem_map.mpr ⟨_, hm, rfl⟩

theorem rawGet_of_isKey (hk : k.IsKey) : t.rawGet k = t.getKey k := by
  have hkey : k.key? = some k := hk
  unfold rawGet
  rw [hkey]

theorem Inv.plain_of_holds (h : t.Inv lastKey) (hh : Holds t.tape k v) : k.Plain := by
  have hne := h.sound_tape.ne_nil_of_holds hh
  refine ⟨h.sound_tape.normal _ hh.2 hne, ?_⟩
  rintro rfl
  rcases holds_append.mp hh with hr | hr
  · exact h.not_holds_run (k := .float Double.twoPow63) nofun v hr
  · -- the last integer rounds to it
    have hclear := h.clear _ hr.mem_keys (Int64.ofNat lastKey)
    rw [Value.toInt_ofNat (by decide)] at hclear
    cases hclear (by omega) (by decide +kernel)

end Table

namespace Machine

open Table

variable {m m' n l : Machine} {t : TableId} {T : Table} {f c : Value} {s : Strand} {r : Reply}
  {e : Value × Value} {es : List (Value × Value)}

/-! ## loops -/

/-- A function is called on entries, one after the other, and never gives false. -/
inductive Visits (f : Value) : Machine → List (Value × Value) → Machine → Prop
  | nil {m : Machine} : Visits f m [] m
  | cons {m n m' : Machine} {e : Value × Value} {es : List (Value × Value)} {u : Value} :
      Performs Job.body (Action.callFirst f [e.1, e.2]) m (.ok u) n → u ≠ .boolean false →
      Visits f n es m' → Visits f m (e :: es) m'

/-- A function is called on entries, one after the other, until it gives false or fails. -/
inductive Looped (f : Value) : Machine → List (Value × Value) → Reply → Machine → Prop
  | over {m : Machine} : Looped f m [] (.ok []) m
  | again {m n m' : Machine} {e : Value × Value} {es : List (Value × Value)} {u : Value}
      {r : Reply} : Performs Job.body (Action.callFirst f [e.1, e.2]) m (.ok u) n →
      u ≠ .boolean false → Looped f n es r m' → Looped f m (e :: es) r m'
  | stop {m m' : Machine} {e : Value × Value} {es : List (Value × Value)} :
      Performs Job.body (Action.callFirst f [e.1, e.2]) m (.ok (.boolean false)) m' →
      Looped f m (e :: es) (.ok []) m'
  | fail {m m' : Machine} {e : Value × Value} {es : List (Value × Value)} {x : Exit} :
      Performs Job.body (Action.callFirst f [e.1, e.2]) m (.error x) m' →
      Looped f m (e :: es) (.error x) m'

def looping (m : Machine) : Machine := { m with current := m.current.push ⟨false, answer⟩ }

/-- The table is there, and so is the function that goes through it. -/
structure Passable (t : TableId) (T : Table) (m : Machine) : Prop where
  table : m.heap.table t = T
  next : m.heap.function Heap.nextFunction = .builtin .next

/-- Nobody has changed the table.  A coroutine may have been suspended, and whoever went on at the
top level, where every action may be run, has left the function in its place. -/
structure Undisturbed (t : TableId) (T : Table) (m : Machine) : Prop where
  table : m.heap.table t = T
  next : m.current.owner ≠ none → m.heap.function Heap.nextFunction = .builtin .next

theorem Valid.replies_iff_returns (h : m.Valid) {i : Value} :
    Replies Job.body m (.each i (.table t) c f) r m' ↔
      Returns Job.body m.current.owner m.current.frames.length
        (m.looping, Action.eachRound i (.table t) c f) (m', answer r) := by
  have hs : m.step Job.body (.run (.each i (.table t) c f) answer)
      = .next m.looping (Action.eachRound i (.table t) c f) := rfl
  constructor
  · intro hr
    obtain ⟨y, hy, hz⟩ := hr answer
    cases hy.eq_of_next hs
    exact hz
  · intro hz
    obtain ⟨r', e, ha⟩ := h.inv.answered_of_returns (.run _) (.step hs) hz
    rw [answer_injective e]
    exact ha

theorem Valid.looping (h : m.Valid) : m.looping.Valid := by
  have hs : m.step Job.body (.run (.each .nil .nil .nil .nil) answer) = .next m.looping _ := rfl
  exact h.step hs

/-! ## between the rounds -/

theorem Visits.current (hv : Visits f m es n) (h : m.Valid) : n.current = m.current := by
  induction hv with
  | nil => rfl
  | cons hp _ _ ih =>
    obtain ⟨h', hcur⟩ := h.performs hp
    exact (ih h').trans hcur

theorem Visits.retains (hv : Visits f m es n) (h : m.Valid) (ho : m.current.owner = none)
    {now : Action Turn} (hx : Steadfast (m, now)) : m.heap.Retains n.heap := by
  induction hv with
  | nil => exact .refl _
  | cons hp _ _ ih =>
    obtain ⟨h', hcur⟩ := h.performs hp
    obtain ⟨hret, hx'⟩ := h.retains_performs ho hx (Action.steady_callFirst _ _ _) hp
    exact hret.trans (ih h' (by rw [hcur, ho]) hx')

/-- The function that goes through the table is in its place if it was so at the start. -/
theorem Undisturbed.passable (hn : Undisturbed t T n) (hv : Visits f m.looping es n) (h : m.Valid)
    {now : Action Turn} (hx : Steadfast (m, now))
    (hnext : m.heap.function Heap.nextFunction = .builtin .next) : Passable t T n := by
  refine ⟨hn.table, ?_⟩
  by_cases ho : m.current.owner = none
  · have hs : m.step Job.body (.run (.each .nil .nil .nil .nil) answer) = .next m.looping _ := rfl
    have hx' := (hx.at_top ho (.run (.each .nil .nil .nil .nil) answer)).proceeds h.inv (.step hs)
    exact (hv.retains h.looping ho hx').function hnext trivial nofun
  · have hcur : n.current = m.looping.current := hv.current h.looping
    exact hn.next (by rw [hcur]; exact ho)

/-! ## one round -/

def entryValues : Option (Value × Value) → List Value
  | some e => [e.1, e.2]
  | none => [.nil]

theorem gives_nextEntry {o : Option (Value × Value)} (hT : m.heap.table t = T)
    (hc : T.next c = .ok o) :
    Gives Job.body (Builtin.next.run [.table t, c]) m (.ok (entryValues o)) m := by
  have hread : Gives Job.body (Action.table t) m (.ok T) m := by
    intro q l
    show q = .ok (m.heap.table t) ∧ l = m ↔ _
    rw [hT]
  intro q l
  show Performs Job.body (Action.nextEntry t c) m q l ↔ _
  refine hread.performs_bind.trans ?_
  rw [hc]
  cases o <;> exact Iff.rfl

theorem Valid.gives_call_next (h : m.Valid) (hroom : m.current.depth < Strand.maxDepth)
    (hm : Passable t T m) {o : Option (Value × Value)} (hc : T.next c = .ok o) :
    Gives Job.body (Action.call (.function Heap.nextFunction) [.table t, c]) m
      (.ok (entryValues o)) m := by
  have hg : Gives Job.body (Builtin.next.run [.table t, c]) m.calling (.ok (entryValues o))
      m.calling := gives_nextEntry hm.table hc
  have hlib : LibraryGives m .next [.table t, c] (.ok (entryValues o)) m :=
    h.libraryGives hroom hg rfl rfl
  exact hlib.gives_call hm.next

def roundEnd (t : TableId) (k f u : Value) : Turn :=
  if u = .boolean false then .finish []
  else .again (.each (.function Heap.nextFunction) (.table t) k f)

theorem Valid.performs_last_round (h : m.Valid) (hroom : m.current.depth < Strand.maxDepth)
    (hm : Passable t T m) (hc : T.next c = .ok none) {q : Except Exit Turn} :
    Performs Job.body (Action.eachRound (.function Heap.nextFunction) (.table t) c f) m q l ↔
      q = .ok (.finish []) ∧ l = m :=
  (h.gives_call_next hroom hm hc).performs_bind

theorem Valid.performs_round (h : m.Valid) (hroom : m.current.depth < Strand.maxDepth)
    (hm : Passable t T m) (hc : T.next c = .ok (some e)) (he : e.1 ≠ .nil)
    {q : Except Exit Turn} :
    Performs Job.body (Action.eachRound (.function Heap.nextFunction) (.table t) c f) m q l ↔
      ∃ p, Performs Job.body (Action.callFirst f [e.1, e.2]) m p l ∧ q = p.map (roundEnd t e.1 f) := by
  rw [← performs_map]
  refine (h.gives_call_next hroom hm hc).performs_bind.trans ?_
  show Performs Job.body (if e.1.isNil then _ else (Action.callFirst f [e.1, e.2]).bind _) m q l ↔ _
  rw [if_neg (mt Value.isNil_iff.mp he)]
  refine iff_of_eq (congrArg (fun g => Performs Job.body (Action.bind _ g) m q l) (funext fun u => ?_))
  show _ = Action.done (if u = .boolean false then _ else _)
  by_cases hu : u = .boolean false
  · rw [if_pos hu, if_pos hu]
    rfl
  · rw [if_neg hu, if_neg hu]
    rfl

/-! ## all rounds -/

theorem Valid.returns_iff_end (h : l.Valid) (hl : l.current = s.push ⟨false, answer⟩) {q : Reply}
    {a : Action Turn} (ha : a = answer q) :
    Returns Job.body s.owner s.frames.length (l, a) (m', answer r) ↔
      r = q ∧ m' = { l with current := s } := by
  rw [ha, h.returns_iff_reply hl]
  constructor
  · intro e
    obtain ⟨rfl, e'⟩ := Prod.mk.inj e
    exact ⟨answer_injective e', rfl⟩
  · rintro ⟨rfl, rfl⟩
    rfl

/-- A loop does what a round performs, and then what is left to do. -/
theorem Valid.returns_iff_round (h : n.Valid) (hn : n.current = s.push ⟨false, answer⟩)
    {a : Action Turn} {z : Moment} : Returns Job.body s.owner s.frames.length (n, a) z ↔
      ∃ q l, Performs Job.body a n q l ∧
        Returns Job.body s.owner s.frames.length (l, ended q) z := by
  have ho : s.owner = n.current.owner := by rw [hn]; rfl
  rw [ho]
  refine h.returns_iff_performs ?_
  rw [hn]
  exact Nat.lt_succ_self _

theorem Valid.returns_iff_last_round (h : n.Valid) (hn : n.current = s.push ⟨false, answer⟩)
    (hroom : s.depth < Strand.maxDepth) (hp : Passable t T n) (hc : T.next c = .ok none) :
    Returns Job.body s.owner s.frames.length
        (n, Action.eachRound (.function Heap.nextFunction) (.table t) c f) (m', answer r) ↔
      r = .ok [] ∧ m' = { n with current := s } := by
  have hround := fun q l => h.performs_last_round (f := f) (q := q) (l := l)
    (by rw [hn]; exact hroom) hp hc
  rw [h.returns_iff_round hn]
  constructor
  · rintro ⟨q, l, hq, hz⟩
    obtain ⟨rfl, rfl⟩ := (hround q l).mp hq
    exact (h.returns_iff_end hn rfl).mp hz
  · intro hz
    exact ⟨_, n, (hround _ _).mpr ⟨rfl, rfl⟩, (h.returns_iff_end hn rfl).mpr hz⟩

/-- A body that gives anything but false makes room for the next round. -/
theorem Valid.returns_iff_again (h : l.Valid) (hl : l.current = s.push ⟨false, answer⟩) {k u : Value}
    (hu : u ≠ .boolean false) {z : Moment} :
    Returns Job.body s.owner s.frames.length (l, .done (roundEnd t k f u)) z ↔
      Returns Job.body s.owner s.frames.length
        (l, Action.eachRound (.function Heap.nextFunction) (.table t) k f) z := by
  have hs : l.step Job.body (.done (roundEnd t k f u)) = .next l
      (Action.eachRound (.function Heap.nextFunction) (.table t) k f) := by
    rw [roundEnd, if_neg hu]
    rfl
  exact h.inv.returns_iff_step (by rw [hl]; rfl) (by rw [hl]; exact Nat.lt_succ_self _) hs

/-- **The rounds of a loop call its body on the entries that are left**, until it gives false or
fails. -/
theorem Valid.returns_iff_looped (hT : T.Inv lastKey) (hroom : s.depth < Strand.maxDepth)
    (es : List (Value × Value)) : ∀ (before : List (Value × Value)) (n : Machine) (c : Value),
    n.Valid → n.current = s.push ⟨false, answer⟩ → T.entries = before ++ es →
    T.next c = .ok es.head? →
    (∀ us rest l, es = us ++ rest → Visits f n us l → Passable t T l) →
    (Returns Job.body s.owner s.frames.length
        (n, Action.eachRound (.function Heap.nextFunction) (.table t) c f) (m', answer r) ↔
      ∃ l, Looped f n es r l ∧ m' = { l with current := s }) := by
  -- on the entries that are left; the table is as it was whenever one is asked for
  induction es with
  | nil =>
    intro before n c h hn _ hc hkeep
    rw [h.returns_iff_last_round hn hroom (hkeep [] [] n rfl .nil) hc]
    constructor
    · rintro ⟨rfl, hm'⟩
      exact ⟨n, .over, hm'⟩
    · rintro ⟨l, hl, hm'⟩
      cases hl
      exact ⟨rfl, hm'⟩
  | cons e es ih =>
    intro before n c h hn hes hc hkeep
    have he : e.1 ≠ .nil := by
      have hm : (e.1, e.2) ∈ T.entries := by rw [hes]; simp
      exact hT.sound_tape.ne_nil_of_holds (hT.mem_entries.mp hm)
    have hround := fun q l => h.performs_round (f := f) (q := q) (l := l)
      (by rw [hn]; exact hroom) (hkeep [] _ n rfl .nil) hc he
    have hafter : ∀ {p l}, Performs Job.body (Action.callFirst f [e.1, e.2]) n p l →
        l.Valid ∧ l.current = s.push ⟨false, answer⟩ :=
      fun hp => (h.performs hp).imp_right (·.trans hn)
    have hagain : ∀ {u l}, Performs Job.body (Action.callFirst f [e.1, e.2]) n (.ok u) l →
        u ≠ .boolean false → (Returns Job.body s.owner s.frames.length
          (l, .done (roundEnd t e.1 f u)) (m', answer r) ↔
          ∃ l', Looped f l es r l' ∧ m' = { l' with current := s }) := by
      intro u l hp hu
      obtain ⟨hl, hcur⟩ := hafter hp
      rw [hl.returns_iff_again hcur hu]
      refine ih (before ++ [e]) l e.1 hl hcur (by rw [hes]; simp) (hT.next_entry hes) ?_
      intro us rest l' e' hv
      exact hkeep (e :: us) rest l' (by rw [e']; rfl) (.cons hp hu hv)
    rw [h.returns_iff_round hn]
    constructor
    · rintro ⟨q, l, hq, hz⟩
      obtain ⟨p, hp, rfl⟩ := (hround q l).mp hq
      obtain ⟨hl, hcur⟩ := hafter hp
      cases p with
      | error x =>
        obtain ⟨rfl, rfl⟩ := (hl.returns_iff_end hcur (q := .error x) rfl).mp hz
        exact ⟨l, .fail hp, rfl⟩
      | ok u =>
        by_cases hu : u = .boolean false
        · subst hu
          obtain ⟨rfl, rfl⟩ := (hl.returns_iff_end hcur (q := .ok []) rfl).mp hz
          exact ⟨l, .stop hp, rfl⟩
        · obtain ⟨l', hrest, hm'⟩ := (hagain hp hu).mp hz
          exact ⟨l', .again hp hu hrest, hm'⟩
    · rintro ⟨l, hl, rfl⟩
      cases hl with
      | again hp hu hrest =>
        exact ⟨_, _, (hround _ _).mpr ⟨_, hp, rfl⟩, (hagain hp hu).mpr ⟨l, hrest, rfl⟩⟩
      | stop hp =>
        obtain ⟨hl, hcur⟩ := hafter hp
        exact ⟨_, _, (hround _ _).mpr ⟨_, hp, rfl⟩,
          (hl.returns_iff_end hcur (q := .ok []) rfl).mpr ⟨rfl, rfl⟩⟩
      | @fail _ _ _ _ x hp =>
        obtain ⟨hl, hcur⟩ := hafter hp
        exact ⟨_, _, (hround _ _).mpr ⟨_, hp, rfl⟩,
          (hl.returns_iff_end hcur (q := .error x) rfl).mpr ⟨rfl, rfl⟩⟩

/-- **The loop over a table calls its body on the entries of the table.** -/
theorem Valid.replies_iff_looped (h : m.Valid) (hroom : m.current.depth < Strand.maxDepth)
    (hT : T.Inv lastKey)
    (hkeep : ∀ us rest n, T.entries = us ++ rest → Visits f m.looping us n → Passable t T n) :
    Replies Job.body m (.each (.function Heap.nextFunction) (.table t) .nil f) r m' ↔
      ∃ n, Looped f m.looping T.entries r n ∧ m' = { n with current := m.current } := by
  rw [h.replies_iff_returns]
  refine Valid.returns_iff_looped hT hroom T.entries [] m.looping .nil h.looping rfl rfl ?_ hkeep
  rw [hT.next_first, hT.entries_eq]

theorem gives_pairs (hT : m.heap.table t = T) (hmt : T.metatable = none) :
    Gives Job.body (Action.pairs (.table t)) m
      (.ok ⟨.function Heap.nextFunction, .table t, .nil⟩) m := by
  have hmm : m.heap.metamethod? (.table t) .pairs = none := by
    unfold Heap.metamethod? Heap.metatable?
    dsimp only
    rw [hT, hmt]
    rfl
  have hread : Gives Job.body (Action.metamethod? (.table t) .pairs) m (.ok none) m := by
    intro q l
    show q = .ok (m.heap.metamethod? (.table t) .pairs) ∧ l = m ↔ _
    rw [hmm]
  exact fun q l => hread.performs_bind

/-! ## every table -/

/-- **A traversal enumerates the table.**  It meets the sequence first and then as many entries of
the hash part as there are, in the order of their nodes.  No key comes twice, and the entries are
what can be read.  From each entry `next` gets to the one after it, and after the last one to the
end.  The loop over a table without a metatable calls its body on these entries, one after the other,
until it gives false or fails, as long as the table is not changed.  The function `next` has to be in
its place at the start; a coroutine may be suspended, so there it has to be left in its place. -/
theorem traversal_enumerates {T : Table} (hmade : T.Made Edit.Plain) :
    T.entries = (List.range T.length).map (fun i => (.count (i + 1), T.getKey (.count (i + 1))))
      ++ (T.hash.nodes.toList.filter Node.live).map Node.entry ∧
    (T.hash.nodes.toList.filter Node.live).length = T.hashLength ∧
    (T.entries.map Prod.fst).Nodup ∧
    (∀ e ∈ T.entries, e.1.Plain) ∧
    (∀ k v : Value, k.Plain → ((k, v) ∈ T.entries ↔ v ≠ .nil ∧ T.rawGet k = v)) ∧
    T.next .nil = .ok T.entries[0]? ∧
    (∀ i e, T.entries[i]? = some e → T.next e.1 = .ok T.entries[i + 1]?) ∧
    ∀ {heap : Heap} {first now : Action Turn} {m : Machine} (t : TableId) (f : Value),
      Run Job.body (initial heap, first) (m, now) → m.current.depth < Strand.maxDepth →
      m.heap.table t = T → T.metatable = none →
      Gives Job.body (Action.pairs (.table t)) m
        (.ok ⟨.function Heap.nextFunction, .table t, .nil⟩) m ∧
      (m.heap.function Heap.nextFunction = .builtin .next →
        (∀ us rest n, T.entries = us ++ rest → Visits f m.looping us n → Undisturbed t T n) →
        ∀ r m', Replies Job.body m (.each (.function Heap.nextFunction) (.table t) .nil f) r m' ↔
          ∃ n, Looped f m.looping T.entries r n ∧ m' = { n with current := m.current }) := by
  have h := hmade.inv
  refine ⟨h.entries_parts, h.kept.live_eq_length.symm, h.nodup_entries, fun e he => ?_,
    fun k v hk => ?_, ?_, fun i e hi => ?_, ?_⟩
  · exact h.plain_of_holds (h.mem_entries.mp he)
  · rw [h.mem_entries, h.holds_iff hk, rawGet_of_isKey hk.1]
  · rw [h.next_first, h.entries_eq, List.head?_eq_getElem?]
  · obtain ⟨hlt, rfl⟩ := List.getElem?_eq_some_iff.mp hi
    have hsplit := (List.take_append_drop i T.entries).symm
    rw [List.drop_eq_getElem_cons hlt] at hsplit
    rw [h.next_entry hsplit, List.head?_drop]
  · intro heap first now m t f hr hroom hT hmt
    refine ⟨gives_pairs hT hmt, fun hnext hkeep r m' => ?_⟩
    have hm : m.Valid := (valid_initial _).run hr
    have hx : Steadfast (m, now) := (steadfast_initial _ _).run (inv_initial _) hr
    refine hm.replies_iff_looped hroom h fun us rest n he hv => ?_
    exact (hkeep us rest n he hv).passable hv hm hx hnext

/-! ## a loop that looks at types -/

def scattered : Table :=
  ((ofList [.integer 10, .integer 20]).edit (.setName "x" (.integer 1))).edit (.setInt 1 .nil)

def scatteredHeap : Heap :=
  { tables := #[scattered], functions := #[.builtin .next, .builtin .type], shared := [],
    locals := #[], log := [] }

def scatteredMachine : Machine := initial scatteredHeap

theorem gives_type (e : Value × Value) :
    Gives Job.body (Action.callFirst (.function ⟨1⟩) [e.1, e.2]) scatteredMachine.looping
      (.ok (.text e.1.ty.name)) scatteredMachine.looping := by
  have hg : Gives Job.body (Builtin.type.run [e.1, e.2]) scatteredMachine.looping.calling
      (.ok [.text e.1.ty.name]) scatteredMachine.looping.calling := fun _ _ => Iff.rfl
  have hlib : LibraryGives scatteredMachine.looping .type [e.1, e.2] (.ok [.text e.1.ty.name])
      scatteredMachine.looping :=
    (valid_initial scatteredHeap).looping.libraryGives (by decide) hg rfl rfl
  intro q l
  exact (hlib.gives_call (f := ⟨1⟩) rfl).performs_bind

/-- The loop changes nothing, so it goes through the entry that was sent to the hash part and the one
that was there. -/
theorem traversal_enumerates_scattered :
    scattered.Made Edit.Plain ∧ Replies Job.body scatteredMachine
      (.each (.function Heap.nextFunction) (.table ⟨0⟩) .nil (.function ⟨1⟩)) (.ok [])
      scatteredMachine := by
  have hmade : scattered.Made Edit.Plain :=
    .edit (.setInt 1 .nil) (by decide) (.edit (.setName "x" (.integer 1)) (by decide) (.ofList _))
  have hr : Run Job.body (initial scatteredHeap, answer (.ok []))
      (scatteredMachine, answer (.ok [])) := .refl
  have hkeep : ∀ us rest n, scattered.entries = us ++ rest →
      Visits (.function ⟨1⟩) scatteredMachine.looping us n → Undisturbed ⟨0⟩ scattered n := by
    intro us rest n he hv
    clear he
    generalize hm : scatteredMachine.looping = m at hv
    induction hv with
    | nil =>
      subst hm
      exact ⟨rfl, fun _ => rfl⟩
    | cons hp _ _ ih =>
      subst hm
      exact ih ((gives_type _ _ _).mp hp).2.symm
  have hlooped : ∀ es, Looped (.function ⟨1⟩) scatteredMachine.looping es (.ok [])
      scatteredMachine.looping := by
    intro es
    induction es with
    | nil => exact .over
    | cons e es ih => exact .again ((gives_type e _ _).mpr ⟨rfl, rfl⟩) nofun ih
  obtain ⟨_, _, _, _, _, _, _, hloop⟩ := traversal_enumerates hmade
  exact ⟨hmade, ((hloop ⟨0⟩ (.function ⟨1⟩) hr (by decide) rfl rfl).2 rfl hkeep _ _).mpr
    ⟨_, hlooped _, rfl⟩⟩

end Machine

end LuaMachine
