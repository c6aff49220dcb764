import LuaMachine.Operation.Access
import LuaMachine.Proofs.Histories
import LuaMachine.Proofs.Performing

/-!
# Reads see writes along matching chains

A read follows `__index` handlers and a write follows `__newindex` handlers, each with its own test
for a key and its own count of tables.  Where the tables of a chain have the same handler for both,
the two stop at one table, whatever the shape of the chain, and a read after a write gives what was
written.

* `Heap.Chain`       the values that `__index` handlers lead to;
* `Heap.Matching`    a chain whose tables have one handler for reading and for writing;
* `Heap.Meet`        how a read and a write of one key end together;
* `Matching.meet`    they do, along a matching chain;
* `Matching.lookupWithin_stored`   the read after the write;
* `reads_see_writes`               the operations of the machine.
-/

namespace LuaMachine

namespace Table

variable {t t' : Table} {k v : Value}

/-- A value was stored under a key, and that is the only entry that changed. -/
structure Stored (t : Table) (k v : Value) (t' : Table) : Prop where
  entries : Stores t.tape k v t'.tape
  placed : t'.getKey k = v
  others : ∀ k' : Value, k'.Plain → k' ≠ k → t'.getKey k' = t.getKey k'
  metatable : t'.metatable = t.metatable

theorem metatable_setKey (t : Table) (k v : Value) : (t.setKey k v).metatable = t.metatable := by
  cases k with
  | integer n => exact metatable_setInt t n v
  | _ => rfl

theorem Inv.stored_setKey (h : t.Inv lastKey) (hk : k.Plain) (v : Value) :
    Stored t k v (t.setKey k v) where
  entries := h.stores_setKey hk.1 (h.exact_of_ne hk.1 hk.2) fun _ => t.room_lastKey
  placed := (h.getKey_setKey hk hk v).trans (if_pos rfl)
  others := fun _ hk' hne => (h.getKey_setKey hk hk' v).trans (if_neg hne)
  metatable := metatable_setKey t k v

theorem rawGet_eq {key : Value} (hk : key.key? = some k) : t.rawGet key = t.getKey k := by
  unfold rawGet
  rw [hk]

theorem contains_iff {key : Value} : t.contains key = true ↔ t.rawGet key ≠ .nil := by
  unfold contains
  rw [Bool.not_eq_true', ← Bool.not_eq_true, Value.isNil_iff]

end Table

namespace Heap

variable {h : Heap} {v w x key k : Value} {t u : TableId} {n : Nat}

/-! ## one table of a walk -/

section
variable (hc : (h.table t).contains key = true)
include hc

theorem lookupWithin_present :
    h.lookupWithin key (n + 1) (.table t) = .value ((h.table t).rawGet key) := if_pos hc

theorem placeWithin_present : h.placeWithin key (n + 1) (.table t) = .table t := if_pos hc

end

section
variable (hc : ¬ (h.table t).contains key = true)
include hc

theorem lookupWithin_bare (hh : h.metamethod? (.table t) .index = none) :
    h.lookupWithin key (n + 1) (.table t) = .value .nil := by
  refine (if_neg hc).trans ?_
  rw [hh]

theorem placeWithin_bare (hh : h.metamethod? (.table t) .newIndex = none) :
    h.placeWithin key (n + 1) (.table t) = .table t := by
  refine (if_neg hc).trans ?_
  rw [hh]

variable (hw : ∀ f, w ≠ .function f)
include hw

theorem lookupWithin_next (hh : h.metamethod? (.table t) .index = some w) :
    h.lookupWithin key (n + 1) (.table t) = h.lookupWithin key n w := by
  refine (if_neg hc).trans ?_
  rw [hh]
  cases w with
  | function f => exact absurd rfl (hw f)
  | _ => rfl

theorem placeWithin_next (hh : h.metamethod? (.table t) .newIndex = some w) :
    h.placeWithin key (n + 1) (.table t) = h.placeWithin key n w := by
  refine (if_neg hc).trans ?_
  rw [hh]
  cases w with
  | function f => exact absurd rfl (hw f)
  | _ => rfl

end

/-! ## chains -/

/-- The values that `__index` handlers lead to from a value, itself included. -/
inductive Chain (h : Heap) : Value → Value → Prop
  | start (v : Value) : Chain h v v
  | next {t : TableId} {w x : Value} :
      h.metamethod? (.table t) .index = some w → Chain h w x → Chain h (.table t) x

/-- Along a chain of tables of the heap, the handler for writing is the one for reading, and it is
never a function. -/
structure Matching (h : Heap) (v : Value) : Prop where
  inside : ∀ t, h.Chain v (.table t) → t.index < h.tables.size
  same : ∀ t, h.Chain v (.table t) →
    h.metamethod? (.table t) .newIndex = h.metamethod? (.table t) .index
  noFunction : ∀ f, ¬ h.Chain v (.function f)

theorem Matching.next (hm : h.Matching (.table t)) (hh : h.metamethod? (.table t) .index = some w) :
    h.Matching w where
  inside := fun t ht => hm.inside t (.next hh ht)
  same := fun t ht => hm.same t (.next hh ht)
  noFunction := fun f hf => hm.noFunction f (.next hh hf)

theorem Matching.ne_function (hm : h.Matching v) (f : FunctionId) : v ≠ .function f :=
  fun e => hm.noFunction f (e ▸ .start v)

/-- How a read and a write of one key end together: at one table of the chain, after too many
tables, or at a value that is no table. -/
inductive Meet (h : Heap) (v : Value) : Found → Target → Prop
  | table {r : Value} {u : TableId} : h.Chain v (.table u) → Meet h v (.value r) (.table u)
  | endless : Meet h v (.failure .indexChain) (.failure .newIndexChain)
  | operand {ty : Ty} : ty ≠ .table →
      Meet h v (.failure (.operand .index ty)) (.failure (.operand .index ty))

theorem Meet.next {r : Found} {p : Target} (hh : h.metamethod? (.table t) .index = some w)
    (hm : h.Meet w r p) : h.Meet (.table t) r p := by
  cases hm with
  | table hc => exact .table (.next hh hc)
  | endless => exact .endless
  | operand hty => exact .operand hty

/-- **A read and a write end together.**  By induction on the tables that may still be visited,
which both count down. -/
theorem Matching.meet (hm : h.Matching v) (key : Value) (n : Nat) :
    h.Meet v (h.lookupWithin key n v) (h.placeWithin key n v) := by
  induction n generalizing v with
  | zero => exact .endless
  | succ n ih =>
    cases v with
    | table t =>
      have hsame := hm.same t (.start _)
      by_cases hc : (h.table t).contains key = true
      · rw [lookupWithin_present hc, placeWithin_present hc]
        exact .table (.start _)
      cases hh : h.metamethod? (.table t) .index with
      | none =>
        rw [lookupWithin_bare hc hh, placeWithin_bare hc (hsame.trans hh)]
        exact .table (.start _)
      | some w =>
        have hw := (hm.next hh).ne_function
        rw [lookupWithin_next hc hw hh, placeWithin_next hc hw (hsame.trans hh)]
        exact (ih (hm.next hh)).next hh
    | _ => exact .operand nofun

/-! ## after the write -/

section
variable {T : Table} (hu : u.index < h.tables.size) (hs : Table.Stored (h.table u) k x T)
include hu hs

theorem metatable?_stored (t : TableId) :
    (h.setTable u T).metatable? (.table t) = h.metatable? (.table t) := by
  show ((h.setTable u T).table t).metatable = (h.table t).metatable
  rw [table_setTable hu]
  split
  · rename_i e
    rw [e, hs.metatable]
  · rfl

theorem metamethod?_stored {mm : Metamethod} (hk : k ≠ mm.key) (t : TableId) :
    (h.setTable u T).metamethod? (.table t) mm = h.metamethod? (.table t) mm := by
  have hget : ∀ mt, ((h.setTable u T).table mt).rawGet mm.key = (h.table mt).rawGet mm.key := by
    intro mt
    rw [table_setTable hu]
    split
    · rename_i e
      rw [e]
      exact hs.others mm.key ⟨Value.isKey_string _, nofun⟩ hk.symm
    · rfl
  unfold metamethod?
  rw [metatable?_stored hu hs]
  cases h.metatable? (.table t) with
  | none => rfl
  | some mt =>
    show (if (((h.setTable u T).table mt).rawGet mm.key).isNil then none
      else some (((h.setTable u T).table mt).rawGet mm.key)) = _
    rw [hget]
    rfl

/-- **The read after the write.**  If a table before the one that took the entry is that table
again, the read ends there already. -/
theorem Matching.lookupWithin_stored (hm : h.Matching v) (hkey : key.key? = some k)
    (hk : k ≠ Metamethod.index.key) (hx : x ≠ .nil) (hp : h.placeWithin key n v = .table u) :
    (h.setTable u T).lookupWithin key n v = .value x := by
  have hget : ((h.setTable u T).table u).rawGet key = x := by
    rw [table_setTable hu, if_pos rfl, Table.rawGet_eq hkey, hs.placed]
  have hfound : ((h.setTable u T).table u).contains key = true := by
    rw [Table.contains_iff, hget]
    exact hx
  induction n generalizing v with
  | zero => cases hp
  | succ n ih =>
    cases v with
    | table t =>
      by_cases he : t = u
      · rw [he, lookupWithin_present hfound, hget]
      have hsame := hm.same t (.start _)
      by_cases hc : (h.table t).contains key = true
      · rw [placeWithin_present hc] at hp
        exact absurd (Target.table.inj hp) he
      have hc' : ¬ ((h.setTable u T).table t).contains key = true := by
        rwa [table_setTable hu, if_neg he]
      cases hh : h.metamethod? (.table t) .index with
      | none =>
        rw [placeWithin_bare hc (hsame.trans hh)] at hp
        exact absurd (Target.table.inj hp) he
      | some w =>
        have hw := (hm.next hh).ne_function
        rw [placeWithin_next hc hw (hsame.trans hh)] at hp
        rw [lookupWithin_next hc' hw ((metamethod?_stored hu hs hk t).trans hh)]
        exact ih (hm.next hh) hp
    | _ => cases hp

end

end Heap

/-! ## the operations -/

namespace Machine

variable {m : Machine} {v key k x r : Value} {t u : TableId} {f : Failure}

theorem gives_index_of_value (h : m.heap.lookup v key = .value r) :
    Gives Job.body (Action.index v key) m (.ok r) m := by
  refine gives_heap.bind ?_
  rw [h]
  exact fun _ _ => Iff.rfl

theorem gives_index_of_failure (h : m.heap.lookup v key = .failure f) :
    Gives Job.body (Action.index v key) m (.error (.failed f)) m := by
  refine gives_heap.bind ?_
  rw [h]
  exact gives_exit _

theorem gives_newIndex_of_failure (h : m.heap.place v key = .failure f) :
    Gives Job.body (Action.newIndex v key x) m (.error (.failed f)) m := by
  refine gives_heap.bind ?_
  rw [h]
  exact gives_exit _

theorem gives_newIndex_of_table (h : m.heap.place v key = .table u)
    (hu : u.index < m.heap.tables.size) (hk : key.key? = some k) :
    Gives Job.body (Action.newIndex v key x) m (.ok ())
      (m.setTable u ((m.heap.table u).setKey k x)) := by
  refine gives_heap.bind ?_
  rw [h]
  show Gives Job.body (Action.rawSet u key x) m _ _
  unfold Action.rawSet
  rw [hk]
  exact gives_modifyTable hu (·.setKey k x) ()

/-- **Reads see writes.**  Along a chain whose tables have the same handler for reading and for
writing and no function among the handlers, both operations end.  A write succeeds exactly if a read
before it does; if the chain is too long, or leads to a value that is no table, both fail for that
reason and nothing changes.  A write that succeeds changes what one table of the chain has under the
key, and nothing else; and a read after it gives the value. -/
theorem reads_see_writes
    (hmade : ∀ u : TableId, u.index < m.heap.tables.size → (m.heap.table u).Made Table.Edit.Plain)
    (hchain : m.heap.Matching (.table t)) (hkey : key.key? = some k)
    (hplain : k ≠ .float Double.twoPow63) (hk : k ≠ Metamethod.index.key) (hv : v ≠ .nil) :
    ∃ q q' m', Gives Job.body (Action.index (.table t) key) m q m ∧
      Gives Job.body (Action.newIndex (.table t) key v) m q' m' ∧
      ((∃ r, q = .ok r) ↔ q' = .ok ()) ∧
      (∀ e, q = .error e → m' = m ∧
        (e = .failed .indexChain ∧ q' = .error (.failed .newIndexChain) ∨
          ∃ ty, ty ≠ .table ∧ e = .failed (.operand .index ty) ∧ q' = .error e)) ∧
      (q' = .ok () →
        (∃ u table, m.heap.Chain (.table t) (.table u) ∧ u.index < m.heap.tables.size ∧
          m' = m.setTable u table ∧ Table.Stored (m.heap.table u) k v table) ∧
        Gives Job.body (Action.index (.table t) key) m' (.ok v) m') := by
  have hmeet := hchain.meet key Heap.chainLimit
  generalize hl : m.heap.lookupWithin key Heap.chainLimit (.table t) = found at hmeet
  generalize hp : m.heap.placeWithin key Heap.chainLimit (.table t) = target at hmeet
  cases hmeet with
  | @table r u hu =>
    have hin := hchain.inside u hu
    have hs := (hmade u hin).inv.stored_setKey ⟨Value.isKey_of_key? hkey, hplain⟩ v
    refine ⟨_, _, _, gives_index_of_value hl, gives_newIndex_of_table hp hin hkey,
      ⟨fun _ => rfl, fun _ => ⟨r, rfl⟩⟩, nofun, fun _ => ⟨⟨u, _, hu, hin, rfl, hs⟩, ?_⟩⟩
    exact gives_index_of_value (hchain.lookupWithin_stored hin hs hkey hk hv hp)
  | endless =>
    refine ⟨_, _, m, gives_index_of_failure hl, gives_newIndex_of_failure hp,
      ⟨nofun, nofun⟩, ?_, nofun⟩
    rintro _ ⟨⟩
    exact ⟨rfl, .inl ⟨rfl, rfl⟩⟩
  | @operand ty hty =>
    refine ⟨_, _, m, gives_index_of_failure hl, gives_newIndex_of_failure hp,
      ⟨nofun, nofun⟩, ?_, nofun⟩
    rintro _ ⟨⟩
    exact ⟨rfl, .inr ⟨ty, hty, rfl, rfl⟩⟩

def mirror (self other : TableId) : Table :=
  { ((Table.empty 0).edit (.setName "__index" (.table self))).edit
      (.setName "__newindex" (.table self)) with metatable := some other }

/-- Two tables that are metatables of each other and handlers for each other; the second one has an
entry. -/
def mirrors : Machine :=
  initial { Heap.initial with
    tables := #[mirror ⟨0⟩ ⟨1⟩, (mirror ⟨1⟩ ⟨0⟩).edit (.setName "x" (.integer 10))] }

theorem chain_mirrors {v : Value} (h : mirrors.heap.Chain (.table ⟨0⟩) v) :
    v = .table ⟨0⟩ ∨ v = .table ⟨1⟩ := by
  have hend : ∀ {u}, mirrors.heap.Chain u v → u = .table ⟨0⟩ ∨ u = .table ⟨1⟩ →
      v = .table ⟨0⟩ ∨ v = .table ⟨1⟩ := by
    clear h
    intro u hc
    induction hc with
    | start u => exact id
    | @next t w x hh _ ih =>
      have h0 : mirrors.heap.metamethod? (.table ⟨0⟩) .index = some (.table ⟨1⟩) := by
        decide +kernel
      have h1 : mirrors.heap.metamethod? (.table ⟨1⟩) .index = some (.table ⟨0⟩) := by
        decide +kernel
      rintro (e | e)
      · rw [e, h0] at hh
        exact ih (.inr (Option.some.inj hh).symm)
      · rw [e, h1] at hh
        exact ih (.inl (Option.some.inj hh).symm)
  exact hend h (.inl rfl)

/-- Along the endless chain from one table to the other and back, a key of the second one is written
there and read again; a key that neither has fails both ways. -/
theorem reads_see_writes_mirrors :
    mirrors.heap.Matching (.table ⟨0⟩) ∧
    (∃ m',
      Gives Job.body (Action.newIndex (.table ⟨0⟩) (.text "x") (.integer 11)) mirrors (.ok ()) m' ∧
      Gives Job.body (Action.index (.table ⟨0⟩) (.text "x")) m' (.ok (.integer 11)) m') ∧
    Gives Job.body (Action.newIndex (.table ⟨0⟩) (.text "y") (.integer 11)) mirrors
      (.error (.failed .newIndexChain)) mirrors := by
  have hmatch : mirrors.heap.Matching (.table ⟨0⟩) := by
    refine ⟨fun t ht => ?_, fun t ht => ?_, fun f hf => ?_⟩
    · rcases chain_mirrors ht with e | e <;> cases e <;> decide
    · rcases chain_mirrors ht with e | e <;> cases e <;> decide +kernel
    · rcases chain_mirrors hf with e | e <;> cases e
  have hmirror : ∀ self other, (mirror self other).Made Table.Edit.Plain := fun self other =>
    .metatable _ (.edit _ nofun (.edit _ nofun (.empty 0)))
  have hmade : ∀ u : TableId, u.index < mirrors.heap.tables.size →
      (mirrors.heap.table u).Made Table.Edit.Plain := by
    rintro ⟨_ | _ | u⟩ hu
    · exact hmirror _ _
    · exact .edit (.setName "x" (.integer 10)) nofun (hmirror ⟨1⟩ ⟨0⟩)
    · exact absurd hu (by simp [mirrors, initial])
  refine ⟨hmatch, ?_, ?_⟩
  · obtain ⟨q, q', m', hr, hw, hiff, _, hafter⟩ := reads_see_writes hmade hmatch
      (show (Value.text "x").key? = some (.text "x") from rfl) nofun (by decide)
      (show Value.integer 11 ≠ .nil from nofun)
    have hq := (gives_index_of_value (show mirrors.heap.lookup (.table ⟨0⟩) (.text "x")
      = .value (.integer 10) by decide +kernel)).unique hr
    have hq' := hiff.mp ⟨_, hq.1⟩
    exact ⟨m', hq' ▸ hw, (hafter hq').2⟩
  · obtain ⟨q, q', m', hr, hw, _, hfail, _⟩ := reads_see_writes hmade hmatch
      (show (Value.text "y").key? = some (.text "y") from rfl) nofun (by decide)
      (show Value.integer 11 ≠ .nil from nofun)
    have hq := (gives_index_of_failure (show mirrors.heap.lookup (.table ⟨0⟩) (.text "y")
      = .failure .indexChain by decide +kernel)).unique hr
    obtain ⟨rfl, ⟨_, rfl⟩ | ⟨_, _, e, _⟩⟩ := hfail _ hq.1
    · exact hw
    · cases e

end Machine

end LuaMachine
