import LuaMachine.Proofs.NodeOrder
import LuaMachine.Proofs.Traversal

/-!
# Capacity cannot be seen

A table that was created with room for many entries has an index from the start; another one gets
its index when its nodes become many.  The index only finds the nodes, so two tables with the same
array part and the same nodes give the same replies, and every command leaves them so.

* `Command`, `Response`   what is asked of a table, and what it replies;
* `Twin`                  two tables that differ in their indexes at most;
* `Twin.reply`            one command, and `Twin.converse` any number of them.

The float `2^63` is left out as in `LuaMachine.Proofs.Dictionary`: without an index it is found in
the place of the integers that round to it.
-/

namespace LuaMachine

/-! ## hash parts with the same nodes -/

namespace HashPart
variable {h h' : HashPart} {k v : Value} {i : Nat}

/-- The same nodes; the indexes may differ. -/
structure Alike (h h' : HashPart) : Prop where
  nodes : h'.nodes = h.nodes
  live : h'.live = h.live

theorem Alike.keys (ha : Alike h h') : h'.keys = h.keys := by
  unfold HashPart.keys
  rw [ha.nodes]

theorem Alike.exact (ha : Alike h h') (hx : h.Exact k) : h'.Exact k := by
  unfold Exact
  rw [ha.keys]
  exact hx

theorem Inv.position?_eq_some_iff (hv : h.Inv) (hk : k.IsKey) (hx : h.Exact k) :
    h.position? k = some i ↔ h.keys[i]? = some k := by
  constructor
  · intro hp
    obtain ⟨n, hn, hkey⟩ := hv.found_exact hk hx hp
    rw [getElem?_keys, hn, ← hkey]
    rfl
  · exact hv.found_own hk.ne_nil

/-- A search that stops at no other key does not depend on the index. -/
theorem Alike.position? (ha : Alike h h') (hv : h.Inv) (hv' : h'.Inv) (hk : k.IsKey)
    (hx : h.Exact k) : h'.position? k = h.position? k := by
  apply Option.ext
  intro i
  rw [hv'.position?_eq_some_iff hk (ha.exact hx), hv.position?_eq_some_iff hk hx, ha.keys]

theorem Alike.get? (ha : Alike h h') (hp : h'.position? k = h.position? k) :
    h'.get? k = h.get? k := by
  unfold HashPart.get?
  rw [hp, ha.nodes]

theorem Alike.replace (ha : Alike h h') (i : Nat) (v : Value) :
    Alike (h.replace i v) (h'.replace i v) := by
  obtain ⟨nodes, live, index⟩ := h
  obtain ⟨nodes', live', index'⟩ := h'
  obtain ⟨rfl, rfl⟩ := ha
  exact ⟨rfl, rfl⟩

theorem Alike.append (ha : Alike h h') (k v : Value) : Alike (h.append k v) (h'.append k v) := by
  obtain ⟨nodes, live, index⟩ := h
  obtain ⟨nodes', live', index'⟩ := h'
  obtain ⟨rfl, rfl⟩ := ha
  exact ⟨rfl, rfl⟩

theorem Alike.compact (ha : Alike h h') : Alike h.compact h'.compact := by
  refine ⟨?_, ha.live⟩
  show h'.nodes.filter Node.live = h.nodes.filter Node.live
  rw [ha.nodes]

theorem Alike.set (ha : Alike h h') (hp : h'.position? k = h.position? k) (v : Value) :
    Alike (h.set k v) (h'.set k v) := by
  unfold HashPart.set
  rw [hp, ha.nodes, ha.live]
  split
  · exact ha.replace _ v
  · split
    · exact ha
    · split
      · exact ha.compact.append k v
      · exact ha.append k v

theorem Alike.prependRun (ha : Alike h h') (first : Nat) (vs : List Value) :
    Alike (h.prependRun first vs) (h'.prependRun first vs) := by
  unfold HashPart.prependRun
  split
  · exact ha
  · refine ⟨?_, ?_⟩
    · show (Node.run first vs).toArray ++ h'.nodes = (Node.run first vs).toArray ++ h.nodes
      rw [ha.nodes]
    · show h'.live + vs.length = h.live + vs.length
      rw [ha.live]

theorem Alike.take (ha : Alike h h') (hp : h'.position? k = h.position? k) :
    (h'.take k).1 = (h.take k).1 ∧ Alike (h.take k).2 (h'.take k).2 := by
  unfold HashPart.take
  rw [hp, ha.nodes]
  split
  · exact ⟨rfl, ha⟩
  · obtain ⟨nodes, live, index⟩ := h
    obtain ⟨nodes', live', index'⟩ := h'
    obtain ⟨rfl, rfl⟩ := ha
    exact ⟨rfl, rfl, rfl⟩

theorem Alike.firstFrom (ha : Alike h h') (i : Nat) : h'.firstFrom i = h.firstFrom i := by
  unfold HashPart.firstFrom
  rw [ha.nodes]

end HashPart

namespace Table
variable {t t' : Table} {k v : Value}

/-! ## tables with the same array part and the same nodes -/

theorem Parts.position?_count {array : Array Value} {h h' : HashPart} {n : Nat}
    (ha : h.Alike h') (hp : Parts lastKey array h) (hp' : Parts lastKey array h')
    (hn : n ≤ array.size + 1) (hl : n ≤ lastKey) :
    h'.position? (Value.count n) = h.position? (Value.count n) :=
  ha.position? hp.kept hp'.kept (Value.isKey_count n) (hp.exact hn hl)

theorem absorbRun_alike (fuel : Nat) : ∀ (array : Array Value) (h h' : HashPart), h.Alike h' →
    Parts lastKey array h → Parts lastKey array h' →
    (absorbRun fuel array h').1 = (absorbRun fuel array h).1 ∧
      (absorbRun fuel array h).2.Alike (absorbRun fuel array h').2 := by
  induction fuel with
  | zero =>
    intro array h h' ha _ _
    exact ⟨rfl, ha⟩
  | succ fuel ih =>
    intro array h h' ha hp hp'
    rw [absorbRun, absorbRun]
    dsimp only
    split
    · rename_i hlt
      have hkey := Value.isKey_count (array.size + 1)
      obtain ⟨hval, hrest⟩ := ha.take (Parts.position?_count ha hp hp' (Nat.le_refl _) hlt)
      rw [hval]
      split
      · exact ⟨rfl, hrest⟩
      · rename_i hnil
        rw [Value.isNil_iff] at hnil
        have hf := full_push hp hnil
        have hs : (array.push (h.take (Value.count (array.size + 1))).1).size = array.size + 1 :=
          Array.size_push _
        apply ih _ _ _ hrest
        · exact (hp.take hkey).grow hf hs (HashPart.not_mem_keys_take hp.kept hkey) hlt hlt
        · exact (hp'.take hkey).grow hf hs (HashPart.not_mem_keys_take hp'.kept hkey) hlt hlt
    · exact ⟨rfl, ha⟩

/-- Two tables with the same array part and the same nodes. -/
structure Twin (t t' : Table) : Prop where
  inv : t.Inv lastKey
  inv' : t'.Inv lastKey
  array : t'.array = t.array
  hash : t.hash.Alike t'.hash

theorem room_lastKey (t : Table) : t.Room lastKey := .inr (Nat.le_refl _)

theorem twin_empty (capacity : Nat) : Twin (empty 0) (empty capacity) :=
  ⟨inv_empty _ 0, inv_empty _ capacity, rfl, ⟨rfl, rfl⟩⟩

namespace Twin

theorem slot? (h : Twin t t') (n : Int64) : t'.slot? n = t.slot? n := by
  unfold Table.slot?
  rw [h.array]

theorem position? (h : Twin t t') (hk : k.IsKey) (hp : k ≠ .float Double.twoPow63) :
    t'.hash.position? k = t.hash.position? k :=
  h.hash.position? h.inv.kept h.inv'.kept hk (h.inv.exact_of_ne hk hp)

theorem position?_integer (h : Twin t t') (n : Int64) :
    t'.hash.position? (.integer n) = t.hash.position? (.integer n) :=
  h.position? (Value.isKey_integer n) (fun e => nomatch e)

/-! ### reading -/

theorem getInt (h : Twin t t') (n : Int64) : t'.getInt n = t.getInt n := by
  unfold Table.getInt
  rw [h.slot?, h.array, h.hash.get? (h.position?_integer n)]

theorem getKey (h : Twin t t') (hk : k.IsKey) (hp : k ≠ .float Double.twoPow63) :
    t'.getKey k = t.getKey k := by
  unfold Table.getKey
  split
  · exact h.getInt _
  · rw [h.hash.get? (h.position? hk hp)]

theorem rawGet (h : Twin t t') {key : Value} (hp : key.key? ≠ some (.float Double.twoPow63)) :
    t'.rawGet key = t.rawGet key := by
  unfold Table.rawGet
  cases hk : key.key? with
  | none => rfl
  | some k => exact h.getKey (Value.isKey_of_key? hk) (fun e => hp (by rw [hk, e]))

theorem nodeFrom (h : Twin t t') (i : Nat) : t'.nodeFrom i = t.nodeFrom i := by
  unfold Table.nodeFrom
  rw [h.hash.firstFrom]

theorem entryFrom (h : Twin t t') (i : Nat) : t'.entryFrom i = t.entryFrom i := by
  unfold Table.entryFrom
  rw [h.array, h.nodeFrom]

theorem afterSlot? (h : Twin t t') (k : Value) : t'.afterSlot? k = t.afterSlot? k := by
  cases k with
  | integer n =>
    show (t'.slot? n).map (· + 1) = (t.slot? n).map (· + 1)
    rw [h.slot?]
  | _ => rfl

theorem next (h : Twin t t') {key : Value} (hp : key.key? ≠ some (.float Double.twoPow63)) :
    t'.next key = t.next key := by
  cases hk : key.key? with
  | none =>
    cases key with
    | nil => exact congrArg Except.ok (h.entryFrom 0)
    | _ => simp only [Table.next, hk]
  | some k =>
    have hpos := h.position? (Value.isKey_of_key? hk) (fun e => hp (by rw [hk, e]))
    have hnext : t'.nextKey k = t.nextKey k := by
      simp only [nextKey, h.afterSlot?, h.entryFrom, h.nodeFrom, hpos]
    cases key with
    | nil => cases hk
    | _ => simp only [Table.next, hk, hnext]

/-! ### writing -/

theorem with_array (h : Twin t t') {array : Array Value}
    (hi : Inv lastKey { t with array }) (hi' : Inv lastKey { t' with array }) :
    Twin { t with array } { t' with array } := ⟨hi, hi', rfl, h.hash⟩

theorem absorb (h : Twin t t') {array : Array Value} (hf : ∀ v ∈ array.toList, v ≠ .nil)
    (hs : array.size = t.array.size + 1) (hl : t.array.size < lastKey) :
    Twin ({ t with array } : Table).absorb ({ t' with array } : Table).absorb := by
  have hs' : array.size = t'.array.size + 1 := by rw [h.array]; exact hs
  have hl' : t'.array.size < lastKey := by rw [h.array]; exact hl
  have hgrow := h.inv.absorb hf hs hl t.room_lastKey
  have hgrow' := h.inv'.absorb hf hs' hl' t'.room_lastKey
  by_cases he : t.hash.nodes.isEmpty = true
  · have he' : t'.hash.nodes.isEmpty = true := by rw [h.hash.nodes]; exact he
    rw [absorb_empty he] at hgrow ⊢
    rw [absorb_empty he'] at hgrow' ⊢
    exact ⟨hgrow.inv, hgrow'.inv, rfl, h.hash⟩
  · have he' : ¬ t'.hash.nodes.isEmpty = true := by rw [h.hash.nodes]; exact he
    have hkey := Value.isKey_count (t.array.size + 1)
    have hpos : t'.hash.position? (.count (t.array.size + 1))
        = t.hash.position? (.count (t.array.size + 1)) := h.position?_integer _
    obtain ⟨_, hrest⟩ := h.hash.take hpos
    have hp := (h.inv.toParts.take hkey).grow hf hs
      (HashPart.not_mem_keys_take h.inv.kept hkey) hl hl
    have hp' := (h.inv'.toParts.take hkey).grow hf hs'
      (by rw [h.array]; exact HashPart.not_mem_keys_take h.inv'.kept hkey) hl' hl'
    obtain ⟨harray, hhash⟩ := absorbRun_alike
      ((t.hash.take (.count (t.array.size + 1))).2.nodes.size + 1) array _ _ hrest hp hp'
    refine ⟨hgrow.inv, hgrow'.inv, ?_, ?_⟩
    · rw [absorb_nodes hs he, absorb_nodes hs he', hrest.nodes]
      exact harray
    · rw [absorb_nodes hs he, absorb_nodes hs he', hrest.nodes]
      exact hhash

theorem setInt (h : Twin t t') (n : Int64) (v : Value) : Twin (t.setInt n v) (t'.setInt n v) := by
  have hi := h.inv.setInt n (v := v) fun _ => t.room_lastKey
  have hi' := h.inv'.setInt n (v := v) fun _ => t'.room_lastKey
  rcases setInt_cases t n v with ⟨i, hs, hv, e⟩ | ⟨i, hs, rfl, e⟩ | ⟨hn, hv, e⟩ | ⟨hw, hn, e⟩
  · have e' := setInt_slot ((h.slot? n).trans hs) hv
    rw [e] at hi ⊢
    rw [e'] at hi' ⊢
    exact ⟨hi, hi', by dsimp only; rw [h.array], h.hash⟩
  · have e' := setInt_clear ((h.slot? n).trans hs)
    rw [e] at hi ⊢
    rw [e'] at hi' ⊢
    refine ⟨hi, hi', ?_, ?_⟩
    · show t'.array.extract 0 i = t.array.extract 0 i
      rw [h.array]
    · show (t.hash.prependRun _ _).Alike (t'.hash.prependRun _ _)
      rw [h.array]
      exact h.hash.prependRun _ _
  · have e' := setInt_next (t := t') (by rw [h.array]; exact hn) hv
    rw [e, e', h.array]
    exact h.absorb (full_push h.inv.toParts hv) (Array.size_push v) (lt_lastKey hn)
  · have e' := setInt_outside (t := t') (by rw [h.array]; exact hw) (by rw [h.array]; exact hn)
    rw [e] at hi ⊢
    rw [e'] at hi' ⊢
    exact ⟨hi, hi', h.array, h.hash.set (h.position?_integer n) v⟩

theorem setKey (h : Twin t t') (hk : k.IsKey) (hp : k ≠ .float Double.twoPow63) (v : Value) :
    Twin (t.setKey k v) (t'.setKey k v) := by
  have hroom : v ≠ .nil → t.Room lastKey := fun _ => t.room_lastKey
  have hroom' : v ≠ .nil → t'.Room lastKey := fun _ => t'.room_lastKey
  have hi := h.inv.setKey hk (clear_lastKey hk hp) hroom
  have hi' := h.inv'.setKey hk (clear_lastKey hk hp) hroom'
  cases k with
  | integer n => exact h.setInt n v
  | _ => exact ⟨hi, hi', h.array, h.hash.set (h.position? hk hp) v⟩

theorem shiftUp (p count : Nat) : ∀ t t' : Table, Twin t t' →
    Twin (t.shiftUp p count) (t'.shiftUp p count) := by
  induction count with
  | zero =>
    intro t t' h
    exact h
  | succ count ih =>
    intro t t' h
    unfold Table.shiftUp
    dsimp only
    rw [h.getInt]
    exact ih _ _ (h.setInt _ _)

theorem hasRoomAt (h : Twin t t') (p : Int64) : t'.hasRoomAt p = t.hasRoomAt p := by
  unfold Table.hasRoomAt length
  rw [h.array]

theorem insertAt (h : Twin t t') {p : Int64} (hp : t.hasRoomAt p = true) (v : Value) :
    Twin (t.insertAt p v) (t'.insertAt p v) := by
  unfold Table.insertAt length
  dsimp only
  rw [h.array]
  split
  · exact (shiftUp _ _ _ _ h).setInt p .nil
  · rename_i hv
    rw [Value.isNil_iff] at hv
    obtain ⟨h1, hle, hl⟩ := hasRoomAt_bounds hp h.inv.size_le_lastKey
    refine h.absorb (fun w hw => ?_) (size_insertIdx (by omega) v) hl
    rcases mem_of_mem_insertIdx hw with rfl | hw
    · exact hv
    · exact h.inv.full w hw

theorem removeAt (h : Twin t t') (p : Int64) : Twin (t.removeAt p) (t'.removeAt p) := by
  have hi := h.inv.removeAt p
  have hi' := h.inv'.removeAt p
  unfold Table.removeAt at hi hi' ⊢
  rw [h.slot?] at hi' ⊢
  cases hs : t.slot? p with
  | none => exact h
  | some i =>
    rw [hs] at hi hi'
    dsimp only at hi hi' ⊢
    rw [h.array] at hi' ⊢
    exact h.with_array hi hi'

end Twin

/-! ## commands -/

inductive Command where
  | edit (e : Edit)
  | get (key : Value)
  | next (key : Value)

inductive Response where
  | done
  | refused (why : BadKey)
  | complaint (c : Complaint)
  | value (v : Value)
  | entry (e : Option (Value × Value))
deriving DecidableEq

namespace Command

def key? : Command → Option Value
  | .edit (.set key _) => key.key?
  | .get key => key.key?
  | .next key => key.key?
  | _ => none

/-- A command that does not name the float `2^63`. -/
def Plain (c : Command) : Prop := c.key? ≠ some (.float Double.twoPow63)

instance (c : Command) : Decidable c.Plain := inferInstanceAs (Decidable (_ ≠ _))

end Command

def after (t : Table) : Command → Table
  | .edit e => t.edit e
  | _ => t

def reply (t : Table) : Command → Response
  | .edit (.set key value) =>
    match t.rawSet key value with
    | .ok _ => .done
    | .error why => .refused why
  | .edit (.insert position _) => if t.hasRoomAt position then .done else .complaint .position
  | .edit (.remove position) =>
    if (t.slot? position).isSome then .value (t.getInt position) else .complaint .position
  | .edit _ => .done
  | .get key => .value (t.rawGet key)
  | .next key =>
    match t.next key with
    | .ok e => .entry e
    | .error c => .complaint c

/-- Commands one after the other: the last table, and the replies. -/
def converse (t : Table) : List Command → Table × List Response
  | [] => (t, [])
  | c :: cs =>
    let (last, replies) := (t.after c).converse cs
    (last, t.reply c :: replies)

namespace Twin

theorem rawSet (h : Twin t t') {key : Value} (hp : key.key? ≠ some (.float Double.twoPow63))
    (v : Value) : Twin (t.edit (.set key v)) (t'.edit (.set key v)) := by
  show Twin ((t.rawSet key v).toOption.getD t) ((t'.rawSet key v).toOption.getD t')
  unfold Table.rawSet
  cases hk : key.key? with
  | none => exact h
  | some k => exact h.setKey (Value.isKey_of_key? hk) (fun e => hp (by rw [hk, e])) v

theorem after (h : Twin t t') {c : Command} (hp : c.Plain) : Twin (t.after c) (t'.after c) := by
  cases c with
  | get key => exact h
  | next key => exact h
  | edit e =>
    cases e with
    | set key value => exact h.rawSet hp value
    | setInt key value => exact h.setInt key value
    | setName name value =>
      exact h.setKey (Value.isKey_string _) (fun e => nomatch e) value
    | push value =>
      show Twin (t.setInt (Int64.ofNat (t.array.size + 1)) value)
        (t'.setInt (Int64.ofNat (t'.array.size + 1)) value)
      rw [h.array]
      exact h.setInt _ value
    | insert position value =>
      show Twin (if t.hasRoomAt position then t.insertAt position value else t)
        (if t'.hasRoomAt position then t'.insertAt position value else t')
      rw [h.hasRoomAt]
      split
      · rename_i hroom
        exact h.insertAt hroom value
      · exact h
    | remove position => exact h.removeAt position

theorem reply (h : Twin t t') {c : Command} (hp : c.Plain) : t'.reply c = t.reply c := by
  cases c with
  | get key => exact congrArg Response.value (h.rawGet hp)
  | next key =>
    unfold Table.reply
    dsimp only
    rw [h.next hp]
  | edit e =>
    cases e with
    | set key value =>
      unfold Table.reply Table.rawSet
      dsimp only
      cases key.key? with
      | none => rfl
      | some k => rfl
    | insert position value =>
      unfold Table.reply
      dsimp only
      rw [h.hasRoomAt]
    | remove position =>
      unfold Table.reply
      dsimp only
      rw [h.slot?, h.getInt]
    | _ => rfl

theorem converse (cs : List Command) : ∀ t t' : Table, Twin t t' → (∀ c ∈ cs, c.Plain) →
    (t'.converse cs).2 = (t.converse cs).2 ∧ Twin (t.converse cs).1 (t'.converse cs).1 := by
  induction cs with
  | nil =>
    intro t t' h _
    exact ⟨rfl, h⟩
  | cons c cs ih =>
    intro t t' h hp
    have hc := hp c List.mem_cons_self
    obtain ⟨hreplies, hlast⟩ := ih _ _ (h.after hc) fun c hm => hp c (List.mem_cons_of_mem _ hm)
    refine ⟨?_, hlast⟩
    show t'.reply c :: ((t'.after c).converse cs).2 = t.reply c :: ((t.after c).converse cs).2
    rw [h.reply hc, hreplies]

end Twin

theorem edit_set {key : Value} (hk : key.key? = some k) (v : Value) :
    t.edit (.set key v) = t.setKey k v := by
  show (t.rawSet key v).toOption.getD t = _
  unfold rawSet
  rw [hk]
  rfl

theorem Inv.keepsOrder_after (h : t.Inv lastKey) (c : Command) : KeepsOrder t (t.after c) := by
  cases c with
  | edit e => exact h.keepsOrder_edit t.room_lastKey e
  | _ => exact .of_hash rfl

/-- **The capacity of a table cannot be seen.**  A table that was created with room for any number
of entries replies as one that was created without room, and has the same nodes in the same order;
no command changes the order of its live nodes, and a value that is stored goes to the end, to the
place of the node that its key has, or, if it cuts the array part, sends the values behind it in
front. -/
theorem capacity_unobservable (capacity : Nat) (history : List Command)
    (hp : ∀ c ∈ history, c.Plain) :
    ((empty capacity).converse history).2 = ((empty 0).converse history).2 ∧
    ((empty capacity).converse history).1.hash.nodes = ((empty 0).converse history).1.hash.nodes ∧
    (∀ c, KeepsOrder ((empty capacity).converse history).1
      (((empty capacity).converse history).1.after c)) ∧
    ∀ key k v, key.key? = some k → k ≠ .float Double.twoPow63 →
      ((empty capacity).converse history).1.edit (.set key v)
        = ((empty capacity).converse history).1.setKey k v ∧
      Placed ((empty capacity).converse history).1 k v := by
  obtain ⟨hreplies, htwin⟩ := Twin.converse history _ _ (twin_empty capacity) hp
  refine ⟨hreplies, htwin.hash.nodes, htwin.inv'.keepsOrder_after, ?_⟩
  intro key k v hk hne
  exact ⟨edit_set hk v, htwin.inv'.placed (Value.isKey_of_key? hk) hne v⟩

/-- A gap sends the keys behind it in front, a traversal goes on from the key that was cleared, and
what has no place is refused. -/
theorem capacity_unobservable_gap :
    ((empty 16).converse [.edit (.setName "x" (.integer 1)), .edit (.setName "y" (.integer 2)),
      .edit (.push (.integer 10)), .edit (.push (.integer 20)), .edit (.push (.integer 30)),
      .edit (.setInt 2 .nil), .edit (.setName "x" .nil), .next (.integer 1), .next (.integer 3),
      .next (.text "x"), .edit (.setName "x" (.integer 3)), .next (.integer 3), .next (.text "z"),
      .edit (.set .nil .nil), .edit (.insert 3 .nil), .edit (.remove 1)]).2
      = [.done, .done, .done, .done, .done, .done, .done,
        .entry (some (.integer 3, .integer 30)), .entry (some (.text "y", .integer 2)),
        .entry (some (.text "y", .integer 2)), .done, .entry (some (.text "x", .integer 3)),
        .complaint .nextKey, .refused .nil, .complaint .position, .value (.integer 10)] :=
  (capacity_unobservable 16 _ (by decide +kernel)).1.trans (by decide +kernel)

end Table

end LuaMachine
