import Mathlib.Data.Finmap
import Mathlib.Data.Nat.Find
import LuaMachine.Proofs.Tape

/-!
# A table is a finite map

A program sees of a table what it reads: values by key, the border, the values up to it, and how
many entries there are beyond.  All of it can be told from a finite map of keys to values, without
an array part, nodes or an index.

* `Dictionary`   finite maps, with the same reads and writes;
* `Request`      a read or a write, and the `Observation` that it yields;
* `Represents`   the map of a table: what the tape holds;
* `Represents.answer`   one request, and `Represents.run` any number of them.

The float `2^63` is left out: as long as there is no index, it is found in the place of the integers
that round to it.
-/

namespace LuaMachine

/-! ## finite maps -/

abbrev Dictionary := Finmap fun _ : Value => Value

namespace Dictionary
variable {m : Dictionary} {k v : Value}

def store (m : Dictionary) (k v : Value) : Dictionary :=
  if v = .nil then m.erase k else m.insert k v

def value (m : Dictionary) (k : Value) : Value := (m.lookup k).getD .nil

/-- Whether a count is an integer that has a value. -/
def hasCount (m : Dictionary) (n : Nat) : Bool := n ≤ Table.lastKey ∧ Value.count n ∈ m

theorem exists_border (m : Dictionary) : ∃ n, m.hasCount (n + 1) = false :=
  ⟨Table.lastKey, decide_eq_false fun h => Nat.not_succ_le_self _ h.1⟩

/-- The least `n` for which `n + 1` is absent. -/
def border (m : Dictionary) : Nat := Nat.find m.exists_border

/-- The keys other than `1, …, n` for the border `n`. -/
def rest (m : Dictionary) : Finset Value := m.keys.filter fun k => ∀ i < m.border, k ≠ .count (i + 1)

theorem lookup_store {a b : Value} : (m.store k v).lookup a = some b ↔
    (a = k ∧ b = v ∧ v ≠ .nil) ∨ (a ≠ k ∧ m.lookup a = some b) := by
  unfold store
  by_cases hv : v = .nil
  · rw [if_pos hv]
    by_cases ha : a = k
    · rw [ha, Finmap.lookup_erase]
      simp [hv]
    · rw [Finmap.lookup_erase_ne ha]
      simp [ha]
  · rw [if_neg hv]
    by_cases ha : a = k
    · rw [ha, Finmap.lookup_insert]
      simp [hv, eq_comm]
    · rw [Finmap.lookup_insert_of_ne _ ha]
      simp [ha]

theorem eq_empty_iff : m = ∅ ↔ m.border = 0 ∧ m.rest.card = 0 := by
  constructor
  · rintro rfl
    refine ⟨(Nat.find_eq_zero _).mpr (decide_eq_false fun h => ?_), ?_⟩
    · exact Finmap.notMem_empty h.2
    · rw [Finset.card_eq_zero]
      exact Finset.filter_empty _
  · rintro ⟨hb, hr⟩
    unfold rest at hr
    rw [hb, Finset.card_eq_zero, Finset.filter_eq_empty_iff] at hr
    apply Finmap.ext_lookup
    intro k
    rw [Finmap.lookup_empty, Finmap.lookup_eq_none]
    intro hk
    exact hr (Finmap.mem_keys.mpr hk) fun i hi => absurd hi (Nat.not_lt_zero i)

end Dictionary

/-! ## requests -/

inductive Request where
  | set (key value : Value)
  | setInt (key : Int64) (value : Value)
  | setName (name : String) (value : Value)
  | push (value : Value)
  | get (key : Value)
  | getInt (key : Int64)
  | getName (name : String)
  | contains (key : Value)
  | length
  | values
  | hashLength
  | isEmpty

inductive Observation where
  | done
  | refused (why : BadKey)
  | value (v : Value)
  | truth (b : Bool)
  | number (n : Nat)
  | list (vs : List Value)
deriving DecidableEq

namespace Request

def key? : Request → Option Value
  | .set key _ => key.key?
  | .get key => key.key?
  | .contains key => key.key?
  | _ => none

/-- A request that does not name the float `2^63`. -/
def Plain (r : Request) : Prop := r.key? ≠ some (.float Double.twoPow63)

instance (r : Request) : Decidable r.Plain := inferInstanceAs (Decidable (_ ≠ _))

/-- Requests one after the other: the last state, and the replies. -/
def run {σ : Type} (answer : σ → Request → σ × Observation) (s : σ) :
    List Request → σ × List Observation
  | [] => (s, [])
  | r :: rs =>
    let (s, reply) := answer s r
    let (s, replies) := run answer s rs
    (s, reply :: replies)

end Request

def Table.answer (t : Table) : Request → Table × Observation
  | .set key value =>
    match t.rawSet key value with
    | .ok t => (t, .done)
    | .error why => (t, .refused why)
  | .setInt key value => (t.setInt key value, .done)
  | .setName name value => (t.setKey (.text name) value, .done)
  | .push value => (t.push value, .done)
  | .get key => (t, .value (t.rawGet key))
  | .getInt key => (t, .value (t.getInt key))
  | .getName name => (t, .value (t.getKey (.text name)))
  | .contains key => (t, .truth (t.contains key))
  | .length => (t, .number t.length)
  | .values => (t, .list t.array.toList)
  | .hashLength => (t, .number t.hashLength)
  | .isEmpty => (t, .truth t.isEmpty)

/-- The finite map after a request, and the reply. -/
def Dictionary.answer (m : Dictionary) : Request → Dictionary × Observation
  | .set key value =>
    match key.key? with
    | some k => (m.store k value, .done)
    | none => (m, .refused (if key.isNil then .nil else .nan))
  | .setInt key value => (m.store (.integer key) value, .done)
  | .setName name value => (m.store (.text name) value, .done)
  | .push value => (m.store (.count (m.border + 1)) value, .done)
  | .get key => (m, .value ((key.key?.map m.value).getD .nil))
  | .getInt key => (m, .value (m.value (.integer key)))
  | .getName name => (m, .value (m.value (.text name)))
  | .contains key => (m, .truth (key.key?.any (· ∈ m)))
  | .length => (m, .number m.border)
  | .values => (m, .list ((List.range m.border).map fun i => m.value (.count (i + 1))))
  | .hashLength => (m, .number m.rest.card)
  | .isEmpty => (m, .truth (m = ∅))

/-! ## the map of a table -/

namespace Table
variable {t : Table} {m : Dictionary} {k v : Value}

/-- The map has what the tape holds. -/
structure Represents (t : Table) (m : Dictionary) : Prop where
  inv : t.Inv lastKey
  entry : ∀ k v, m.lookup k = some v ↔ Holds t.tape k v

theorem represents_empty (capacity : Nat) : (empty capacity).Represents ∅ where
  inv := inv_empty lastKey capacity
  entry := by
    intro k v
    rw [Finmap.lookup_empty]
    exact ⟨fun h => (nomatch h), fun h => (nomatch h.2)⟩

theorem clear_lastKey (hk : k.IsKey) (hp : k ≠ .float Double.twoPow63) : k.Clear lastKey := by
  intro n _ hr
  rcases Value.rawEq_cases hk (Value.isKey_integer n) hr with e | ⟨_, _, e, _⟩ | ⟨_, e, _, _⟩
  · exact e
  · cases e
  · exact absurd e hp

theorem Inv.exact_of_ne (h : t.Inv lastKey) (hk : k.IsKey) (hp : k ≠ .float Double.twoPow63) :
    t.hash.Exact k := by
  intro a ha hr
  have hne : a ≠ .nil := by
    rintro rfl
    have := Value.rawEq_symm hr
    rw [Value.rawEq_nil hk.ne_nil] at this
    cases this
  rcases Value.rawEq_cases (h.kept.isKey ha hne) hk hr with e | ⟨_, _, e, _⟩ | ⟨n, ea, ek, _⟩
  · exact e
  · exact absurd e hp
  · have hn : n.toInt ≤ (lastKey : Int) + 1 := by
      have := n.toInt_lt
      rw [lastKey_eq]
      omega
    rw [ek] at hr ⊢
    exact h.clear a ha n hn hr

namespace Represents

theorem store (h : t.Represents m) (hk : k.IsKey) (hp : k ≠ .float Double.twoPow63) (v : Value) :
    (t.setKey k v).Represents (m.store k v) where
  inv := h.inv.setKey hk (clear_lastKey hk hp) fun _ => .inr (Nat.le_refl _)
  entry := by
    intro a b
    have hs := h.inv.stores_setKey (v := v) hk (h.inv.exact_of_ne hk hp) fun _ => .inr (Nat.le_refl _)
    rw [Dictionary.lookup_store, h.entry, hs a b]

theorem value (h : t.Represents m) (hk : k.IsKey) (hp : k ≠ .float Double.twoPow63) :
    m.value k = t.getKey k := by
  unfold Dictionary.value
  cases hl : m.lookup k with
  | some v => exact (h.inv.getKey_of_holds ((h.entry k v).mp hl)).symm
  | none =>
    by_contra hne
    have hh := h.inv.holds_getKey hk (h.inv.exact_of_ne hk hp) (Ne.symm hne)
    rw [(h.entry k _).mpr hh] at hl
    cases hl

theorem mem_iff (h : t.Represents m) : k ∈ m ↔ ∃ v, Holds t.tape k v := by
  rw [Finmap.mem_iff]
  exact exists_congr fun v => h.entry k v

theorem mem_iff_getKey (h : t.Represents m) (hk : k.IsKey) (hp : k ≠ .float Double.twoPow63) :
    k ∈ m ↔ t.getKey k ≠ .nil := by
  rw [h.mem_iff]
  constructor
  · rintro ⟨v, hv⟩
    rw [h.inv.getKey_of_holds hv]
    exact hv.1
  · intro hne
    exact ⟨_, h.inv.holds_getKey hk (h.inv.exact_of_ne hk hp) hne⟩

theorem lookup_count (h : t.Represents m) {i : Nat} (hi : i < t.array.size) :
    m.lookup (.count (i + 1)) = some t.array[i] := by
  rw [h.entry]
  exact ⟨h.inv.full _ (Array.getElem_mem_toList hi), List.mem_of_getElem? (getElem?_tape hi)⟩

/-- **The border is the size of the array part.** -/
theorem border (h : t.Represents m) : m.border = t.array.size := by
  have hl := h.inv.size_le_lastKey
  refine (Nat.find_eq_iff _).mpr ⟨decide_eq_false ?_, fun n hn hc => ?_⟩
  · rintro ⟨hle, hm⟩
    obtain ⟨v, hv⟩ := h.mem_iff.mp hm
    rw [lastKey_eq] at hle
    have hs := Value.toInt_ofNat (n := t.array.size + 1) (by omega)
    rcases holds_append.mp hv with hr | hr
    · have := (within_of_holds_run hl hr).2
      omega
    · exact h.inv.border _ hr.2 ((Node.live_iff _).mpr hr.1) _ rfl hs
  · refine of_decide_eq_false hc ⟨by omega, ?_⟩
    rw [Finmap.mem_iff]
    exact ⟨_, h.lookup_count hn⟩

/-- **The array part has the values up to the border.** -/
theorem values (h : t.Represents m) :
    (List.range m.border).map (fun i => m.value (.count (i + 1))) = t.array.toList := by
  rw [h.border]
  apply List.ext_getElem
  · rw [List.length_map, List.length_range, Array.length_toList]
  · intro i h1 h2
    rw [Array.length_toList] at h2
    rw [List.getElem_map, List.getElem_range, Array.getElem_toList]
    unfold Dictionary.value
    rw [h.lookup_count h2]
    rfl

theorem rest (h : t.Represents m) :
    m.rest = ((t.hash.nodes.toList.filter Node.live).map Node.key).toFinset := by
  ext k
  unfold Dictionary.rest
  rw [Finset.mem_filter, Finmap.mem_keys, h.mem_iff, h.border, List.mem_toFinset, List.mem_map]
  constructor
  · rintro ⟨⟨v, hv⟩, hk⟩
    rcases holds_append.mp hv with hr | hr
    · obtain ⟨j, w, hj, e⟩ := Node.mem_run hr.2
      have hjl := (List.getElem?_eq_some_iff.mp hj).1
      rw [Array.length_toList] at hjl
      exact absurd ((Node.mk.inj e).1.trans (by rw [Nat.add_comm])) (hk j hjl)
    · exact ⟨_, holds_iff_filter.mp hr, rfl⟩
  · rintro ⟨n, hn, rfl⟩
    have hr : Holds t.hash.nodes.toList n.key n.value := holds_iff_filter.mpr hn
    refine ⟨⟨_, holds_append.mpr (.inr hr)⟩, fun i hi he => ?_⟩
    have hl := h.inv.size_lt
    have hm : Value.count (i + 1) ∈ t.hash.keys := he ▸ hr.mem_keys
    refine h.inv.unshadowed _ hm ?_
    unfold Within
    rw [Value.toInt_ofNat (by omega)]
    omega

theorem card_rest (h : t.Represents m) : m.rest.card = t.hash.live := by
  rw [h.rest, List.toFinset_card_of_nodup h.inv.kept.sound.nodup_live, List.length_map,
    h.inv.kept.live_eq_length]

theorem isEmpty (h : t.Represents m) : decide (m = ∅) = t.isEmpty := by
  unfold Table.isEmpty
  rw [Bool.eq_iff_iff, decide_eq_true_eq, Dictionary.eq_empty_iff, h.border, h.card_rest,
    Bool.and_eq_true, Array.isEmpty_iff_size_eq_zero, beq_iff_eq]

/-- **One request**: the same reply, and again the map of the table. -/
theorem answer (h : t.Represents m) {r : Request} (hr : r.Plain) :
    (t.answer r).2 = (m.answer r).2 ∧ (t.answer r).1.Represents (m.answer r).1 := by
  have hplain : ∀ {key k : Value}, r.key? = key.key? → key.key? = some k →
      k.IsKey ∧ k ≠ .float Double.twoPow63 := by
    intro key k hkey hk
    refine ⟨Value.isKey_of_key? hk, fun he => hr ?_⟩
    rw [hkey, hk, he]
  cases r with
  | set key value =>
    unfold Table.answer Dictionary.answer rawSet
    dsimp only
    cases hk : key.key? with
    | none => exact ⟨rfl, h⟩
    | some k =>
      obtain ⟨hkey, hne⟩ := hplain rfl hk
      exact ⟨rfl, h.store hkey hne value⟩
  | setInt key value => exact ⟨rfl, h.store (Value.isKey_integer key) (fun he => nomatch he) value⟩
  | setName name value => exact ⟨rfl, h.store (Value.isKey_string _) (fun he => nomatch he) value⟩
  | push value =>
    refine ⟨rfl, ?_⟩
    show (t.setKey (.count (t.array.size + 1)) value).Represents
      (m.store (.count (m.border + 1)) value)
    rw [h.border]
    exact h.store (Value.isKey_count _) (fun he => nomatch he) value
  | get key =>
    refine ⟨?_, h⟩
    unfold Table.answer Dictionary.answer rawGet
    dsimp only
    cases hk : key.key? with
    | none => rfl
    | some k =>
      obtain ⟨hkey, hne⟩ := hplain rfl hk
      exact congrArg Observation.value (h.value hkey hne).symm
  | getInt key =>
    exact ⟨congrArg Observation.value
      (h.value (Value.isKey_integer key) (fun he => nomatch he)).symm, h⟩
  | getName name =>
    exact ⟨congrArg Observation.value
      (h.value (Value.isKey_string _) (fun he => nomatch he)).symm, h⟩
  | contains key =>
    refine ⟨?_, h⟩
    unfold Table.answer Dictionary.answer contains rawGet
    dsimp only
    cases hk : key.key? with
    | none => rfl
    | some k =>
      obtain ⟨hkey, hne⟩ := hplain rfl hk
      refine congrArg Observation.truth ?_
      rw [Option.any_some, Bool.eq_iff_iff, decide_eq_true_eq, h.mem_iff_getKey hkey hne,
        Bool.not_eq_true', Value.isNil_eq_false]
  | length => exact ⟨congrArg Observation.number h.border.symm, h⟩
  | values => exact ⟨congrArg Observation.list h.values.symm, h⟩
  | hashLength => exact ⟨congrArg Observation.number h.card_rest.symm, h⟩
  | isEmpty => exact ⟨congrArg Observation.truth h.isEmpty.symm, h⟩

theorem run (rs : List Request) : ∀ (t : Table) (m : Dictionary), t.Represents m →
    (∀ r ∈ rs, r.Plain) →
    (Request.run Table.answer t rs).2 = (Request.run Dictionary.answer m rs).2 ∧
      (Request.run Table.answer t rs).1.Represents (Request.run Dictionary.answer m rs).1 := by
  induction rs with
  | nil => intro t m h _; exact ⟨rfl, h⟩
  | cons r rs ih =>
    intro t m h hp
    obtain ⟨hreply, hafter⟩ := h.answer (hp r List.mem_cons_self)
    obtain ⟨hreplies, hend⟩ := ih _ _ hafter fun r hr => hp r (List.mem_cons_of_mem _ hr)
    refine ⟨?_, hend⟩
    show (t.answer r).2 :: (Request.run Table.answer (t.answer r).1 rs).2
      = (m.answer r).2 :: (Request.run Dictionary.answer (m.answer r).1 rs).2
    rw [hreply, hreplies]

end Represents

theorem answer_set_refused {key value : Value} :
    (∃ why, t.answer (.set key value) = (t, .refused why)) ↔
      key = .nil ∨ ∃ x, key = .float x ∧ x.isNaN = true := by
  rw [← Value.key?_eq_none]
  unfold answer rawSet
  dsimp only
  cases key.key? with
  | none => simp
  | some k => simp

/-- **A table is a finite map.**  It gives the replies that the map gives to any history of reads and
writes; two histories that lead to the same map cannot be told apart by what follows; and storing
under nil and NaN, and only this, is refused and changes nothing. -/
theorem table_refines_dictionary (capacity : Nat) (history : List Request)
    (hp : ∀ r ∈ history, r.Plain) :
    (Request.run answer (empty capacity) history).2 = (Request.run Dictionary.answer ∅ history).2 ∧
    (∀ (capacity' : Nat) (history' later : List Request), (∀ r ∈ history', r.Plain) →
      (∀ r ∈ later, r.Plain) →
      (Request.run Dictionary.answer ∅ history').1 = (Request.run Dictionary.answer ∅ history).1 →
      (Request.run answer (Request.run answer (empty capacity') history').1 later).2
        = (Request.run answer (Request.run answer (empty capacity) history).1 later).2) ∧
    ∀ key value, (∃ why, (Request.run answer (empty capacity) history).1.answer (.set key value)
        = ((Request.run answer (empty capacity) history).1, .refused why)) ↔
      key = .nil ∨ ∃ x, key = .float x ∧ x.isNaN = true := by
  obtain ⟨hreplies, hend⟩ := Represents.run history _ _ (represents_empty capacity) hp
  refine ⟨hreplies, fun capacity' history' later hp' hl he => ?_, fun key value => answer_set_refused⟩
  obtain ⟨_, hend'⟩ := Represents.run history' _ _ (represents_empty capacity') hp'
  rw [(Represents.run later _ _ hend' hl).1, (Represents.run later _ _ hend hl).1, he]

/-- A sequence whose first key is cleared by its float and set again, and a key that is refused. -/
theorem dictionary_gap_filled :
    (Request.run Dictionary.answer ∅ [.push (.integer 10), .setInt 3 (.integer 30),
      .setName "x" (.integer 1), .length, .hashLength, .set (.float ⟨0x3FF0000000000000⟩) .nil,
      .isEmpty, .set .nil .nil, .setInt 2 (.integer 20), .push (.integer 40), .length, .values]).2
      = [.done, .done, .done, .number 1, .number 2, .done, .truth false, .refused .nil, .done, .done,
        .number 3, .list [.integer 40, .integer 20, .integer 30]] :=
  (table_refines_dictionary 0 _ (by decide +kernel)).1.symm.trans (by decide +kernel)

end Table

end LuaMachine
