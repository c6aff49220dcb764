import Mathlib.Tactic.ByCases
import LuaMachine.Proofs.Key
import LuaMachine.Table.HashPart

/-!
# What the hash part of a table keeps

The nodes of a hash part are a list that grows at both ends, has values replaced, keys erased and
dead nodes dropped.  Beside it stand a count and an index.

* `Distinct`, `Apart`   what holds of the list of keys: only nil occurs twice, and no two keys are
                        raw-equal;
* `Sound`               what holds of the list of nodes;
* `Indexes`             an index that maps the keys to their positions;
* `HashPart.Inv`        what holds of the whole part, and is kept by `replace`, `append`, `compact`,
                        `set`, `prependRun` and `take`;
* `HashPart.Fresh`      a key for which a search finds nothing.

That no two keys are raw-equal matters while there is no index: a search then stops at the first key
that is raw-equal to the one it looks for.
-/

namespace LuaMachine

/-! ## lists of keys -/

/-- No key but nil occurs twice. -/
def Distinct (ks : List Value) : Prop := ks.Pairwise fun a b => a ≠ .nil → a ≠ b

/-- No two keys are raw-equal, nil apart. -/
def Apart (ks : List Value) : Prop := ks.Pairwise fun a b => a ≠ .nil → a.rawEq b = false

theorem pairwise_set {α : Type} {R : α → α → Prop} {l : List α} {a : α} (h : l.Pairwise R)
    (ha : ∀ b ∈ l, R a b) (hb : ∀ b ∈ l, R b a) (i : Nat) : (l.set i a).Pairwise R := by
  induction l generalizing i with
  | nil => exact h
  | cons x l ih =>
    rw [List.pairwise_cons] at h
    cases i with
    | zero =>
      rw [List.set_cons_zero, List.pairwise_cons]
      exact ⟨fun b hm => ha b (List.mem_cons_of_mem _ hm), h.2⟩
    | succ i =>
      rw [List.set_cons_succ, List.pairwise_cons]
      refine ⟨fun b hm => ?_, ih h.2 (fun b hm => ha b (List.mem_cons_of_mem _ hm))
        (fun b hm => hb b (List.mem_cons_of_mem _ hm)) i⟩
      rcases List.mem_or_eq_of_mem_set hm with hm | rfl
      · exact h.1 b hm
      · exact hb x List.mem_cons_self

theorem Distinct.erase {ks : List Value} (h : Distinct ks) (i : Nat) : Distinct (ks.set i .nil) :=
  pairwise_set h (fun _ _ hn => absurd rfl hn) (fun _ _ hn => hn) i

theorem Apart.erase {ks : List Value} (h : Apart ks) (i : Nat) : Apart (ks.set i .nil) :=
  pairwise_set h (fun _ _ hn => absurd rfl hn) (fun _ _ hn => Value.rawEq_nil hn) i

theorem Distinct.index_unique {ks : List Value} (h : Distinct ks) {i j : Nat} {k : Value}
    (hk : k ≠ .nil) (hi : ks[i]? = some k) (hj : ks[j]? = some k) : i = j := by
  obtain ⟨hil, hi⟩ := List.getElem?_eq_some_iff.mp hi
  obtain ⟨hjl, hj⟩ := List.getElem?_eq_some_iff.mp hj
  have hp := List.pairwise_iff_getElem.mp h
  rcases Nat.lt_trichotomy i j with hlt | he | hgt
  · exact absurd (hi.trans hj.symm) (hp i j hil hjl hlt (by rw [hi]; exact hk))
  · exact he
  · exact absurd (hj.trans hi.symm) (hp j i hjl hil hgt (by rw [hj]; exact hk))

theorem Distinct.append {ks : List Value} {k : Value} (h : Distinct ks) (hk : k ∉ ks) :
    Distinct (ks ++ [k]) := by
  unfold Distinct
  rw [List.pairwise_append]
  refine ⟨h, List.pairwise_singleton _ _, fun a ha b hb _ he => ?_⟩
  rw [List.mem_singleton] at hb
  exact hk (hb ▸ he ▸ ha)

theorem Apart.append {ks : List Value} {k : Value} (h : Apart ks)
    (hk : ∀ a ∈ ks, a.rawEq k = false) : Apart (ks ++ [k]) := by
  unfold Apart
  rw [List.pairwise_append]
  refine ⟨h, List.pairwise_singleton _ _, fun a ha b hb _ => ?_⟩
  rw [List.mem_singleton.mp hb]
  exact hk a ha

/-! ## lists of nodes -/

theorem Node.live_eq (n : Node) : n.live = !n.value.isNil := rfl

theorem Node.live_erased : (⟨.nil, .nil⟩ : Node).live = false := rfl

theorem Node.live_iff (n : Node) : n.live = true ↔ n.value ≠ .nil := by
  unfold Node.live
  rw [Bool.not_eq_true', Value.isNil_eq_false]

/-- What holds of the nodes of a hash part: erased nodes are empty, keys are normalised, and no key
has two nodes. -/
structure Sound (ns : List Node) : Prop where
  erased : ∀ n ∈ ns, n.key = .nil → n.value = .nil
  normal : ∀ n ∈ ns, n.key ≠ .nil → n.key.IsKey
  distinct : Distinct (ns.map Node.key)

theorem map_key_set {ns : List Node} {i : Nat} {n : Node} (hn : ns[i]? = some n) (v : Value) :
    (ns.set i ⟨n.key, v⟩).map Node.key = ns.map Node.key := by
  obtain ⟨hi, rfl⟩ := List.getElem?_eq_some_iff.mp hn
  have hm : i < (ns.map Node.key).length := by rw [List.length_map]; exact hi
  rw [List.map_set, ← List.getElem_map Node.key (h := hm)]
  exact List.set_getElem_self hm

namespace Sound
variable {ns : List Node}

theorem nil : Sound [] := ⟨by simp, by simp, List.Pairwise.nil⟩

theorem sublist {ms : List Node} (h : Sound ns) (hs : ms.Sublist ns) : Sound ms where
  erased := fun n hn => h.erased n (hs.subset hn)
  normal := fun n hn => h.normal n (hs.subset hn)
  distinct := List.Pairwise.sublist (hs.map _) h.distinct

theorem replace (h : Sound ns) {i : Nat} {n : Node} (hn : ns[i]? = some n) (hk : n.key ≠ .nil)
    (v : Value) : Sound (ns.set i ⟨n.key, v⟩) := by
  have hkeys := map_key_set hn v
  have hmem : n ∈ ns := List.mem_of_getElem? hn
  refine ⟨fun m hm => ?_, fun m hm => ?_, by rw [hkeys]; exact h.distinct⟩
  · rcases List.mem_or_eq_of_mem_set hm with hm | rfl
    · exact h.erased m hm
    · exact fun he => absurd he hk
  · rcases List.mem_or_eq_of_mem_set hm with hm | rfl
    · exact h.normal m hm
    · exact h.normal n hmem

theorem erase (h : Sound ns) (i : Nat) : Sound (ns.set i ⟨.nil, .nil⟩) := by
  refine ⟨fun m hm => ?_, fun m hm => ?_, by rw [List.map_set]; exact h.distinct.erase i⟩
  · rcases List.mem_or_eq_of_mem_set hm with hm | rfl
    · exact h.erased m hm
    · exact fun _ => rfl
  · rcases List.mem_or_eq_of_mem_set hm with hm | rfl
    · exact h.normal m hm
    · exact fun hn => absurd rfl hn

theorem append (h : Sound ns) {k : Value} (hk : k.IsKey) (hf : k ∉ ns.map Node.key) (v : Value) :
    Sound (ns ++ [⟨k, v⟩]) := by
  refine ⟨fun m hm => ?_, fun m hm => ?_, ?_⟩
  · rcases List.mem_append.mp hm with hm | hm
    · exact h.erased m hm
    · rw [List.mem_singleton.mp hm]
      exact fun he => absurd he hk.ne_nil
  · rcases List.mem_append.mp hm with hm | hm
    · exact h.normal m hm
    · rw [List.mem_singleton.mp hm]
      exact fun _ => hk
  · rw [List.map_append]
    exact h.distinct.append hf

theorem countP_replace {i : Nat} {n : Node} (hn : ns[i]? = some n) (m : Node) :
    (ns.set i m).countP Node.live + (if n.live then 1 else 0)
      = ns.countP Node.live + (if m.live then 1 else 0) := by
  obtain ⟨hi, hn⟩ := List.getElem?_eq_some_iff.mp hn
  rw [List.countP_set hi, hn]
  cases hl : n.live with
  | false => simp
  | true =>
    have : 0 < ns.countP Node.live :=
      List.countP_pos_iff.mpr ⟨n, hn ▸ List.getElem_mem hi, hl⟩
    simp only [if_true]
    omega

end Sound

theorem filter_erase_dead {ns : List Node} {i : Nat} {n : Node} (hn : ns[i]? = some n)
    (hl : n.live = false) : (ns.set i ⟨.nil, .nil⟩).filter Node.live = ns.filter Node.live := by
  obtain ⟨hi, rfl⟩ := List.getElem?_eq_some_iff.mp hn
  conv => rhs; rw [← List.take_append_drop i ns, List.drop_eq_getElem_cons hi]
  rw [List.set_eq_take_append_cons_drop, if_pos hi, List.filter_append, List.filter_append,
    List.filter_cons_of_neg (by simp [Node.live_erased]), List.filter_cons_of_neg (by simp [hl])]

theorem filter_erase_live {ns : List Node} {i : Nat} {n : Node} (hn : ns[i]? = some n)
    (hl : n.live = true) :
    (n :: (ns.set i ⟨.nil, .nil⟩).filter Node.live).Perm (ns.filter Node.live) := by
  obtain ⟨hi, rfl⟩ := List.getElem?_eq_some_iff.mp hn
  conv => rhs; rw [← List.take_append_drop i ns, List.drop_eq_getElem_cons hi]
  rw [List.set_eq_take_append_cons_drop, if_pos hi, List.filter_append, List.filter_append,
    List.filter_cons_of_neg (by simp [Node.live_erased]), List.filter_cons_of_pos hl]
  exact List.perm_middle.symm

namespace HashPart

/-! ## the index of a list of nodes -/

/-- A key's position is recorded unless the key is nil. -/
def record (ix : Std.HashMap Value Nat) (n : Node) (i : Nat) : Std.HashMap Value Nat :=
  if n.key.isNil then ix else ix.insert n.key i

theorem record_self {n : Node} (hn : n.key ≠ .nil) (ix : Std.HashMap Value Nat) (i : Nat) :
    (record ix n i)[n.key]? = some i := by
  unfold record
  rw [if_neg (by rw [Value.isNil_iff]; exact hn), Std.HashMap.getElem?_insert_self]

theorem record_ne {n : Node} {k : Value} (hk : n.key = k → k = .nil) (ix : Std.HashMap Value Nat)
    (i : Nat) : (record ix n i)[k]? = ix[k]? := by
  unfold record
  split
  · rfl
  · rename_i hn
    rw [Value.isNil_iff] at hn
    have hne : ¬ n.key = k := fun e => hn (e.trans (hk e))
    rw [Std.HashMap.getElem?_insert, if_neg (by simpa using hne)]

theorem foldl_record_of_not_mem {k : Value} (ns : List Node) :
    ∀ (s : Nat) (ix : Std.HashMap Value Nat), (k ∈ ns.map Node.key → k = .nil) →
      ((ns.zipIdx s).foldl (fun ix p => record ix p.1 p.2) ix)[k]? = ix[k]? := by
  induction ns with
  | nil => intro s ix _; rfl
  | cons n ns ih =>
    intro s ix hk
    rw [List.map_cons, List.mem_cons] at hk
    rw [List.zipIdx_cons, List.foldl_cons, ih _ _ (fun hm => hk (.inr hm))]
    exact record_ne (fun e => hk (.inl e.symm)) ix s

theorem foldl_record_of_mem {k : Value} (hk : k ≠ .nil) (ns : List Node) :
    ∀ (s : Nat) (ix : Std.HashMap Value Nat) (j : Nat), Distinct (ns.map Node.key) →
      (ns.map Node.key)[j]? = some k →
      ((ns.zipIdx s).foldl (fun ix p => record ix p.1 p.2) ix)[k]? = some (s + j) := by
  induction ns with
  | nil => intro s ix j _ hj; cases hj
  | cons n ns ih =>
    intro s ix j hd hj
    rw [List.zipIdx_cons, List.foldl_cons]
    cases j with
    | zero =>
      have he : n.key = k := by simpa using hj
      have hd' := List.pairwise_cons.mp hd
      rw [foldl_record_of_not_mem ns _ _
        (fun hm => absurd he (hd'.1 k hm (by rw [he]; exact hk)))]
      exact he ▸ record_self (by rw [he]; exact hk) ix s
    | succ j =>
      rw [ih (s + 1) _ j (List.pairwise_cons.mp hd).2 (by simpa using hj)]
      congr 1
      omega

/-- An index that maps each key of a list, nil apart, to its position, and nothing else. -/
def Indexes (ix : Std.HashMap Value Nat) (ks : List Value) : Prop :=
  ∀ (k : Value) (i : Nat), ix[k]? = some i ↔ k ≠ .nil ∧ ks[i]? = some k

/-- **The index of a list of nodes maps each key to its position.** -/
theorem indexOf_indexes {nodes : Array Node} (hd : Distinct (nodes.toList.map Node.key)) :
    Indexes (indexOf nodes) (nodes.toList.map Node.key) := by
  intro k i
  show ((nodes.toList.zipIdx 0).foldl (fun ix p => record ix p.1 p.2) {})[k]? = some i ↔ _
  by_cases hk : k = .nil
  · rw [foldl_record_of_not_mem _ _ _ (fun _ => hk)]
    simp [hk]
  by_cases hm : k ∈ nodes.toList.map Node.key
  · obtain ⟨j, hj⟩ := List.mem_iff_getElem?.mp hm
    rw [foldl_record_of_mem hk _ _ _ j hd hj, Nat.zero_add]
    constructor
    · intro e
      exact ⟨hk, Option.some.inj e ▸ hj⟩
    · intro e
      rw [hd.index_unique hk hj e.2]
  · rw [foldl_record_of_not_mem _ _ _ (fun h => absurd h hm)]
    constructor
    · intro e
      simp at e
    · intro e
      exact absurd (List.mem_of_getElem? e.2) hm

theorem getElem?_concat_iff {α : Type} {l : List α} {a b : α} {i : Nat} :
    (l ++ [a])[i]? = some b ↔ l[i]? = some b ∨ (i = l.length ∧ a = b) := by
  rw [List.getElem?_append]
  split
  · rename_i hlt
    constructor
    · exact .inl
    · rintro (e | ⟨e, _⟩)
      · exact e
      · omega
  · rename_i hge
    rw [List.getElem?_singleton, List.getElem?_eq_none (by omega)]
    constructor
    · intro e
      split at e
      · exact .inr ⟨by omega, Option.some.inj e⟩
      · cases e
    · rintro (e | ⟨e, rfl⟩)
      · cases e
      · rw [if_pos (by omega)]

theorem Indexes.append {ix : Std.HashMap Value Nat} {ks : List Value} (h : Indexes ix ks) {k : Value}
    (hk : k ≠ .nil) (hf : k ∉ ks) : Indexes (ix.insert k ks.length) (ks ++ [k]) := by
  intro k' j
  rw [getElem?_concat_iff, Std.HashMap.getElem?_insert]
  by_cases hkk : k = k'
  · subst hkk
    have hno : ¬ ks[j]? = some k := fun e => hf (List.mem_of_getElem? e)
    rw [if_pos (by simp)]
    constructor
    · intro e
      exact ⟨hk, .inr ⟨(Option.some.inj e).symm, rfl⟩⟩
    · rintro ⟨_, e | ⟨e, _⟩⟩
      · exact absurd e hno
      · rw [e]
  · rw [if_neg (by simpa using hkk), h]
    constructor
    · rintro ⟨h1, h2⟩
      exact ⟨h1, .inl h2⟩
    · rintro ⟨h1, h2 | ⟨_, h2⟩⟩
      · exact ⟨h1, h2⟩
      · exact absurd h2 hkk

theorem Indexes.erase {ix : Std.HashMap Value Nat} {ks : List Value} (h : Indexes ix ks)
    (hd : Distinct ks) {k : Value} {i : Nat} (hi : ks[i]? = some k) :
    Indexes (ix.erase k) (ks.set i .nil) := by
  intro k' j
  have hil : i < ks.length := (List.getElem?_eq_some_iff.mp hi).1
  rw [Std.HashMap.getElem?_erase, List.getElem?_set]
  by_cases hkk : k = k'
  · subst hkk
    rw [if_pos (by simp)]
    constructor
    · intro e
      cases e
    · rintro ⟨h1, h2⟩
      by_cases hij : i = j
      · rw [if_pos hij, if_pos hil] at h2
        exact absurd (Option.some.inj h2).symm h1
      · rw [if_neg hij] at h2
        exact absurd (hd.index_unique h1 hi h2) hij
  · rw [if_neg (by simpa using hkk), h]
    by_cases hij : i = j
    · subst hij
      rw [if_pos rfl, if_pos hil, hi]
      constructor
      · rintro ⟨_, h2⟩
        exact absurd (Option.some.inj h2) hkk
      · rintro ⟨h1, h2⟩
        exact absurd (Option.some.inj h2).symm h1
    · rw [if_neg hij]

/-! ## the invariant -/

/-- The keys of all nodes in order, dead ones included, and nil where a key was erased. -/
def keys (h : HashPart) : List Value := h.nodes.toList.map Node.key

/-- What every hash part keeps.  The last two say how keys are found: by the index if there is one,
else by looking through the nodes. -/
structure Inv (h : HashPart) : Prop where
  sound : Sound h.nodes.toList
  live_eq : h.live = h.nodes.toList.countP Node.live
  indexed : ∀ ix, h.index = some ix → Indexes ix h.keys
  apart : h.index = none → Apart h.keys

theorem inv_empty (capacity : Nat) : (empty capacity).Inv where
  sound := Sound.nil
  live_eq := rfl
  indexed := by
    intro ix hix k i
    have he : ix = {} := by
      unfold empty at hix
      dsimp only at hix
      split at hix
      · exact (Option.some.inj hix).symm
      · cases hix
    rw [he]
    simp [keys, empty]
  apart := fun _ => List.Pairwise.nil

theorem inv_of_indexOf {nodes : Array Node} (hs : Sound nodes.toList) {live : Nat}
    (hl : live = nodes.toList.countP Node.live) {index : Option (Std.HashMap Value Nat)}
    (hi : ∀ ix, index = some ix → ix = indexOf nodes)
    (ho : index = none → Apart (nodes.toList.map Node.key)) : Inv ⟨nodes, live, index⟩ where
  sound := hs
  live_eq := hl
  indexed := by
    intro ix hix
    rw [hi ix hix]
    exact indexOf_indexes hs.distinct
  apart := ho

theorem firstIndex_eq_some {nodes : Array Node} {ix : Std.HashMap Value Nat}
    (h : firstIndex nodes = some ix) : ix = indexOf nodes := by
  unfold firstIndex at h
  split at h
  · exact (Option.some.inj h).symm
  · cases h

/-! ## searching -/

variable {h : HashPart} {k : Value} {i : Nat}

theorem position?_indexed {ix : Std.HashMap Value Nat} (hi : h.index = some ix) (k : Value) :
    h.position? k = ix[k]? := by
  unfold position?
  rw [hi]

theorem position?_linear (hi : h.index = none) (k : Value) :
    h.position? k = h.keys.findIdx? (·.rawEq k) := by
  unfold position? keys
  rw [hi, List.findIdx?_map, List.findIdx?_toArray]
  rfl

/-- A search for the key finds nothing, however it is done. -/
def Fresh (h : HashPart) (k : Value) : Prop :=
  k ∉ h.keys ∧ (h.index = none → ∀ a ∈ h.keys, a.rawEq k = false)

/-- A search for the key stops at no other key. -/
def Exact (h : HashPart) (k : Value) : Prop := ∀ a ∈ h.keys, a.rawEq k = true → a = k

theorem Inv.live_le (hv : h.Inv) : h.live ≤ h.nodes.size := by
  rw [hv.live_eq, ← Array.length_toList]
  exact List.countP_le_length

theorem Inv.live_eq_length (hv : h.Inv) : h.live = (h.nodes.toList.filter Node.live).length := by
  rw [hv.live_eq, List.countP_eq_length_filter]

theorem getElem?_keys (h : HashPart) (i : Nat) :
    h.keys[i]? = (h.nodes.toList[i]?).map Node.key := List.getElem?_map

namespace Inv

theorem isKey (hv : h.Inv) (hm : k ∈ h.keys) (hk : k ≠ .nil) : k.IsKey := by
  obtain ⟨n, hn, rfl⟩ := List.mem_map.mp hm
  exact hv.sound.normal n hn hk

theorem fresh (hv : h.Inv) (hk : k.IsKey) (hp : h.position? k = none) : h.Fresh k := by
  cases hi : h.index with
  | some ix =>
    rw [position?_indexed hi] at hp
    refine ⟨fun hm => ?_, fun hn => by cases hi.symm.trans hn⟩
    obtain ⟨j, hj⟩ := List.mem_iff_getElem?.mp hm
    rw [(hv.indexed ix hi k j).mpr ⟨hk.ne_nil, hj⟩] at hp
    cases hp
  | none =>
    rw [position?_linear hi, List.findIdx?_eq_none_iff] at hp
    refine ⟨fun hm => ?_, fun _ => hp⟩
    have := hp k hm
    rw [hk.rawEq_self] at this
    cases this

/-- What a search finds is a node with a key that is raw-equal to the one sought. -/
theorem found (hv : h.Inv) (hk : k.IsKey) (hp : h.position? k = some i) :
    ∃ n, h.nodes.toList[i]? = some n ∧ n.key ≠ .nil ∧ n.key.rawEq k = true ∧
      (h.index ≠ none → n.key = k) := by
  have node : ∀ a, h.keys[i]? = some a → ∃ n, h.nodes.toList[i]? = some n ∧ n.key = a := by
    intro a ha
    rw [getElem?_keys] at ha
    exact Option.map_eq_some_iff.mp ha
  cases hi : h.index with
  | some ix =>
    rw [position?_indexed hi, hv.indexed ix hi] at hp
    obtain ⟨n, hn, he⟩ := node k hp.2
    exact ⟨n, hn, by rw [he]; exact hp.1, by rw [he]; exact hk.rawEq_self, fun _ => he⟩
  | none =>
    rw [position?_linear hi, List.findIdx?_eq_some_iff_getElem] at hp
    obtain ⟨hlt, hr, _⟩ := hp
    obtain ⟨n, hn, he⟩ := node _ (List.getElem?_eq_getElem hlt)
    rw [← he] at hr
    refine ⟨n, hn, fun hnil => ?_, hr, fun hc => absurd rfl hc⟩
    have := Value.rawEq_symm hr
    rw [hnil, Value.rawEq_nil hk.ne_nil] at this
    cases this

theorem found_own (hv : h.Inv) (hk : k ≠ .nil) (hi : h.keys[i]? = some k) :
    h.position? k = some i := by
  cases hix : h.index with
  | some ix =>
    rw [position?_indexed hix, hv.indexed ix hix]
    exact ⟨hk, hi⟩
  | none =>
    obtain ⟨hil, hie⟩ := List.getElem?_eq_some_iff.mp hi
    rw [position?_linear hix, List.findIdx?_eq_some_iff_getElem]
    refine ⟨hil, by rw [hie]; exact (hv.isKey (List.mem_of_getElem? hi) hk).rawEq_self, ?_⟩
    intro j hj hr
    have hjl : j < h.keys.length := Nat.lt_trans hj hil
    have hne : h.keys[j] ≠ .nil := by
      intro e
      rw [e] at hr
      have := Value.rawEq_symm hr
      rw [Value.rawEq_nil hk] at this
      cases this
    have := List.pairwise_iff_getElem.mp (hv.apart hix) j i hjl hil hj hne
    rw [hie, hr] at this
    cases this

theorem found_exact (hv : h.Inv) (hk : k.IsKey) (hc : h.Exact k)
    (hp : h.position? k = some i) : ∃ n, h.nodes.toList[i]? = some n ∧ n.key = k := by
  obtain ⟨n, hn, _, hr, _⟩ := hv.found hk hp
  exact ⟨n, hn, hc n.key (List.mem_map_of_mem (List.mem_of_getElem? hn)) hr⟩

end Inv

/-! ## replacing a value -/

variable {n : Node}

theorem toList_replace (hn : h.nodes.toList[i]? = some n) (v : Value) :
    (h.replace i v).nodes.toList = h.nodes.toList.set i ⟨n.key, v⟩ := by
  show (h.nodes.modify i _).toList = _
  rw [Array.toList_modify, List.modify_eq_set, hn]
  rfl

theorem keys_replace (hn : h.nodes.toList[i]? = some n) (v : Value) :
    (h.replace i v).keys = h.keys := by
  unfold keys
  rw [toList_replace hn, map_key_set hn]

theorem live_replace (hn : h.nodes.toList[i]? = some n) (v : Value) :
    (h.replace i v).live = match n.live, v.isNil with
      | true, true => h.live - 1
      | false, false => h.live + 1
      | _, _ => h.live := by
  have hl : h.isLiveAt i = n.live := by
    unfold isLiveAt
    rw [← Array.getElem?_toList, hn]
  rw [← hl]
  rfl

theorem Inv.replace (hv : h.Inv) (hn : h.nodes.toList[i]? = some n) (hk : n.key ≠ .nil)
    (v : Value) : (h.replace i v).Inv where
  sound := by
    rw [toList_replace hn]
    exact hv.sound.replace hn hk v
  live_eq := by
    have hc := Sound.countP_replace hn ⟨n.key, v⟩
    rw [live_replace hn, toList_replace hn, hv.live_eq]
    have hm : (⟨n.key, v⟩ : Node).live = !v.isNil := rfl
    rw [hm] at hc
    cases hl : n.live <;> cases hnil : v.isNil <;> simp [hl, hnil] at hc ⊢ <;> omega
  indexed := by
    rw [keys_replace hn]
    exact hv.indexed
  apart := by
    rw [keys_replace hn]
    exact hv.apart

/-! ## adding a node -/

theorem toList_append (h : HashPart) (k v : Value) :
    (h.append k v).nodes.toList = h.nodes.toList ++ [⟨k, v⟩] := by
  show (h.nodes.push ⟨k, v⟩).toList = _
  rw [Array.toList_push]

theorem keys_append (h : HashPart) (k v : Value) : (h.append k v).keys = h.keys ++ [k] := by
  unfold keys
  rw [toList_append, List.map_append]
  rfl

theorem append_linear (hi : h.index = none) (k v : Value) : h.append k v
    = ⟨h.nodes.push ⟨k, v⟩, h.live + 1, firstIndex (h.nodes.push ⟨k, v⟩)⟩ := by
  obtain ⟨nodes, live, index⟩ := h
  cases hi
  rfl

theorem append_indexed {ix : Std.HashMap Value Nat} (hi : h.index = some ix) (k v : Value) :
    (h.append k v).index = some (ix.insert k h.nodes.size) := by
  obtain ⟨nodes, live, index⟩ := h
  cases hi
  rfl

theorem Inv.append (hv : h.Inv) (hk : k.IsKey) (hf : h.Fresh k) {v : Value} (hn : v ≠ .nil) :
    (h.append k v).Inv := by
  have hs : Sound (h.append k v).nodes.toList := by
    rw [toList_append]
    exact hv.sound.append hk hf.1 v
  have hl : (h.append k v).live = (h.append k v).nodes.toList.countP Node.live := by
    rw [toList_append, List.countP_append, List.countP_singleton,
      if_pos ((Node.live_iff ⟨k, v⟩).mpr hn), ← hv.live_eq]
    rfl
  cases hi : h.index with
  | none =>
    have ho : Apart (h.append k v).keys := by
      rw [keys_append]
      exact (hv.apart hi).append (hf.2 hi)
    rw [append_linear hi] at hs hl ho ⊢
    exact inv_of_indexOf hs hl (fun ix => firstIndex_eq_some) (fun _ => ho)
  | some ix =>
    have he := append_indexed hi k v
    refine ⟨hs, hl, ?_, fun hnone => by cases he.symm.trans hnone⟩
    intro ix' hix'
    have hlen : h.keys.length = h.nodes.size := by unfold keys; simp
    rw [← Option.some.inj (he.symm.trans hix'), keys_append, ← hlen]
    exact (hv.indexed ix hi).append hk.ne_nil hf.1

/-! ## dropping the dead nodes -/

theorem toList_compact (h : HashPart) :
    h.compact.nodes.toList = h.nodes.toList.filter Node.live := by
  show (h.nodes.filter Node.live).toList = _
  rw [Array.toList_filter]

theorem index_compact (h : HashPart) : h.compact.index = none ↔ h.index = none := by
  show h.index.map _ = none ↔ _
  exact Option.map_eq_none_iff

theorem keys_compact (h : HashPart) : h.compact.keys.Sublist h.keys := by
  unfold keys
  rw [toList_compact]
  exact List.filter_sublist.map _

theorem Inv.compact (hv : h.Inv) : h.compact.Inv := by
  show Inv ⟨h.nodes.filter Node.live, h.live, h.index.map fun _ => indexOf (h.nodes.filter Node.live)⟩
  refine inv_of_indexOf ?_ ?_ ?_ ?_
  · rw [Array.toList_filter]
    exact hv.sound.sublist List.filter_sublist
  · rw [Array.toList_filter, List.countP_filter, hv.live_eq]
    simp
  · intro ix hix
    obtain ⟨_, _, e⟩ := Option.map_eq_some_iff.mp hix
    exact e.symm
  · intro hnone
    exact (hv.apart (Option.map_eq_none_iff.mp hnone)).sublist h.keys_compact

theorem Fresh.compact (hf : h.Fresh k) : h.compact.Fresh k :=
  ⟨fun hm => hf.1 (h.keys_compact.subset hm),
    fun hn a ha => hf.2 (h.index_compact.mp hn) a (h.keys_compact.subset ha)⟩

/-! ## storing -/

/-- What storing does: nothing, another value for a node, or a node at the end. -/
theorem set_cases (hv : h.Inv) (hk : k.IsKey) (v : Value) :
    (∃ i n, h.position? k = some i ∧ h.nodes.toList[i]? = some n ∧ n.key ≠ .nil ∧
      n.key.rawEq k = true ∧ h.set k v = h.replace i v) ∨
    (h.Fresh k ∧ v = .nil ∧ h.set k v = h) ∨
    (h.Fresh k ∧ v ≠ .nil ∧ (h.set k v = h.compact.append k v ∨ h.set k v = h.append k v)) := by
  unfold HashPart.set
  cases hp : h.position? k with
  | some i =>
    obtain ⟨n, hn, hne, hr, _⟩ := hv.found hk hp
    exact .inl ⟨i, n, rfl, hn, hne, hr, rfl⟩
  | none =>
    have hf := hv.fresh hk hp
    by_cases hnil : v = .nil
    · exact .inr (.inl ⟨hf, hnil, by rw [hnil]; rfl⟩)
    · refine .inr (.inr ⟨hf, hnil, ?_⟩)
      dsimp only
      rw [if_neg (by rw [Value.isNil_iff]; exact hnil)]
      split
      · exact .inl rfl
      · exact .inr rfl

theorem Inv.set (hv : h.Inv) (hk : k.IsKey) (v : Value) : (h.set k v).Inv := by
  rcases set_cases hv hk v with ⟨i, n, _, hn, hne, _, e⟩ | ⟨_, _, e⟩ | ⟨hf, hnil, e | e⟩
  · rw [e]
    exact hv.replace hn hne v
  · rw [e]
    exact hv
  · rw [e]
    exact hv.compact.append hk hf.compact hnil
  · rw [e]
    exact hv.append hk hf hnil

theorem mem_nodes_set (hv : h.Inv) (hk : k.IsKey) {v : Value} {m : Node}
    (hm : m ∈ (h.set k v).nodes.toList) :
    m ∈ h.nodes.toList ∨ (m.key.rawEq k = true ∧ m.value = v) := by
  rcases set_cases hv hk v with ⟨i, n, _, hn, _, hr, e⟩ | ⟨_, _, e⟩ | ⟨_, _, e | e⟩
  · rw [e, toList_replace hn] at hm
    rcases List.mem_or_eq_of_mem_set hm with hm | rfl
    · exact .inl hm
    · exact .inr ⟨hr, rfl⟩
  · rw [e] at hm
    exact .inl hm
  · rw [e, toList_append, List.mem_append, List.mem_singleton, toList_compact] at hm
    rcases hm with hm | rfl
    · exact .inl (List.mem_filter.mp hm).1
    · exact .inr ⟨hk.rawEq_self, rfl⟩
  · rw [e, toList_append, List.mem_append, List.mem_singleton] at hm
    rcases hm with hm | rfl
    · exact .inl hm
    · exact .inr ⟨hk.rawEq_self, rfl⟩

theorem mem_keys_set (hv : h.Inv) (hk : k.IsKey) (v : Value) {a : Value}
    (ha : a ∈ (h.set k v).keys) : a ∈ h.keys ∨ (a = k ∧ v ≠ .nil) := by
  rcases set_cases hv hk v with ⟨i, n, _, hn, _, _, e⟩ | ⟨_, _, e⟩ | ⟨hf, hnil, e | e⟩
  · rw [e, keys_replace hn] at ha
    exact .inl ha
  · rw [e] at ha
    exact .inl ha
  · rw [e, keys_append, List.mem_append, List.mem_singleton] at ha
    exact ha.imp (fun ha => h.keys_compact.subset ha) (fun ha => ⟨ha, hnil⟩)
  · rw [e, keys_append, List.mem_append, List.mem_singleton] at ha
    exact ha.imp id (fun ha => ⟨ha, hnil⟩)

theorem live_set_le (hv : h.Inv) (hk : k.IsKey) (v : Value) : (h.set k v).live ≤ h.live + 1 := by
  rcases set_cases hv hk v with ⟨i, n, _, hn, _, _, e⟩ | ⟨_, _, e⟩ | ⟨_, _, e | e⟩
  · rw [e, live_replace hn]
    split <;> omega
  · rw [e]
    omega
  · rw [e]
    exact Nat.le_refl _
  · rw [e]
    exact Nat.le_refl _

end HashPart

/-! ## runs -/

namespace Node

theorem run_cons (first : Nat) (v : Value) (vs : List Value) :
    run first (v :: vs) = ⟨Value.count first, v⟩ :: run (first + 1) vs := rfl

theorem run_append (first : Nat) (vs ws : List Value) :
    run first (vs ++ ws) = run first vs ++ run (first + vs.length) ws := by
  unfold run
  rw [List.zipIdx_append, List.map_append]

theorem length_run (first : Nat) (vs : List Value) : (run first vs).length = vs.length := by
  unfold run
  rw [List.length_map, List.length_zipIdx]

theorem getElem?_run (first : Nat) (vs : List Value) (i : Nat) :
    (run first vs)[i]? = (vs[i]?).map fun v => ⟨Value.count (first + i), v⟩ := by
  unfold run
  rw [List.getElem?_map, List.getElem?_zipIdx]
  cases vs[i]? with
  | none => rfl
  | some v => rw [Nat.add_comm]; rfl

theorem mem_run {first : Nat} {vs : List Value} {n : Node} (h : n ∈ run first vs) :
    ∃ i v, vs[i]? = some v ∧ n = ⟨Value.count (first + i), v⟩ := by
  obtain ⟨i, hi⟩ := List.mem_iff_getElem?.mp h
  rw [getElem?_run] at hi
  obtain ⟨v, hv, e⟩ := Option.map_eq_some_iff.mp hi
  exact ⟨i, v, hv, e.symm⟩

theorem live_of_mem_run {first : Nat} {vs : List Value} (hn : ∀ v ∈ vs, v ≠ .nil) {n : Node}
    (h : n ∈ run first vs) : n.live = true := by
  obtain ⟨i, v, hv, rfl⟩ := mem_run h
  exact (live_iff _).mpr (hn v (List.mem_of_getElem? hv))

theorem le_of_mem_run {first : Nat} {vs : List Value} (hb : first + vs.length ≤ 2 ^ 63) {k : Int64}
    (hk : Value.integer k ∈ (run first vs).map Node.key) : first ≤ k.toInt := by
  obtain ⟨m, hm, hmk⟩ := List.mem_map.mp hk
  obtain ⟨j, v, hj, rfl⟩ := mem_run hm
  have hjl := (List.getElem?_eq_some_iff.mp hj).1
  rw [← Value.integer.inj hmk, Value.toInt_ofNat (by omega)]
  omega

theorem distinct_run {first : Nat} {vs : List Value} (h : first + vs.length ≤ 2 ^ 63) :
    Distinct ((run first vs).map Node.key) := by
  unfold Distinct
  rw [List.pairwise_iff_getElem]
  intro i j hi hj hij _
  rw [List.length_map, length_run] at hi hj
  have key : ∀ l, (hl : l < vs.length) →
      ((run first vs).map Node.key)[l]? = some (Value.count (first + l)) := by
    intro l hl
    rw [List.getElem?_map, getElem?_run, List.getElem?_eq_getElem hl]
    rfl
  have ei := List.getElem?_eq_some_iff.mp (key i hi)
  have ej := List.getElem?_eq_some_iff.mp (key j hj)
  rw [ei.2, ej.2, ne_eq, Value.count_inj (by omega) (by omega)]
  omega

end Node

theorem Sound.prepend {ns : List Node} (h : Sound ns) {first : Nat} {vs : List Value}
    (hb : first + vs.length ≤ 2 ^ 63)
    (hf : ∀ j, j < vs.length → Value.count (first + j) ∉ ns.map Node.key) :
    Sound (Node.run first vs ++ ns) := by
  refine ⟨fun m hm => ?_, fun m hm => ?_, ?_⟩
  · rcases List.mem_append.mp hm with hm | hm
    · obtain ⟨j, v, _, rfl⟩ := Node.mem_run hm
      exact fun e => absurd e (Value.isKey_integer _).ne_nil
    · exact h.erased m hm
  · rcases List.mem_append.mp hm with hm | hm
    · obtain ⟨j, v, _, rfl⟩ := Node.mem_run hm
      exact fun _ => Value.isKey_integer _
    · exact h.normal m hm
  · unfold Distinct
    rw [List.map_append, List.pairwise_append]
    refine ⟨Node.distinct_run hb, h.distinct, fun a ha b hb' _ e => ?_⟩
    obtain ⟨m, hm, rfl⟩ := List.mem_map.mp ha
    obtain ⟨j, v, hj, rfl⟩ := Node.mem_run hm
    apply hf j (List.getElem?_eq_some_iff.mp hj).1
    rw [show Value.count (first + j) = b from e]
    exact hb'

theorem Apart.prepend {ns : List Node} (h : Apart (ns.map Node.key)) {first : Nat}
    {vs : List Value} (hb : first + vs.length ≤ 2 ^ 63)
    (hf : ∀ j, j < vs.length → ∀ a ∈ ns.map Node.key, a.rawEq (Value.count (first + j)) = false) :
    Apart ((Node.run first vs ++ ns).map Node.key) := by
  unfold Apart
  rw [List.map_append, List.pairwise_append]
  refine ⟨?_, h, fun a ha b hb' _ => ?_⟩
  · -- integers are raw-equal only to themselves
    refine List.Pairwise.imp_of_mem ?_ (Node.distinct_run hb)
    intro a b ha hb' hne hn
    obtain ⟨m, hm, rfl⟩ := List.mem_map.mp ha
    obtain ⟨j, v, _, rfl⟩ := Node.mem_run hm
    obtain ⟨m', hm', rfl⟩ := List.mem_map.mp hb'
    obtain ⟨j', v', _, rfl⟩ := Node.mem_run hm'
    rw [Bool.eq_false_iff]
    intro hr
    exact hne hn (congrArg Value.integer (Value.eq_of_rawEq_integer hr))
  · obtain ⟨m, hm, rfl⟩ := List.mem_map.mp ha
    obtain ⟨j, v, hj, rfl⟩ := Node.mem_run hm
    have := hf j (List.getElem?_eq_some_iff.mp hj).1 b hb'
    rw [Bool.eq_false_iff] at this ⊢
    exact fun hr => this (Value.rawEq_symm hr)

namespace HashPart
variable {h : HashPart} {k : Value} {i : Nat} {n : Node}

theorem toList_prependRun (h : HashPart) (first : Nat) (vs : List Value) :
    (h.prependRun first vs).nodes.toList = Node.run first vs ++ h.nodes.toList := by
  unfold prependRun
  split
  · rename_i he
    rw [List.isEmpty_iff.mp he]
    rfl
  · show ((Node.run first vs).toArray ++ h.nodes).toList = _
    rw [Array.toList_append]

theorem keys_prependRun (h : HashPart) (first : Nat) (vs : List Value) :
    (h.prependRun first vs).keys = (Node.run first vs).map Node.key ++ h.keys := by
  unfold keys
  rw [toList_prependRun, List.map_append]

theorem live_prependRun (h : HashPart) (first : Nat) (vs : List Value) :
    (h.prependRun first vs).live = h.live + vs.length := by
  unfold prependRun
  split
  · rename_i he
    rw [List.isEmpty_iff.mp he]
    rfl
  · rfl

theorem Inv.prependRun (hv : h.Inv) {first : Nat} {vs : List Value} (hn : ∀ v ∈ vs, v ≠ .nil)
    (hb : first + vs.length ≤ 2 ^ 63)
    (hf : ∀ j, j < vs.length → ∀ a ∈ h.keys, a.rawEq (Value.count (first + j)) = false) :
    (h.prependRun first vs).Inv := by
  have hm : ∀ j, j < vs.length → Value.count (first + j) ∉ h.keys := by
    intro j hj hm
    have := hf j hj _ hm
    rw [(Value.isKey_count _).rawEq_self] at this
    cases this
  by_cases he : vs.isEmpty = true
  · unfold HashPart.prependRun
    rw [if_pos he]
    exact hv
  have hlist : ((Node.run first vs).toArray ++ h.nodes).toList
      = Node.run first vs ++ h.nodes.toList := Array.toList_append
  unfold HashPart.prependRun
  rw [if_neg he]
  refine inv_of_indexOf (by rw [hlist]; exact hv.sound.prepend hb hm) ?_ ?_ ?_
  · rw [hlist, List.countP_append,
      List.countP_eq_length.mpr fun m hm => Node.live_of_mem_run hn hm, Node.length_run,
      hv.live_eq, Nat.add_comm]
  · intro ix hix
    split at hix
    · exact (Option.some.inj hix).symm
    · exact firstIndex_eq_some hix
  · intro hnone
    split at hnone
    · cases hnone
    · rename_i hi
      rw [hlist]
      exact Apart.prepend (hv.apart (by simpa using hi)) hb hf

/-! ## taking an entry out -/

theorem take_none (hp : h.position? k = none) : h.take k = (.nil, h) := by
  unfold take
  rw [hp]

theorem take_some (hp : h.position? k = some i) (hn : h.nodes.toList[i]? = some n) :
    h.take k = (n.value, ⟨h.nodes.setIfInBounds i ⟨.nil, .nil⟩,
      if n.value.isNil then h.live else h.live - 1, h.index.map (·.erase k)⟩) := by
  rw [Array.getElem?_toList] at hn
  unfold take
  rw [hp]
  dsimp only
  rw [hn]

/-- What taking out does: nothing, or it erases the node that a search finds. -/
theorem take_cases (hv : h.Inv) (hk : k.IsKey) :
    (h.Fresh k ∧ h.take k = (.nil, h)) ∨
    ∃ i n, h.position? k = some i ∧ h.nodes.toList[i]? = some n ∧ n.key ≠ .nil ∧
      n.key.rawEq k = true ∧ (h.index ≠ none → n.key = k) ∧
      h.take k = (n.value, ⟨h.nodes.setIfInBounds i ⟨.nil, .nil⟩,
        if n.value.isNil then h.live else h.live - 1, h.index.map (·.erase k)⟩) := by
  cases hp : h.position? k with
  | none => exact .inl ⟨hv.fresh hk hp, take_none hp⟩
  | some i =>
    obtain ⟨n, hn, hne, hr, hx⟩ := hv.found hk hp
    exact .inr ⟨i, n, rfl, hn, hne, hr, hx, take_some hp hn⟩

theorem Inv.take (hv : h.Inv) (hk : k.IsKey) : (h.take k).2.Inv := by
  rcases take_cases hv hk with ⟨_, e⟩ | ⟨i, n, hp, hn, hne, hr, hx, e⟩
  · rw [e]
    exact hv
  rw [e]
  have hlist : (h.nodes.setIfInBounds i ⟨.nil, .nil⟩).toList
      = h.nodes.toList.set i ⟨.nil, .nil⟩ := Array.toList_setIfInBounds
  refine ⟨by rw [hlist]; exact hv.sound.erase i, ?_, ?_, ?_⟩
  · have hc := Sound.countP_replace hn ⟨.nil, .nil⟩
    show (if n.value.isNil then h.live else h.live - 1) = _
    rw [hlist, hv.live_eq]
    rw [Node.live_eq n, Node.live_erased] at hc
    cases hl : n.value.isNil with
    | true =>
      rw [hl] at hc
      exact hc.symm
    | false =>
      rw [hl] at hc
      exact Nat.sub_eq_of_eq_add hc.symm
  · intro ix' hix'
    obtain ⟨ix, hix, rfl⟩ := Option.map_eq_some_iff.mp hix'
    have hki : n.key = k := hx (by rw [hix]; simp)
    show Indexes _ ((h.nodes.setIfInBounds i ⟨.nil, .nil⟩).toList.map Node.key)
    rw [hlist, List.map_set]
    exact (hv.indexed ix hix).erase hv.sound.distinct (by rw [getElem?_keys, hn, ← hki]; rfl)
  · intro hnone
    show Apart ((h.nodes.setIfInBounds i ⟨.nil, .nil⟩).toList.map Node.key)
    rw [hlist, List.map_set]
    exact (hv.apart (Option.map_eq_none_iff.mp hnone)).erase i

theorem mem_keys_take (hv : h.Inv) (hk : k.IsKey) {a : Value} (ha : a ∈ (h.take k).2.keys) :
    a ∈ h.keys ∨ a = .nil := by
  rcases take_cases hv hk with ⟨_, e⟩ | ⟨i, n, hp, hn, hne, hr, hx, e⟩
  · rw [e] at ha
    exact .inl ha
  · rw [e] at ha
    change a ∈ (h.nodes.setIfInBounds i ⟨.nil, .nil⟩).toList.map Node.key at ha
    rw [Array.toList_setIfInBounds, List.map_set] at ha
    exact List.mem_or_eq_of_mem_set ha

theorem not_mem_keys_take (hv : h.Inv) (hk : k.IsKey) : k ∉ (h.take k).2.keys := by
  intro hm
  rcases take_cases hv hk with ⟨hf, e⟩ | ⟨i, n, hp, hn, hne, hr, hx, e⟩
  · rw [e] at hm
    exact hf.1 hm
  · rw [e] at hm
    change k ∈ (h.nodes.setIfInBounds i ⟨.nil, .nil⟩).toList.map Node.key at hm
    rw [Array.toList_setIfInBounds, List.map_set] at hm
    obtain ⟨j, hj⟩ := List.mem_iff_getElem?.mp hm
    rw [List.getElem?_set] at hj
    by_cases hij : i = j
    · rw [if_pos hij] at hj
      split at hj
      · exact hk.ne_nil (Option.some.inj hj).symm
      · cases hj
    · rw [if_neg hij] at hj
      have := hv.found_own hk.ne_nil hj
      rw [hp] at this
      exact hij (Option.some.inj this)

theorem live_nodes_take_nil (hv : h.Inv) (hk : k.IsKey) (hnil : (h.take k).1 = .nil) :
    (h.take k).2.nodes.toList.filter Node.live = h.nodes.toList.filter Node.live := by
  rcases take_cases hv hk with ⟨_, e⟩ | ⟨i, n, hp, hn, _, hr, hx, e⟩
  · rw [e]
  · rw [e] at hnil ⊢
    change n.value = .nil at hnil
    show (h.nodes.setIfInBounds i ⟨.nil, .nil⟩).toList.filter Node.live = _
    rw [Array.toList_setIfInBounds]
    exact filter_erase_dead hn (by rw [Node.live_eq, hnil]; rfl)

/-- The live nodes after taking out an entry, if the search stops at no other key. -/
theorem live_nodes_take (hv : h.Inv) (hk : k.IsKey) (hc : h.Exact k)
    (hne : (h.take k).1 ≠ .nil) :
    (⟨k, (h.take k).1⟩ :: (h.take k).2.nodes.toList.filter Node.live).Perm
      (h.nodes.toList.filter Node.live) := by
  rcases take_cases hv hk with ⟨_, e⟩ | ⟨i, n, hp, hn, _, hr, hx, e⟩
  · rw [e] at hne
    exact absurd rfl hne
  · rw [e] at hne ⊢
    have hkey : n.key = k := hc n.key (List.mem_map_of_mem (List.mem_of_getElem? hn)) hr
    show (⟨k, n.value⟩ :: (h.nodes.setIfInBounds i ⟨.nil, .nil⟩).toList.filter Node.live).Perm _
    rw [Array.toList_setIfInBounds, ← hkey]
    exact filter_erase_live hn (n.live_iff.mpr hne)

end HashPart

end LuaMachine
