import LuaMachine.Bytes.Hash
import LuaMachine.Proofs.HashPart

/-!
# Equality and hashing of keys

An index finds a key by its hash first and by raw equality then.  That works if raw equality is an
equivalence and raw-equal keys are hashed alike.

* `Value.feed`                what is hashed of a value, piece by piece;
* `Clash`                     the float `2^63` and an integer that rounds to it;
* `ofInt_eq_twoPow63_iff`     the integers that round to `2^63` are the last 512;
* `rawEq_iff`, `feed_eq_iff`  raw-equal keys are the same or clash; they are hashed alike exactly if
                              they are the same.

Keys that clash are raw-equal and are hashed apart, and two integers that clash with `2^63` are not
raw-equal.  So looking through the nodes and looking into an index may give different answers, and
exactly when a node that clashes with the key sought stands before the node of that key.
-/

namespace LuaMachine

/-! ## the integers that round to `2^63` -/

theorem roundQuotient_scale (a d m : Nat) (hm : 0 < m) :
    roundQuotient (a * m) (d * m) = roundQuotient a d := by
  have hlt : d * m < 2 * (a % d * m) ↔ d < 2 * (a % d) := by
    rw [← Nat.mul_assoc, Nat.mul_lt_mul_right hm]
  have heq : 2 * (a % d * m) = d * m ↔ 2 * (a % d) = d := by
    rw [← Nat.mul_assoc, Nat.mul_left_inj (Nat.pos_iff_ne_zero.mp hm)]
  unfold roundQuotient
  simp only [Nat.mul_div_mul_right a d hm, Nat.mul_mod_mul_right, gt_iff_lt, hlt, Bool.or_eq_true,
    Bool.and_eq_true, decide_eq_true_eq, beq_iff_eq, heq]

namespace Double

/-- The word of an integer with 63 bits: ten of them are rounded away. -/
theorem nearestWord_63_bits {a : Nat} (hl : pow2 62 ≤ a) (hu : a < pow2 63) :
    nearestWord (a * one) 1 = 1084 * pow2 52 + roundQuotient a 1024 := by
  have ha : a ≠ 0 := by
    have := pow2_pos 62
    omega
  have hlog : a.log2 = 62 := (Nat.log2_eq_iff ha).mpr ⟨hl, hu⟩
  obtain ⟨q, _, _, hq, hw⟩ := nearestWord_integer (Nat.pos_iff_ne_zero.mpr ha) (Nat.le_of_lt hu)
  have hden : pow2 (62 + 1022) = 1024 * one := by
    rw [show 62 + 1022 = 10 + 1074 by omega, pow2_add, one, show pow2 10 = 1024 from rfl]
  rw [hlog] at hw hq
  rw [hden, roundQuotient_scale _ _ _ one_pos] at hq
  rw [hw, hq]

theorem roundQuotient_63_bits {a : Nat} (hu : a < pow2 63) :
    roundQuotient a 1024 = pow2 53 ↔ pow2 63 - 512 ≤ a := by
  have h63 : pow2 63 = 2 ^ 63 := rfl
  have h53 : pow2 53 = 2 ^ 53 := rfl
  unfold roundQuotient
  simp only [Bool.or_eq_true, Bool.and_eq_true, decide_eq_true_eq, beq_iff_eq]
  split <;> omega

/-- **The integers that round to `2^63` are the last 512.** -/
theorem ofInt_eq_twoPow63_iff (n : Int64) :
    ofInt n.toInt = twoPow63 ↔ 2 ^ 63 - 512 ≤ n.toInt := by
  have h62 : pow2 62 = 2 ^ 62 := rfl
  have h63 : pow2 63 = 2 ^ 63 := rfl
  by_cases hn : 2 ^ 62 ≤ n.toInt
  · have hlt : n.toInt < 2 ^ 63 := n.toInt_lt
    have hl : pow2 62 ≤ n.toInt.natAbs := by omega
    have hu : n.toInt.natAbs < pow2 63 := by omega
    have hw := nearestWord_63_bits hl hu
    have hinf := nearestWord_integer_lt (by have := pow2_pos 62; omega) (Nat.le_of_lt hu)
    have hm : (ofInt n.toInt).magnitude = nearestWord (n.toInt.natAbs * one) 1 :=
      magnitude_ofMagnitude _ (Nat.lt_trans hinf (by decide))
    have ht : twoPow63.magnitude = 1084 * pow2 52 + pow2 53 := by decide
    have key : ofInt n.toInt = twoPow63 ↔ roundQuotient n.toInt.natAbs 1024 = pow2 53 := by
      constructor
      · intro e
        rw [e, ht, hw] at hm
        omega
      · intro e
        refine ext_magnitude ?_ (by rw [hm, hw, e, ht])
        show (ofMagnitude _ _).negative = _
        rw [negative_ofMagnitude _ (Nat.lt_trans hinf (by decide))]
        exact decide_eq_false (by omega)
    rw [key, roundQuotient_63_bits hu]
    omega
  · constructor
    · intro e
      rcases ofInt_integral n with ⟨m, hm⟩ | ⟨_, h⟩
      · have hnone : twoPow63.toInteger? = none := by decide +kernel
        rw [e, hnone] at hm
        cases hm
      · exact absurd h hn
    · intro h
      omega

theorem isNaN_twoPow63 : twoPow63.isNaN = false := by decide

end Double

namespace Value

theorem isKey_twoPow63 : (float Double.twoPow63).IsKey :=
  isKey_float.mpr ⟨by decide +kernel, Double.isNaN_twoPow63⟩

/-! ## raw equality -/

/-- The float `2^63` and an integer that rounds to it. -/
def Clash (a b : Value) : Prop :=
  ∃ n : Int64, 2 ^ 63 - 512 ≤ n.toInt ∧
    ((a = integer n ∧ b = float Double.twoPow63) ∨ (a = float Double.twoPow63 ∧ b = integer n))

theorem Clash.ne {a b : Value} (h : Clash a b) : a ≠ b := by
  obtain ⟨n, _, ⟨rfl, rfl⟩ | ⟨rfl, rfl⟩⟩ := h <;> simp

theorem Clash.rawEq {a b : Value} (h : Clash a b) : a.rawEq b = true := by
  obtain ⟨n, hn, ⟨rfl, rfl⟩ | ⟨rfl, rfl⟩⟩ := h
  · show (Double.ofInt n.toInt).eq _ = true
    rw [(Double.ofInt_eq_twoPow63_iff n).mpr hn]
    exact Double.eq_refl Double.isNaN_twoPow63
  · show Double.eq _ (Double.ofInt n.toInt) = true
    rw [(Double.ofInt_eq_twoPow63_iff n).mpr hn]
    exact Double.eq_refl Double.isNaN_twoPow63

theorem clash_of_eq {n : Int64} (h : (Double.ofInt n.toInt).eq Double.twoPow63 = true) :
    2 ^ 63 - 512 ≤ n.toInt := by
  rw [← Double.ofInt_eq_twoPow63_iff]
  exact Double.eq_of_eq_true h isKey_twoPow63.absUnits_ne_zero

/-- **Raw-equal keys are the same or clash.** -/
theorem rawEq_iff {a b : Value} (ha : a.IsKey) (hb : b.IsKey) :
    a.rawEq b = true ↔ a = b ∨ Clash a b := by
  constructor
  · intro h
    rcases rawEq_cases ha hb h with e | ⟨n, rfl, rfl, _⟩ | ⟨n, rfl, rfl, _⟩
    · exact .inl e
    · exact .inr ⟨n, clash_of_eq h, .inl ⟨rfl, rfl⟩⟩
    · exact .inr ⟨n, clash_of_eq (Double.eq_symm h), .inr ⟨rfl, rfl⟩⟩
  · rintro (rfl | h)
    · exact ha.rawEq_self
    · exact h.rawEq

/-- Keys that clash with the same key do not clash with each other. -/
theorem Clash.not_trans {a b c : Value} (h₁ : Clash a b) (h₂ : Clash b c) : ¬ Clash a c := by
  rintro ⟨_, _, ⟨rfl, rfl⟩ | ⟨rfl, rfl⟩⟩
  · obtain ⟨_, _, ⟨_, rfl⟩ | ⟨e, _⟩⟩ := h₁
    · obtain ⟨_, _, ⟨e, _⟩ | ⟨_, e⟩⟩ := h₂ <;> cases e
    · cases e
  · obtain ⟨_, _, ⟨e, _⟩ | ⟨_, rfl⟩⟩ := h₁
    · cases e
    · obtain ⟨_, _, ⟨_, e⟩ | ⟨e, _⟩⟩ := h₂ <;> cases e

/-- Raw equality goes through a key unless two different keys clash with it. -/
theorem rawEq_trans_iff {a b c : Value} (ha : a.IsKey) (hb : b.IsKey) (hc : c.IsKey)
    (h₁ : a.rawEq b = true) (h₂ : b.rawEq c = true) :
    a.rawEq c = true ↔ (Clash a b → Clash b c → a = c) := by
  rcases (rawEq_iff ha hb).mp h₁ with rfl | h₁
  · exact ⟨fun _ hc => absurd rfl hc.ne, fun _ => h₂⟩
  rcases (rawEq_iff hb hc).mp h₂ with rfl | h₂
  · exact ⟨fun _ _ hc => absurd rfl hc.ne, fun _ => h₁.rawEq⟩
  rw [rawEq_iff ha hc]
  constructor
  · rintro (e | h₃) _ _
    · exact e
    · exact absurd h₃ (h₁.not_trans h₂)
  · exact fun h => .inl (h h₁ h₂)

/-! ## hashing -/

inductive Fed where
  | byte (b : UInt8)
  | int (n : Int64)
  | word (w : UInt64)
  /-- Where a reference points to. -/
  | address (i : Nat)
deriving DecidableEq, Repr

/-- What is hashed of a value: a byte for its kind, and then its content.  An integral float is
hashed as its integer, a string by its own hash, and a reference by its identity. -/
def feed : Value → List Fed
  | .nil => [.byte 0]
  | .boolean b => [.byte 1, .byte (if b then 1 else 0)]
  | .integer n => [.byte 2, .int n]
  | .float x =>
    match x.toInteger? with
    | some n => [.byte 2, .int n]
    | none => [.byte 3, .word x.bits]
  | .string s => [.byte 4, .word s.fnv1a]
  | .table t => [.byte 5, .address t.index]
  | .function f => [.byte 6, .address f.index]
  | .thread c => [.byte 7, .address c.index]

theorem feed_fractional {x : Double} (h : x.toInteger? = none) :
    (float x).feed = [.byte 3, .word x.bits] := by
  simp only [feed, h]

theorem Clash.feed_ne {a b : Value} (h : Clash a b) : a.feed ≠ b.feed := by
  obtain ⟨n, _, ⟨rfl, rfl⟩ | ⟨rfl, rfl⟩⟩ := h <;>
  · rw [feed_fractional (isKey_float.mp isKey_twoPow63).1]
    simp [feed]

/-- **Raw-equal keys are hashed alike exactly if they do not clash.** -/
theorem feed_eq_iff {a b : Value} (ha : a.IsKey) (hb : b.IsKey) (h : a.rawEq b = true) :
    a.feed = b.feed ↔ ¬ Clash a b := by
  constructor
  · exact fun e hc => hc.feed_ne e
  · intro hc
    rcases (rawEq_iff ha hb).mp h with rfl | hc'
    · rfl
    · exact absurd hc' hc

theorem eq_iff_rawEq_and_feed {a b : Value} (ha : a.IsKey) (hb : b.IsKey) :
    a.rawEq b = true ∧ a.feed = b.feed ↔ a = b := by
  constructor
  · rintro ⟨h, e⟩
    rcases (rawEq_iff ha hb).mp h with rfl | hc
    · rfl
    · exact absurd e hc.feed_ne
  · rintro rfl
    exact ⟨ha.rawEq_self, rfl⟩

end Value

/-! ## finding keys -/

namespace HashPart

open Value (Clash)

def linear (h : HashPart) : HashPart := { h with index := none }

def indexed (h : HashPart) : HashPart := { h with index := some (indexOf h.nodes) }

variable {h : HashPart} {k : Value}

theorem position?_linear_eq (h : HashPart) (k : Value) :
    h.linear.position? k = h.keys.findIdx? (·.rawEq k) :=
  position?_linear rfl k

theorem position?_indexed_eq_some (hs : Sound h.nodes.toList) (hk : k ≠ .nil) {i : Nat} :
    h.indexed.position? k = some i ↔ h.keys[i]? = some k := by
  show (indexOf h.nodes)[k]? = some i ↔ _
  rw [indexOf_indexes hs.distinct]
  exact ⟨fun e => e.2, fun e => ⟨hk, e⟩⟩

/-- A node's key is raw-equal to a key if it is that key or clashes with it. -/
theorem rawEq_node_iff (hs : Sound h.nodes.toList) (hk : k.IsKey) {a : Value} (ha : a ∈ h.keys) :
    a.rawEq k = true ↔ a = k ∨ Clash a k := by
  obtain ⟨n, hn, rfl⟩ := List.mem_map.mp ha
  by_cases hnil : n.key = .nil
  · rw [hnil]
    constructor
    · intro e
      cases (Value.rawEq_nil hk.ne_nil).symm.trans (Value.rawEq_symm e)
    · rintro (e | ⟨_, _, ⟨e, _⟩ | ⟨e, _⟩⟩)
      · exact absurd e.symm hk.ne_nil
      · cases e
      · cases e
  · exact Value.rawEq_iff (hs.normal n hn hnil) hk

/-- **The two ways to search agree exactly if no key that clashes stands in front.** -/
theorem position?_linear_eq_indexed_iff (hs : Sound h.nodes.toList) (hk : k.IsKey) :
    h.linear.position? k = h.indexed.position? k ↔
      ∀ (i : Nat) a, h.keys[i]? = some a → Clash a k → ∃ j, j < i ∧ h.keys[j]? = some k := by
  rw [position?_linear_eq]
  constructor
  · intro e i a hi hc
    have ha : a ∈ h.keys := List.mem_of_getElem? hi
    -- the search through the nodes stops at a clash, or before
    cases hp : h.keys.findIdx? (·.rawEq k) with
    | none =>
      have := List.findIdx?_eq_none_iff.mp hp a ha
      rw [hc.rawEq] at this
      cases this
    | some j =>
      rw [hp] at e
      have hj := (position?_indexed_eq_some hs hk.ne_nil).mp e.symm
      refine ⟨j, ?_, hj⟩
      obtain ⟨hjl, _, hfirst⟩ := List.findIdx?_eq_some_iff_getElem.mp hp
      obtain ⟨hil, hie⟩ := List.getElem?_eq_some_iff.mp hi
      rcases Nat.lt_trichotomy i j with hlt | rfl | hgt
      · have := hfirst i hlt
        rw [hie, hc.rawEq] at this
        exact absurd rfl this
      · rw [hi] at hj
        exact absurd (Option.some.inj hj) hc.ne
      · exact hgt
  · intro hfront
    cases hp : h.keys.findIdx? (·.rawEq k) with
    | none =>
      cases hq : h.indexed.position? k with
      | none => rfl
      | some i =>
        have hi := (position?_indexed_eq_some hs hk.ne_nil).mp hq
        have := List.findIdx?_eq_none_iff.mp hp k (List.mem_of_getElem? hi)
        rw [hk.rawEq_self] at this
        cases this
    | some i =>
      obtain ⟨hil, hr, hfirst⟩ := List.findIdx?_eq_some_iff_getElem.mp hp
      have hi : h.keys[i]? = some h.keys[i] := List.getElem?_eq_getElem hil
      symm
      rw [position?_indexed_eq_some hs hk.ne_nil, hi]
      rcases (rawEq_node_iff hs hk (List.mem_of_getElem? hi)).mp hr with e | hc
      · rw [e]
      · obtain ⟨j, hj, hjk⟩ := hfront i _ hi hc
        obtain ⟨hjl, hje⟩ := List.getElem?_eq_some_iff.mp hjk
        have := hfirst j hj
        rw [hje, hk.rawEq_self] at this
        exact absurd rfl this

end HashPart

namespace Value

/-- **Keys are told apart consistently, clashes apart.**  Raw equality of keys is reflexive and
symmetric, and transitive unless two different keys clash with the one between them.  Raw-equal keys
are hashed alike exactly if they do not clash, and those that are both are the same key.  Looking
through the nodes of a hash part and looking into its index lead to the same node exactly if no key
that clashes with the one sought stands before it. -/
theorem key_equality_coherent {u v w a b c : Value} (ha : u.key? = some a) (hb : v.key? = some b)
    (hc : w.key? = some c) :
    a.rawEq a = true ∧ a.rawEq b = b.rawEq a ∧
    (a.rawEq b = true → b.rawEq c = true →
      (a.rawEq c = true ↔ (Clash a b → Clash b c → a = c))) ∧
    (a.rawEq b = true → (a.feed = b.feed ↔ ¬ Clash a b)) ∧
    (a.rawEq b = true ∧ a.feed = b.feed ↔ a = b) ∧
    ∀ h : HashPart, Sound h.nodes.toList →
      (h.linear.position? a = h.indexed.position? a ↔
        ∀ (i : Nat) k, h.keys[i]? = some k → Clash k a → ∃ j, j < i ∧ h.keys[j]? = some a) := by
  have ka := isKey_of_key? ha
  have kb := isKey_of_key? hb
  have kc := isKey_of_key? hc
  refine ⟨ka.rawEq_self, Bool.eq_iff_iff.mpr ⟨rawEq_symm, rawEq_symm⟩, rawEq_trans_iff ka kb kc,
    feed_eq_iff ka kb, eq_iff_rawEq_and_feed ka kb, fun h hs => ?_⟩
  exact HashPart.position?_linear_eq_indexed_iff hs ka

/-- The integer before the last 512 is found however one looks for it, although `2^63` stands in
front. -/
theorem key_equality_before_clashes :
    let last : Value := .integer 9223372036854775295
    let part := ((HashPart.empty 0).set (.float Double.twoPow63) (.integer 1)).set last (.integer 2)
    last.rawEq last = true ∧ ¬ Clash (.float Double.twoPow63) last ∧
      part.linear.position? last = part.indexed.position? last := by
  intro last part
  have hpart : part.Inv := ((HashPart.inv_empty 0).set isKey_twoPow63 _).set (isKey_integer _) _
  have hclash : ∀ k, ¬ Clash k last := by
    rintro k ⟨n, hn, ⟨_, e⟩ | ⟨_, e⟩⟩
    · exact nomatch e
    · rw [← integer.inj e] at hn
      exact absurd hn (by decide)
  obtain ⟨hrefl, _, _, _, _, hfind⟩ :=
    key_equality_coherent (isKey_integer 9223372036854775295) isKey_twoPow63 isKey_twoPow63
  exact ⟨hrefl, hclash _, (hfind part hpart.sound).mpr fun _ k _ hk => absurd hk (hclash k)⟩

/-- **Keys that clash.**  The last two integers are raw-equal to `2^63` and not to each other, they
are hashed apart from it, and only a search through the nodes takes one for the other. -/
theorem key_equality_incoherent_at_two_pow_63 :
    let a : Value := .integer 9223372036854775807
    let b : Value := .float Double.twoPow63
    let c : Value := .integer 9223372036854775806
    let part := (HashPart.empty 0).set a (.integer 1)
    a.key? = some a ∧ b.key? = some b ∧ c.key? = some c ∧
      a.rawEq b = true ∧ b.rawEq c = true ∧ a.rawEq c = false ∧ a.feed ≠ b.feed ∧
      part.linear.position? b = some 0 ∧ part.indexed.position? b = none := by
  intro a b c part
  have hab : Clash a b := ⟨9223372036854775807, by decide, .inl ⟨rfl, rfl⟩⟩
  have hbc : Clash b c := ⟨9223372036854775806, by decide, .inr ⟨rfl, rfl⟩⟩
  have hpart : part.Inv := (HashPart.inv_empty 0).set (isKey_integer _) _
  have hkeys : part.keys = [a] := by decide +kernel
  refine ⟨rfl, isKey_twoPow63, rfl, hab.rawEq, hbc.rawEq, by decide, hab.feed_ne, ?_, ?_⟩
  · rw [HashPart.position?_linear_eq, hkeys, List.findIdx?_cons, hab.rawEq, if_pos rfl]
  · rw [Option.eq_none_iff_forall_ne_some]
    intro i hi
    rw [HashPart.position?_indexed_eq_some hpart.sound isKey_twoPow63.ne_nil, hkeys] at hi
    exact hab.ne (List.mem_singleton.mp (List.mem_of_getElem? hi)).symm

end Value

end LuaMachine
