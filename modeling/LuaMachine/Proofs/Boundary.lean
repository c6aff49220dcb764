import LuaMachine.Proofs.Bytewise
import LuaMachine.Proofs.Reader

/-!
# The scans of a pattern agree

The bytes of a pattern are scanned by the reader, by the check and by the matcher on bytes.  `Rest`
ties a cursor to the bytes that are still to be read; each scan is then a function of these bytes.

* `setStop_of_bracket?`   the check of a set and its end give the same place;
* `checkSet_cases`        a set as the reader, the check and the matcher on bytes see it;
* `Item.Reads`            the texts of items;
* `ElementAt`             what the matcher on bytes makes of the text of an element;
* `visits_of_reads`       the check looks for a token where an item starts;
* `visits_eq_readAll`     the check and the reader accept the same patterns.
-/

namespace LuaMachine

namespace Bytewise

def Rest (p : Bytes) (pp : Nat) (bs : List UInt8) : Prop := pp ≤ p.size ∧ p.toList.drop pp = bs

namespace Rest

variable {p : Bytes} {pp q k : Nat} {b : UInt8} {bs cs : List UInt8}

theorem zero (p : Bytes) : Rest p 0 p.toList := ⟨Nat.zero_le _, rfl⟩

theorem length (h : Rest p pp bs) : pp + bs.length = p.size := by
  rw [← h.2, List.length_drop, Array.length_toList]
  exact Nat.add_sub_cancel' h.1

theorem read (h : Rest p pp bs) (k : Nat) : p[pp + k]? = bs[k]? := by
  rw [← h.2, List.getElem?_drop, Array.getElem?_toList]

theorem head?_eq (h : Rest p pp bs) : p[pp]? = bs.head? := by
  rw [List.head?_eq_getElem?]
  exact h.read 0

theorem head (h : Rest p pp (b :: bs)) : p[pp]? = some b := h.head?_eq

theorem append (h : Rest p pp (cs ++ bs)) : Rest p (pp + cs.length) bs := by
  have hl := h.length
  rw [List.length_append] at hl
  refine ⟨by omega, ?_⟩
  rw [← List.drop_drop, h.2, List.drop_left]

theorem tail (h : Rest p pp (b :: bs)) : Rest p (pp + 1) bs := by
  have h' : Rest p pp ([b] ++ bs) := h
  exact h'.append

theorem lt_size (h : Rest p pp (b :: bs)) : pp < p.size := by
  have := h.length
  rw [List.length_cons] at this
  omega

theorem unique (h : Rest p pp bs) (h' : Rest p q bs) : pp = q := by
  have := h.length
  have := h'.length
  omega

end Rest

variable {p : Bytes} {pp i j e : Nat} {b : UInt8} {bs m r rest : List UInt8}

/-! ## sets -/

theorem setStop_of_bracket? (h : bracket? p j = some e) : setStop p j = e ∧ e ≤ p.size := by
  fun_induction bracket? p j with
  | case1 j hlt hb =>
    cases h
    have hle := le_skipEscape p j
    have hsize : skipEscape p j + 1 < p.size := (Array.getElem?_eq_some_iff.mp hb).1
    rw [setStop, if_pos (by omega), if_pos (.inr hb)]
    omega
  | case2 j hlt hb ih =>
    obtain ⟨hs, hle⟩ := ih h
    have hskip := le_skipEscape p j
    have hnext := lt_of_bracket? h
    refine ⟨?_, hle⟩
    rw [setStop, if_pos (by omega), if_neg _, hs]
    rintro (hend | hend)
    · omega
    · exact hb hend
  | case3 j hlt => cases h

theorem bracket?_of_size_le (h : p.size ≤ j) : bracket? p j = none := by
  have := le_skipEscape p j
  rw [bracket?, if_neg (by omega)]

theorem bracket?_member {k : Nat} (hk : skipEscape p j + 1 = k) (h : Rest p k rest) :
    bracket? p j = if rest.head? = some 0x5d then some (k + 1) else bracket? p k := by
  have hle := h.1
  have hhead : p[skipEscape p j + 1]? = rest.head? := by
    rw [hk, h.head?_eq]
  rw [bracket?, if_pos (by omega), hhead, hk, show skipEscape p j + 2 = k + 1 by omega]

theorem Rest.skipEscape_of_escape (h : Rest p j (0x25 :: bs)) : skipEscape p j = j + 1 :=
  if_pos h.head

theorem Rest.skipEscape_of_ne (h : Rest p j (b :: bs)) (hb : b ≠ 0x25) : skipEscape p j = j := by
  apply if_neg
  rw [h.head]
  exact fun e => hb (Option.some.inj e)

/-- The place after a set, counted from behind its first member `x`. -/
theorem place_after_member {k : Nat} {x : List UInt8} (hk : k = j + x.length)
    (o : Option (List UInt8 × List UInt8)) :
    o.map (fun mr => k + mr.1.length + 1) =
      (o.map fun mr => (x ++ mr.1, mr.2)).map fun mr => j + mr.1.length + 1 := by
  cases o with
  | none => rfl
  | some mr => simp [hk, Nat.add_assoc]

theorem bracket?_eq (h : Rest p j bs) :
    bracket? p j = (Charset.body? bs).map fun mr => j + mr.1.length + 1 := by
  fun_induction Charset.body? bs generalizing j with
  | case1 => exact bracket?_of_size_le (Nat.le_of_eq h.length.symm)
  | case2 b =>
    have hl : j + 1 = p.size := h.length
    by_cases hb : b = 0x25
    · subst hb
      rw [bracket?, if_neg (by rw [h.skipEscape_of_escape]; omega)]
      rfl
    · rw [bracket?_member (by rw [h.skipEscape_of_ne hb]) h.tail]
      exact bracket?_of_size_le (Nat.le_of_eq hl.symm)
  | case3 c rest =>
    rw [bracket?_member (by rw [h.skipEscape_of_escape]) h.tail.tail]
    rfl
  | case4 c rest hne ih =>
    have hrest : rest.head? ≠ some 0x5d := fun e => by
      obtain ⟨rest', rfl⟩ := List.head?_eq_some_iff.mp e
      exact hne rest' rfl
    rw [bracket?_member (by rw [h.skipEscape_of_escape]) h.tail.tail, if_neg hrest,
      ih h.tail.tail]
    exact place_after_member (x := [0x25, c]) rfl _
  | case5 b rest _ hb =>
    rw [bracket?_member (by rw [h.skipEscape_of_ne hb]) h.tail]
    rfl
  | case6 b rest hnil _ hesc hne ih =>
    have hb : b ≠ 0x25 := fun e => by
      cases rest with
      | nil => exact hnil rfl
      | cons c rest => exact hesc c rest e rfl
    have hrest : rest.head? ≠ some 0x5d := fun e => by
      obtain ⟨rest', rfl⟩ := List.head?_eq_some_iff.mp e
      exact hne rest' rfl
    rw [bracket?_member (by rw [h.skipEscape_of_ne hb]) h.tail, if_neg hrest, ih h.tail]
    exact place_after_member (x := [b]) rfl _

theorem eq_append_of_body? (h : Charset.body? bs = some (m, r)) : bs = m ++ 0x5d :: r := by
  fun_induction Charset.body? bs generalizing m r with
  | case1 => cases h
  | case2 => cases h
  | case3 =>
    cases h
    rfl
  | case4 c rest _ ih =>
    obtain ⟨mr, hmr, e⟩ := Option.map_eq_some_iff.mp h
    cases e
    rw [ih hmr]
    rfl
  | case5 =>
    cases h
    rfl
  | case6 b rest _ _ _ _ ih =>
    obtain ⟨mr, hmr, e⟩ := Option.map_eq_some_iff.mp h
    cases e
    rw [ih hmr]
    rfl

section
variable {c x lo hi d : UInt8} {stop : Nat} {found : Bool}

theorem members?_escape (hi : i + 1 < stop) (hb : p[i]? = some 0x25) (hx : p[i + 1]? = some x) :
    members? p c stop i found = members? p c stop (i + 2) (found || Escape.test ⟨x⟩ c) := by
  rw [members?, if_pos (by omega)]
  simp [hb, hx, hi]

theorem members?_range (hi' : i + 2 < stop) (hlo : lo ≠ 0x25) (hb : p[i]? = some lo)
    (hd : p[i + 1]? = some 0x2d) (hh : p[i + 2]? = some hi) :
    members? p c stop i found = members? p c stop (i + 3) (found || (lo ≤ c && c ≤ hi)) := by
  rw [members?, if_pos (by omega)]
  simp [hb, hd, hh, hi', hlo]

theorem members?_byte (hi : i < stop) (hb : p[i]? = some b) (hesc : b = 0x25 → stop ≤ i + 1)
    (hd : i + 2 < stop → p[i + 1]? = some d ∧ d ≠ 0x2d) :
    members? p c stop i found = members? p c stop (i + 1) (found || c == b) := by
  have hesc' : ¬ (b = 0x25 ∧ i + 1 < stop) := fun h => absurd (hesc h.1) (by omega)
  rw [members?, if_pos hi, hb]
  simp only [Option.bind_eq_bind, Option.bind_some, if_neg hesc']
  by_cases h2 : i + 2 < stop
  · obtain ⟨hr, hne⟩ := hd h2
    simp [h2, hr, hne]
  · simp [h2]

end

/-- The walk over the members of a set meets the members that the reader makes of its bytes. -/
theorem members?_eq (h : Rest p i (m ++ rest)) (c : UInt8) (found : Bool) :
    members? p c (i + m.length) i found =
      some (found || (Charset.membersOf m).any (·.test c)) := by
  fun_induction Charset.membersOf m generalizing i found with
  | case1 =>
    rw [members?, if_neg (by simp)]
    simp
  | case2 x m ih =>
    have hstop : i + (0x25 :: x :: m).length = i + 2 + m.length := by
      simp only [List.length_cons]
      omega
    rw [hstop, members?_escape (by omega) h.head (h.read 1), ih h.tail.tail]
    simp [Member.test, Bool.or_assoc]
  | case3 lo hi m hne ih =>
    have hstop : i + (lo :: 0x2d :: hi :: m).length = i + 3 + m.length := by
      simp only [List.length_cons]
      omega
    rw [hstop, members?_range (by omega) (fun e => hne e) h.head (h.read 1) (h.read 2),
      ih h.tail.tail.tail]
    simp [Member.test, Bool.or_assoc]
  | case4 b m hesc hrange ih =>
    have hstop : i + (b :: m).length = i + 1 + m.length := by
      simp only [List.length_cons]
      omega
    have hb : b = 0x25 → m = [] := fun e => by
      cases m with
      | nil => rfl
      | cons x m => exact absurd rfl (hesc x m e)
    rw [hstop, members?_byte (d := m.headD 0) (by omega) h.head, ih h.tail]
    · simp [Member.test, Bool.or_assoc]
    · intro e
      rw [hb e]
      exact Nat.le_refl _
    · intro hlt
      rcases m with _ | ⟨d, _ | ⟨x, m⟩⟩
      · simp at hlt
      · simp at hlt
      · refine ⟨h.read 1, fun e => ?_⟩
        exact hrange x m (by rw [show d = 0x2d from e])

/-! ## a whole set -/

theorem firstMember_cases (h : Rest p i (0x5b :: bs)) :
    (∃ body, bs = 0x5e :: body ∧ firstMember p i = i + 2 ∧ Rest p (i + 2) body ∧
      Charset.read? bs = (Charset.body? body).map fun mr => (⟨true, Charset.membersOf mr.1⟩, mr.2)) ∨
    bs.head? ≠ some 0x5e ∧ firstMember p i = i + 1 ∧ Rest p (i + 1) bs ∧
      Charset.read? bs = (Charset.body? bs).map fun mr => (⟨false, Charset.membersOf mr.1⟩, mr.2) := by
  have hhead : p[i + 1]? = bs.head? := h.tail.head?_eq
  by_cases hb : bs.head? = some 0x5e
  · obtain ⟨body, rfl⟩ := List.head?_eq_some_iff.mp hb
    exact .inl ⟨body, rfl, if_pos hhead, h.tail.tail, rfl⟩
  · refine .inr ⟨hb, if_neg (by rw [hhead]; exact hb), h.tail, ?_⟩
    unfold Charset.read?
    split
    · exact absurd rfl hb
    · rfl

theorem checkSet_of_read?_none (h : Rest p i (0x5b :: bs)) (hs : Charset.read? bs = none) :
    checkSet p i = .error .unclosedSet := by
  have hnone : bracket? p (firstMember p i) = none := by
    rcases firstMember_cases h with ⟨body, _, hf, hr, e⟩ | ⟨_, hf, hr, e⟩
    · rw [e, Option.map_eq_none_iff] at hs
      rw [hf, bracket?_eq hr, hs]
      rfl
    · rw [e, Option.map_eq_none_iff] at hs
      rw [hf, bracket?_eq hr, hs]
      rfl
  unfold checkSet
  rw [hnone]

theorem elementEnd?_of_checkSet (hb : p[i]? = some 0x5b) (h : checkSet p i = .ok e) :
    elementEnd? p i = some e := by
  obtain ⟨hs, _⟩ := setStop_of_bracket? (checkSet_eq_ok_iff.mp h)
  unfold elementEnd?
  rw [hb, ← hs]
  rfl

/-- What the walk over a set needs: its members lie between two places, with the bracket after
them. -/
theorem set?_eq {first : Nat} {body : List UInt8} {complement : Bool} (hb : p[i]? = some 0x5b)
    (hfirst : p[i + 1]? = some b) (hc : complement = decide (b = 0x5e))
    (hf : firstMember p i = first) (hr : Rest p first body)
    (hm : Charset.body? body = some (m, r)) (c : UInt8) :
    checkSet p i = .ok (first + m.length + 1) ∧ Rest p (first + m.length + 1) r ∧
      set? p i c = some (Charset.test ⟨complement, Charset.membersOf m⟩ c) := by
  have hcheck : checkSet p i = .ok (first + m.length + 1) := by
    rw [checkSet_eq_ok_iff, hf, bracket?_eq hr, hm]
    rfl
  obtain rfl := eq_append_of_body? hm
  refine ⟨hcheck, hr.append.tail, ?_⟩
  have hstart : (if b = 0x5e then i + 2 else i + 1) = first := by
    rw [← hf]
    unfold firstMember
    rw [hfirst]
    simp
  unfold set?
  rw [elementEnd?_of_checkSet hb hcheck, hfirst]
  simp only [Option.bind_eq_bind, Option.bind_some, minus?, hstart,
    if_pos (show 1 ≤ first + m.length + 1 by omega), Nat.add_sub_cancel, members?_eq hr]
  subst hc
  by_cases he : b = 0x5e <;> simp [he, Charset.test]

theorem set_spec {set : Charset} (h : Rest p i (0x5b :: bs))
    (hs : Charset.read? bs = some (set, r)) :
    ∃ e, checkSet p i = .ok e ∧ Rest p e r ∧ ∀ c, set? p i c = some (set.test c) := by
  rcases firstMember_cases h with ⟨body, rfl, hf, hr, e⟩ | ⟨hne, hf, hr, e⟩
  · rw [e, Option.map_eq_some_iff] at hs
    obtain ⟨⟨m, r'⟩, hm, e⟩ := hs
    cases e
    have hall := set?_eq h.head (h.read 1) rfl hf hr hm
    exact ⟨_, (hall 0).1, (hall 0).2.1, fun c => (hall c).2.2⟩
  · rw [e, Option.map_eq_some_iff] at hs
    obtain ⟨⟨m, r'⟩, hm, e⟩ := hs
    cases e
    cases bs with
    | nil => cases hm
    | cons b bs =>
      have hb : false = decide (b = 0x5e) := (decide_eq_false (fun e => hne (congrArg some e))).symm
      have hall := set?_eq h.head (h.read 1) hb hf hr hm
      exact ⟨_, (hall 0).1, (hall 0).2.1, fun c => (hall c).2.2⟩

end Bytewise

/-! ## the texts of items -/

theorem Bytes.le_toNat_of_isDigit {c : UInt8} (h : Bytes.isDigit c = true) : 0x30 ≤ c.toNat := by
  simp only [Bytes.isDigit, Bool.and_eq_true, decide_eq_true_eq] at h
  exact UInt8.le_iff_toNat_le.mp h.1

theorem Bytes.ne_of_isDigit {c d : UInt8} (h : Bytes.isDigit c = true)
    (hd : Bytes.isDigit d = false) : c ≠ d := by
  rintro rfl
  exact Bool.false_ne_true (hd.symm.trans h)

/-- An element starts with a byte and goes on with bytes, up to a rest. -/
inductive Element.Reads : UInt8 → List UInt8 → Element → List UInt8 → Prop where
  | any {bs} : Reads 0x2e bs .any bs
  | escape {c bs} : c ≠ 0x62 → c ≠ 0x66 → Bytes.isDigit c = false →
      Reads 0x25 (c :: bs) (.escape ⟨c⟩) bs
  | set {bs set rest} : Charset.read? bs = some (set, rest) → Reads 0x5b bs (.set set) rest
  | byte {b bs} : b ≠ 0x25 → b ≠ 0x5b → b ≠ 0x28 → b ≠ 0x29 → b ≠ 0x2e →
      (b = 0x24 → bs ≠ []) → Reads b bs (.byte b) bs

inductive Item.Reads : UInt8 → List UInt8 → Item → List UInt8 → Prop where
  | element {b bs e tail r rest} : Element.Reads b bs e tail → repetition tail = (r, rest) →
      Reads b bs (.element e r) rest
  | opening {bs} : bs.head? ≠ some 0x29 → Reads 0x28 bs .opening bs
  | position {bs} : Reads 0x28 (0x29 :: bs) .position bs
  | closing {bs} : Reads 0x29 bs .closing bs
  | ending : Reads 0x24 [] .ending []
  | balance {x y bs} : Reads 0x25 (0x62 :: x :: y :: bs) (.balance x y) bs
  | frontier {bs set rest} : Charset.read? bs = some (set, rest) →
      Reads 0x25 (0x66 :: 0x5b :: bs) (.frontier set) rest
  | reference {c bs} : Bytes.isDigit c = true → Reads 0x25 (c :: bs) (.reference (c.toNat - 0x30)) bs

namespace Item

theorem reads_ofElement {b : UInt8} {bs tail rest : List UInt8} {e : Element} {item : Item}
    (he : Element.Reads b bs e tail) (h : ofElement e tail = (item, rest)) :
    Reads b bs item rest := by
  cases h
  exact .element he rfl

theorem reads_of_readEscape {bs rest : List UInt8} {item : Item}
    (h : readEscape bs = .ok (item, rest)) : Reads 0x25 bs item rest := by
  unfold readEscape at h
  split at h
  · cases h
  rename_i c bs
  split at h
  · rename_i hc
    obtain rfl : c = 0x62 := beq_iff_eq.mp hc
    split at h
    · cases h
      exact .balance
    · cases h
  rename_i hb
  split at h
  · rename_i hc
    obtain rfl : c = 0x66 := beq_iff_eq.mp hc
    split at h
    · split at h
      · rename_i hs
        cases h
        exact .frontier hs
      · cases h
    · cases h
  rename_i hf
  split at h
  · rename_i hd
    cases h
    exact .reference hd
  rename_i hd
  exact reads_ofElement (.escape (fun e => hb (beq_iff_eq.mpr e)) (fun e => hf (beq_iff_eq.mpr e))
    (Bool.eq_false_iff.mpr hd)) (Except.ok.inj h)

theorem reads_of_read {b : UInt8} {bs rest : List UInt8} {item : Item}
    (h : read b bs = .ok (item, rest)) : Reads b bs item rest := by
  unfold read at h
  simp only [beq_iff_eq, Bool.and_eq_true, List.isEmpty_iff] at h
  split at h
  · rename_i hb
    subst hb
    exact reads_of_readEscape h
  rename_i hesc
  split at h
  · rename_i hb
    subst hb
    split at h
    · rename_i hs
      exact reads_ofElement (.set hs) (Except.ok.inj h)
    · cases h
  rename_i hset
  split at h
  · rename_i hb
    subst hb
    split at h
    · cases h
      exact .position
    · rename_i hne
      cases h
      refine .opening fun e => ?_
      obtain ⟨bs', rfl⟩ := List.head?_eq_some_iff.mp e
      exact hne bs' rfl
  rename_i hopen
  split at h
  · rename_i hb
    subst hb
    cases h
    exact .closing
  rename_i hclose
  split at h
  · rename_i hb
    obtain ⟨rfl, rfl⟩ := hb
    cases h
    exact .ending
  rename_i hend
  split at h
  · rename_i hb
    subst hb
    exact reads_ofElement .any (Except.ok.inj h)
  rename_i hany
  exact reads_ofElement (.byte hesc hset hopen hclose hany (fun e e' => hend ⟨e, e'⟩))
    (Except.ok.inj h)

end Item

namespace Bytewise

variable {p : Bytes} {pp i j e q : Nat} {b : UInt8} {bs m r rest tail : List UInt8}

/-! ## elements at the cursor -/

/-- The matcher on bytes finds an element at the cursor, and `q` after it. -/
structure ElementAt (p : Bytes) (pp : Nat) (e : Element) (q : Nat) : Prop where
  stop : elementEnd? p pp = some q
  test : ∀ c, single? p pp c = some (e.test c)

theorem elementAt_set {set : Charset} (h : Rest p pp (0x5b :: bs))
    (hs : Charset.read? bs = some (set, rest)) :
    ∃ q, ElementAt p pp (.set set) q ∧ checkSet p pp = .ok q ∧ Rest p q rest := by
  obtain ⟨q, hq, hrest, htest⟩ := set_spec h hs
  refine ⟨q, ⟨elementEnd?_of_checkSet h.head hq, fun c => ?_⟩, hq, hrest⟩
  unfold single?
  rw [h.head]
  exact htest c

/-- The element at the cursor, and the token that the check finds there. -/
theorem elementAt_of_reads {el : Element} (h : Rest p pp (b :: bs))
    (he : Element.Reads b bs el tail) :
    ∃ q, ElementAt p pp el q ∧ Rest p q tail ∧ checkToken p pp b = .ok q := by
  cases he with
  | any =>
    refine ⟨pp + 1, ⟨?_, fun c => ?_⟩, h.tail, rfl⟩
    · unfold elementEnd?
      rw [h.head]
      rfl
    · unfold single?
      rw [h.head]
      rfl
  | escape hb hf hd =>
    rename_i c
    have hc : p[pp + 1]? = some c := h.read 1
    refine ⟨pp + 2, ⟨?_, fun c' => ?_⟩, h.tail.tail, ?_⟩
    · unfold elementEnd?
      rw [h.head]
      rfl
    · unfold single?
      rw [h.head, hc]
      rfl
    · unfold checkToken
      rw [if_pos rfl, hc]
      simp [hb, hf]
  | set hs =>
    obtain ⟨q, hat, hq, hrest⟩ := elementAt_set h hs
    exact ⟨q, hat, hrest, hq⟩
  | byte hesc hset _ _ hany _ =>
    refine ⟨pp + 1, ⟨?_, fun c => ?_⟩, h.tail, ?_⟩
    · unfold elementEnd?
      rw [h.head]
      simp [hesc, hset]
    · unfold single?
      rw [h.head]
      simp [hany, hesc, hset, Element.test]
    · unfold checkToken
      rw [if_neg hesc, if_neg hset]

/-! ## the check -/

theorem visits_end (h : Rest p pp []) : visits p pp = .ok [pp] := by
  have hl : pp + 0 = p.size := h.length
  rw [visits, dif_neg (by omega)]

theorem visits_of_token (h : Rest p pp (b :: bs)) (hq : checkToken p pp b = .ok q) :
    visits p pp = (visits p q).map (pp :: ·) := by
  obtain ⟨hlt, hb⟩ := Array.getElem?_eq_some_iff.mp h.head
  rw [visits, dif_pos hlt]
  split
  · rename_i he
    rw [hb, hq] at he
    cases he
  · rename_i he
    rw [hb, hq] at he
    cases he
    rfl

theorem visits_of_error {e : PatternError} (h : Rest p pp (b :: bs))
    (he : checkToken p pp b = .error e) : visits p pp = .error e := by
  obtain ⟨hlt, hb⟩ := Array.getElem?_eq_some_iff.mp h.head
  rw [visits, dif_pos hlt]
  split
  · rename_i he'
    rw [hb, he] at he'
    cases he'
    rfl
  · rename_i he'
    rw [hb, he] at he'
    cases he'

theorem checkToken_byte (hesc : b ≠ 0x25) (hset : b ≠ 0x5b) : checkToken p pp b = .ok (pp + 1) := by
  unfold checkToken
  rw [if_neg hesc, if_neg hset]

/-- The sign of a repetition is a token of its own, and no opening parenthesis. -/
theorem visits_of_repetition {rep : Repetition} (h : Rest p pp bs)
    (hr : Item.repetition bs = (rep, rest)) (hq : Rest p q rest) :
    ∃ pre, visits p pp = (visits p q).map (pre ++ ·) ∧ ∀ v ∈ pre, p[v]? ≠ some 0x28 := by
  have hid : ∀ x : Except PatternError (List Nat), x = x.map ([] ++ ·) := fun x => by
    cases x <;> rfl
  unfold Item.repetition at hr
  split at hr
  case h_5 =>
    cases hr
    obtain rfl := h.unique hq
    exact ⟨[], hid _, fun v hv => absurd hv List.not_mem_nil⟩
  all_goals
    cases hr
    obtain rfl := h.tail.unique hq
    refine ⟨[pp], visits_of_token h (checkToken_byte (by decide) (by decide)), fun v hv => ?_⟩
    rw [List.mem_singleton.mp hv, h.head]
    decide

theorem map_map_append (x : Except PatternError (List Nat)) (pp : Nat) (pre : List Nat) :
    (x.map (pre ++ ·)).map (pp :: ·) = x.map (pp :: pre ++ ·) := by
  cases x <;> rfl

/-- Where an item starts the check looks for a token, and it comes by where the item ends; at the
places between there is no opening parenthesis. -/
theorem visits_of_reads {item : Item} (h : Rest p pp (b :: bs)) (hr : Item.Reads b bs item rest)
    (hq : Rest p q rest) : ∃ pre, visits p pp = (visits p q).map (pp :: pre ++ ·) ∧
      ∀ v ∈ pre, p[v]? ≠ some 0x28 := by
  have hone : ∀ q', checkToken p pp b = .ok q' → Rest p q' rest →
      ∃ pre, visits p pp = (visits p q).map (pp :: pre ++ ·) ∧ ∀ v ∈ pre, p[v]? ≠ some 0x28 := by
    intro q' ht hrest
    obtain rfl := hrest.unique hq
    exact ⟨[], visits_of_token h ht, fun v hv => absurd hv List.not_mem_nil⟩
  cases hr with
  | element he hrep =>
    obtain ⟨q', _, hrest, ht⟩ := elementAt_of_reads h he
    obtain ⟨pre, hpre, hsign⟩ := visits_of_repetition hrest hrep hq
    refine ⟨pre, ?_, hsign⟩
    rw [visits_of_token h ht, hpre, map_map_append]
  | opening => exact hone (pp + 1) rfl h.tail
  | position =>
    obtain rfl := h.tail.tail.unique hq
    refine ⟨[pp + 1], ?_, fun v hv => ?_⟩
    · rw [visits_of_token h rfl, visits_of_token h.tail rfl]
      exact map_map_append _ pp [pp + 1]
    · rw [List.mem_singleton.mp hv, h.tail.head]
      decide
  | closing => exact hone (pp + 1) rfl h.tail
  | ending => exact hone (pp + 1) rfl h.tail
  | balance =>
    apply hone (pp + 4) _ h.tail.tail.tail.tail
    have hl := h.length
    simp only [List.length_cons] at hl
    unfold checkToken
    rw [if_pos rfl, show p[pp + 1]? = some 0x62 from h.read 1]
    simp only [↓reduceIte]
    rw [if_neg (by omega)]
  | frontier hs =>
    obtain ⟨q', _, hcheck, hrest⟩ := elementAt_set h.tail.tail hs
    apply hone q' _ hrest
    unfold checkToken
    rw [if_pos rfl, show p[pp + 1]? = some 0x66 from h.read 1]
    simp only [show p[pp + 2]? = some 0x5b from h.read 2]
    exact hcheck
  | reference hd =>
    rename_i c
    apply hone (pp + 2) _ h.tail.tail
    have hb : c ≠ 0x62 := Bytes.ne_of_isDigit hd rfl
    have hf : c ≠ 0x66 := Bytes.ne_of_isDigit hd rfl
    unfold checkToken
    rw [if_pos rfl, show p[pp + 1]? = some c from h.read 1]
    simp [hb, hf]

theorem rest_of_repetition {rep : Repetition} (h : Rest p pp bs)
    (hr : Item.repetition bs = (rep, rest)) : ∃ q, Rest p q rest := by
  unfold Item.repetition at hr
  split at hr
  case h_5 =>
    cases hr
    exact ⟨pp, h⟩
  all_goals
    cases hr
    exact ⟨pp + 1, h.tail⟩

theorem rest_of_reads {item : Item} (h : Rest p pp (b :: bs)) (hr : Item.Reads b bs item rest) :
    ∃ q, Rest p q rest := by
  cases hr with
  | element he hrep =>
    obtain ⟨q, _, hrest, _⟩ := elementAt_of_reads h he
    exact rest_of_repetition hrest hrep
  | opening => exact ⟨_, h.tail⟩
  | position => exact ⟨_, h.tail.tail⟩
  | closing => exact ⟨_, h.tail⟩
  | ending => exact ⟨_, h.tail⟩
  | balance => exact ⟨_, h.tail.tail.tail.tail⟩
  | frontier hs =>
    obtain ⟨q, _, _, hrest⟩ := elementAt_set h.tail.tail hs
    exact ⟨q, hrest⟩
  | reference => exact ⟨_, h.tail.tail⟩

theorem checkToken_of_escape_error {e : PatternError} (h : Rest p pp (0x25 :: bs))
    (he : Item.readEscape bs = .error e) : checkToken p pp 0x25 = .error e := by
  have hl := h.length
  unfold checkToken
  rw [if_pos rfl]
  unfold Item.readEscape at he
  split at he
  · cases he
    rw [show p[pp + 1]? = none from h.read 1]
  rename_i c bs
  rw [show p[pp + 1]? = some c from h.read 1]
  simp only [beq_iff_eq] at he
  split at he
  · rename_i hc
    subst hc
    split at he
    · cases he
    rename_i hne
    cases he
    have hshort : bs.length < 2 := by
      rcases bs with _ | ⟨x, _ | ⟨y, bs⟩⟩
      · exact Nat.two_pos
      · exact Nat.one_lt_two
      · exact absurd rfl (hne x y bs)
    simp only [List.length_cons] at hl
    show (if p.size ≤ pp + 3 then _ else _) = _
    rw [if_pos (by omega)]
  split at he
  · rename_i hc
    subst hc
    show (if p[pp + 2]? = some 0x5b then checkSet p (pp + 2) else _) = _
    rw [h.tail.tail.head?_eq]
    split at he
    · split at he
      · cases he
      rename_i hs
      cases he
      exact checkSet_of_read?_none h.tail.tail hs
    rename_i hne
    cases he
    apply if_neg
    intro hhead
    obtain ⟨bs', rfl⟩ := List.head?_eq_some_iff.mp hhead
    exact hne bs' rfl
  split at he <;> cases he

theorem checkToken_of_error {e : PatternError} (h : Rest p pp (b :: bs))
    (he : Item.read b bs = .error e) : checkToken p pp b = .error e := by
  unfold Item.read at he
  simp only [beq_iff_eq] at he
  split at he
  · rename_i hb
    subst hb
    exact checkToken_of_escape_error h he
  split at he
  · rename_i hb
    subst hb
    split at he
    · cases he
    rename_i hs
    cases he
    exact checkSet_of_read?_none h hs
  repeat' split at he
  all_goals cases he

/-- The check accepts the patterns that can be read, and finds the same fault in the others. -/
theorem visits_eq_readAll (h : Rest p pp bs) :
    (visits p pp).map (fun _ => ()) = (Item.readAll bs).map (fun _ => ()) := by
  induction hn : bs.length using Nat.strongRecOn generalizing pp bs with
  | _ n ih =>
  cases bs with
  | nil =>
    rw [visits_end h, Item.readAll_nil]
    rfl
  | cons b bs =>
    rw [Item.readAll]
    split
    · rename_i e he
      rw [visits_of_error h (checkToken_of_error h he)]
      rfl
    · rename_i item rest hread
      have hreads := Item.reads_of_read hread
      obtain ⟨q, hq⟩ := rest_of_reads h hreads
      obtain ⟨pre, hpre, _⟩ := visits_of_reads h hreads hq
      have hrec := ih rest.length (by
        have := Item.read_length hread
        rw [← hn, List.length_cons]
        omega) hq rfl
      rw [hpre]
      cases hv : visits p q <;> cases hr : Item.readAll rest <;> rw [hv, hr] at hrec <;> exact hrec

/-! ## the places visited -/

theorem visits_of_map {f : List Nat → List Nat} {vs : List Nat}
    (h : (visits p pp).map f = .ok vs) : ∃ vs', visits p pp = .ok vs' ∧ vs = f vs' := by
  cases hv : visits p pp with
  | error e =>
    rw [hv] at h
    cases h
  | ok vs' =>
    rw [hv] at h
    cases h
    exact ⟨vs', rfl, rfl⟩

theorem mem_visits {vs : List Nat} (h : visits p pp = .ok vs) : pp ∈ vs := by
  rw [visits] at h
  split at h
  · split at h
    · cases h
    obtain ⟨vs', _, rfl⟩ := visits_of_map h
    exact List.mem_cons_self
  · cases h
    exact List.mem_cons_self

/-- A place visited is the end, or it has a token and the place after it is visited. -/
theorem token_of_mem_visits {vs : List Nat} (h : visits p pp = .ok vs) (hi : i ∈ vs)
    (hb : p[i]? = some b) : ∃ q, checkToken p i b = .ok q ∧ q ∈ vs := by
  fun_induction visits p pp generalizing vs with
  | case1 pp hlt e he => cases h
  | case2 pp hlt q hq _ ih =>
    obtain ⟨vs', hv, rfl⟩ := visits_of_map h
    rcases List.mem_cons.mp hi with rfl | hi
    · rw [Array.getElem?_eq_getElem hlt] at hb
      cases hb
      exact ⟨q, hq, List.mem_cons_of_mem _ (mem_visits hv)⟩
    · obtain ⟨q', hq', hmem⟩ := ih hv hi
      exact ⟨q', hq', List.mem_cons_of_mem _ hmem⟩
  | case3 pp hlt =>
    cases h
    rw [List.mem_singleton] at hi
    subst hi
    exact absurd (Array.getElem?_eq_some_iff.mp hb).1 hlt

end Bytewise

end LuaMachine
