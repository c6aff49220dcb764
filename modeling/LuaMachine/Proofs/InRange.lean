import LuaMachine.Proofs.Boundary
import LuaMachine.Proofs.FirstMatch

/-!
# Matching stays in range

On a pattern that passes the check, the matcher on bytes does what the matcher on items does: no read,
no difference and no slice fails, and the cursor stands where the check has looked for a token.

* `Realizes`           a search on bytes gives the answer of a search on items;
* `step?_eq`           one step of the cursor, over the text of one item;
* `realizes_follow`    a whole search, by induction on the items;
* `Match.Inside`       a match lies in the subject, and so do its captures.
-/

namespace LuaMachine

namespace Bytewise

/-- From every trail with the given captures, the search on bytes gives the answer of the search on
items; one that fails hands the captures back. -/
structure Realizes (cs : List Capture) (search? : Trail → Option Attempt)
    (search : Trail → Attempt) : Prop where
  eq : ∀ t : Trail, t.Sized → t.captures = cs → search? t = some (search t)
  restores : ∀ t u : Trail, t.Sized → t.captures = cs → search t = .failed u → t.Restores u

theorem restores_of_explores {rs : List Repetition} {sol : Choices} {cs : List Capture}
    {search : Trail → Attempt} (h : Explores rs sol cs search) (t u : Trail) (ht : t.Sized)
    (hc : t.captures = cs) (hu : search t = .failed u) : t.Restores u := by
  have ha := h t ht hc
  rw [hu] at ha
  exact ha.1

variable {s p : Bytes} {pp q i n : Nat} {cs : List Capture} {t : Trail}

theorem minus?_of_le {a b : Nat} (h : b ≤ a) : minus? a b = some (a - b) := if_pos h

theorem slice?_of_le {i j : Nat} (hij : i ≤ j) (hj : j ≤ s.size) :
    slice? s i j = some (s.slice i j) := if_pos ⟨hij, hj⟩

/-! ## scans of the subject -/

theorem at?_eq {e : Element} (hat : ElementAt p pp e q) (i : Nat) :
    at? s p pp i = some (Subject.at? s e.test i) := by
  unfold at? Subject.at?
  by_cases hi : i < s.size
  · rw [if_pos hi, Array.getElem?_eq_getElem hi]
    exact hat.test s[i]
  · rw [if_neg hi, Array.getElem?_eq_none (Nat.le_of_not_lt hi)]

theorem run?_eq {e : Element} (hat : ElementAt p pp e q) (hn : i + n = s.size) :
    run? s p pp i n = some (Subject.run s e.test i) := by
  induction n generalizing i with
  | zero =>
    rw [Subject.run_of_not_at? (by omega) (fun h => ?_)]
    · rfl
    · have := Subject.lt_size_of_at? h
      omega
  | succ n ih =>
    unfold run?
    rw [at?_eq hat, ih (by omega)]
    by_cases h : Subject.at? s e.test i = true
    · rw [Subject.run_of_at? h, h]
      rfl
    · rw [Subject.run_of_not_at? (by omega) h, Bool.eq_false_iff.mpr h]
      rfl

theorem balanced?_eq {x y : UInt8} {opened : Nat} (ho : 1 ≤ opened) :
    balanced? s x y i opened = some (Subject.balanced? s x y i opened) := by
  fun_induction Subject.balanced? s x y i opened with
  | case1 i opened hi hy hle =>
    rw [balanced?, if_pos hi, Array.getElem?_eq_getElem hi]
    simp [beq_iff_eq.mp hy, minus?_of_le ho, show opened - 1 = 0 by omega]
  | case2 i opened hi hy hle ih =>
    rw [balanced?, if_pos hi, Array.getElem?_eq_getElem hi]
    simp [beq_iff_eq.mp hy, minus?_of_le ho, show opened - 1 ≠ 0 by omega, ih (by omega)]
  | case3 i opened hi hy hx ih =>
    rw [balanced?, if_pos hi, Array.getElem?_eq_getElem hi]
    have hxy : x ≠ y := fun e => hy (by rw [beq_iff_eq.mp hx, e]; exact beq_self_eq_true y)
    simp [beq_iff_eq.mp hx, hxy, ih (by omega)]
  | case4 i opened hi hy hx ih =>
    rw [balanced?, if_pos hi, Array.getElem?_eq_getElem hi]
    have hy' : s[i] ≠ y := fun e => hy (beq_iff_eq.mpr e)
    have hx' : s[i] ≠ x := fun e => hx (beq_iff_eq.mpr e)
    simp [hy', hx', ih ho]
  | case5 i opened hi => rw [balanced?, if_neg hi]

theorem before?_eq (hi : i ≤ s.size) : before? s i = some (Subject.before s i) := by
  unfold before? Subject.before
  by_cases h0 : i = 0
  · simp [h0]
  · simp [h0, Array.getD_eq_getD_getElem?,
      Array.getElem?_eq_getElem (show i - 1 < s.size by omega)]

theorem after?_eq : after? s i = some (Subject.after s i) := by
  unfold after? Subject.after
  by_cases hlt : i < s.size <;> simp [hlt, Array.getD_eq_getD_getElem?]

theorem frontier?_eq {set : Charset} (hat : ElementAt p pp (.set set) q) (hi : i ≤ s.size) :
    frontier? s p pp i = some (Subject.frontier s set i) := by
  unfold frontier? Subject.frontier
  rw [before?_eq hi, after?_eq]
  simp only [Option.bind_eq_bind, Option.bind_some, hat.test, Element.test]
  cases set.test (Subject.before s i) <;> rfl

/-! ## trails -/

theorem lastOpen?_eq (hn : n ≤ t.slots.size) : lastOpen? t n = some (t.lastUnfinished? n) := by
  induction n with
  | zero => rfl
  | succ n ih =>
    have hs : t.slot n = t.slots[n] := by
      unfold Trail.slot
      rw [Array.getD_eq_getD_getElem?, Array.getElem?_eq_getElem hn]
      rfl
    unfold lastOpen? Trail.lastUnfinished?
    rw [Array.getElem?_eq_getElem hn, hs, ih (by omega)]
    by_cases h : t.slots[n].extent = .unfinished <;> simp [h]

theorem slot_in_range (ht : t.Sized) (hn : n < t.level) :
    n < t.slots.size ∧ t.slots[n]? = some (t.slot n) := by
  have hlt : n < t.slots.size := by
    rw [ht.slots]
    exact Nat.lt_of_lt_of_le hn ht.level
  refine ⟨hlt, ?_⟩
  unfold Trail.slot
  rw [Array.getD_eq_getD_getElem?, Array.getElem?_eq_getElem hlt]
  rfl

theorem referenced?_eq (ht : t.Sized) (hi : i ≤ s.size) (hp : Placed i t.captures) (n : Nat) :
    referenced? s n i t = some (Attempt.referenced s n i t) := by
  unfold referenced?
  show _ = some (if n == 0 || decide (t.level < n) ||
    decide ((t.slot (n - 1)).extent = .unfinished) then _ else _)
  by_cases hn : n = 0 ∨ t.level < n
  · rw [if_pos hn, if_pos (by rcases hn with h | h <;> simp [h])]
  have hlt : n - 1 < t.level := by omega
  have hn1 : (n == 0 || decide (t.level < n)) = false := by
    simp only [not_or] at hn
    simp [hn]
  obtain ⟨_, hend⟩ := hp _ (List.mem_of_getElem? (Trail.getElem?_captures ht hlt))
  rw [if_neg hn, (slot_in_range ht hlt).2, hn1, Bool.false_or]
  simp only [Option.bind_eq_bind, Option.bind_some]
  generalize t.slot (n - 1) = c at hend ⊢
  obtain ⟨a, x⟩ := c
  cases x with
  | unfinished => rfl
  | position => rfl
  | closed length =>
    have hle : a + length ≤ i := hend length rfl
    simp only [minus?_of_le hi, Option.bind_some]
    by_cases hleft : s.size - i < length
    · have hno : decide (length ≤ s.size - i) = false := decide_eq_false (by omega)
      simp [hleft, hno]
    · have hin : i + length ≤ s.size := by omega
      have hagree := Bytes.agree_iff (s := s) (t := s) (j := a) hin (by omega)
      have hyes : decide (length ≤ s.size - i) = true := decide_eq_true (by omega)
      rw [if_neg hleft, slice?_of_le (by omega) hin, slice?_of_le (by omega) (by omega)]
      simp only [Option.bind_some]
      by_cases htext : s.slice i (i + length) = s.slice a (a + length)
      · simp [htext, hyes, hagree.mpr htext]
      · have hno : s.agree i s a length = false :=
          Bool.eq_false_iff.mpr (fun h => htext (hagree.mp h))
        simp [htext, hno]

/-! ## searches -/

section
variable {search? : Trail → Option Attempt} {search : Trail → Attempt}

theorem Realizes.nested (h : Realizes cs search? search) (depth : Nat) :
    Realizes cs (nested? depth search?) (Attempt.nested depth search) := by
  constructor
  · intro t ht hc
    unfold nested? Attempt.nested
    rw [h.eq t ht hc]
    split <;> rfl
  · intro t u ht hc hu
    unfold Attempt.nested at hu
    split at hu
    · cases hu
    · exact h.restores t u ht hc hu

theorem Realizes.capturing_eq {c : Capture} (h : Realizes (cs ++ [c]) search? search)
    (ht : t.Sized) (hc : t.captures = cs) :
    capturing? c search? t = some (Attempt.capturing c search t) := by
  show _ = some (if Trail.maxCaptures ≤ t.level then _ else _)
  unfold capturing?
  by_cases hfull : Trail.maxCaptures ≤ t.level
  · rw [if_pos hfull, if_pos hfull]
  have hl : t.level < Trail.maxCaptures := Nat.lt_of_not_le hfull
  rw [if_neg hfull, if_neg hfull, if_pos (by rw [ht.slots]; exact hl),
    h.eq (t.push c) (ht.push hl c) (by rw [Trail.captures_push ht hl, hc])]
  cases search (t.push c) <;> rfl

theorem Realizes.closing_eq
    (h : ∀ n a, LastOpen cs n a → Realizes (cs.set n ⟨a, .closed (i - a)⟩) search? search)
    (hp : Placed i cs) (ht : t.Sized) (hc : t.captures = cs) :
    closing? i search? t = some (Attempt.closing i search t) := by
  subst hc
  have hsize : t.level ≤ t.slots.size := by
    rw [ht.slots]
    exact ht.level
  unfold closing? Attempt.closing
  rw [lastOpen?_eq hsize]
  rcases Trail.lastUnfinished?_spec ht with ⟨hnone, _⟩ | ⟨n, a, hsome, hstart, ho⟩
  · rw [hnone]
    rfl
  subst hstart
  have hlevel : n < t.level := ((Trail.getElem?_captures_iff ht).mp ho.1).1
  obtain ⟨hn, hslot⟩ := slot_in_range ht hlevel
  have hle : (t.slot n).start ≤ i := (hp _ (List.mem_of_getElem? ho.1)).1
  have hcap := Trail.captures_reach_eq_set ho.1 (.closed (i - (t.slot n).start))
  have hreach := h n _ ho
  rw [hsome]
  simp only [Option.bind_eq_bind, Option.bind_some, hslot, minus?_of_le hle, reach?, if_pos hn,
    hreach.eq _ (ht.reach n _) hcap]
  cases hr : search (t.reach n (.closed (i - (t.slot n).start))) with
  | fault e => rfl
  | matched j u => rfl
  | failed u =>
    have hu := (hreach.restores _ u (ht.reach n _) hcap hr).1.slots
    simp only [if_pos (show n < u.slots.size by rw [hu, ← ht.slots]; exact hn), Option.bind_some]
    rfl

end

section
variable {search? : Nat → Trail → Option Attempt} {search : Nat → Trail → Attempt}

theorem farthestFirst?_eq (h : ∀ m, i ≤ m → m ≤ i + n → Realizes cs (search? m) (search m))
    (ht : t.Sized) (hc : t.captures = cs) :
    farthestFirst? search? i n t = some (Attempt.farthestFirst search i n t) := by
  induction n generalizing t with
  | zero => exact (h i (Nat.le_refl i) (Nat.le_refl i)).eq t ht hc
  | succ n ih =>
    have hlast := h (i + (n + 1)) (by omega) (Nat.le_refl _)
    unfold farthestFirst? Attempt.farthestFirst
    rw [hlast.eq t ht hc]
    cases hr : search (i + (n + 1)) t with
    | fault e => rfl
    | matched j u => rfl
    | failed u =>
      have hu := hlast.restores t u ht hc hr
      exact ih (fun m h1 h2 => h m h1 (by omega)) hu.1 (hu.2.trans hc)

theorem nearestFirst?_eq {e : Element} (hat : ElementAt p pp e q) (hn : i + n = s.size)
    (h : ∀ m, i ≤ m → m ≤ s.size → Realizes cs (search? m) (search m))
    (ht : t.Sized) (hc : t.captures = cs) :
    nearestFirst? s p pp search? i n t = some (Attempt.nearestFirst s e.test search i n t) := by
  induction n generalizing i t with
  | zero => exact (h i (Nat.le_refl i) (by omega)).eq t ht hc
  | succ n ih =>
    have hfirst := h i (Nat.le_refl i) (by omega)
    unfold nearestFirst? Attempt.nearestFirst
    rw [hfirst.eq t ht hc]
    cases hr : search i t with
    | fault e => rfl
    | matched j u => rfl
    | failed u =>
      have hu := hfirst.restores t u ht hc hr
      have hrest := ih (i := i + 1) (t := u) (by omega) (fun m h1 h2 => h m (by omega) h2) hu.1
        (hu.2.trans hc)
      simp only [Option.bind_eq_bind, Option.bind_some, at?_eq hat, hrest]
      cases Subject.at? s e.test i <;> rfl

end

/-! ## one step -/

section
variable {next again : Nat → Nat → Trail → Option Attempt} {is : List Item} {depth : Nat}
  {b : UInt8} {bs tail rest : List UInt8} {e : Element} {q' : Nat}

/-- What comes after an item goes on where its text ends: the searches from there on bytes give the
answers of the searches for the other items. -/
structure GoesOn (s : Bytes) (is : List Item) (depth q : Nat)
    (next again : Nat → Nat → Trail → Option Attempt) : Prop where
  next : ∀ j cs, j ≤ s.size → Placed j cs →
    Realizes cs (next q j) (Attempt.nested depth (Attempt.follow s is (depth + 1) j))
  again : ∀ j cs, j ≤ s.size → Placed j cs →
    Realizes cs (again q j) (Attempt.follow s is depth j)

theorem step?_of_element (h : Rest p pp (b :: bs)) (he : Element.Reads b bs e tail) :
    step? next again s p pp i t = element? next again s p pp i t := by
  unfold step?
  rw [if_pos h.lt_size, h.head]
  cases he with
  | any => rfl
  | set => rfl
  | escape hb hf hd =>
    rename_i c
    show escape? next again s p pp i t = _
    unfold escape?
    rw [show p[pp + 1]? = some c from h.read 1]
    simp [hb, hf, hd]
  | byte hesc _ hopen hclose _ hend =>
    have hl := h.length
    have hlast : ¬ (b = 0x24 ∧ pp + 1 = p.size) := by
      rintro ⟨hb, hsize⟩
      have := List.length_pos_iff.mpr (hend hb)
      rw [List.length_cons] at hl
      omega
    simp [hesc, hopen, hclose, hlast]

theorem element?_once (hat : ElementAt p pp e q') (hgo : GoesOn s is depth q next again)
    (hp : Placed i cs) (ht : t.Sized) (hc : t.captures = cs) :
    (at? s p pp i).bind (fun ok => if ok = true then again q (i + 1) t else pure (.failed t)) =
      some (Attempt.follow s (.element e .once :: is) depth i t) := by
  show _ = some (if Subject.at? s e.test i then _ else _)
  rw [at?_eq hat, Option.bind_some]
  split
  · rename_i h
    have hlt := Subject.lt_size_of_at? h
    exact (hgo.again (i + 1) cs hlt (hp.mono (Nat.le_succ i))).eq t ht hc
  · rfl

theorem element?_eq {r : Repetition} (hat : ElementAt p pp e q) (hrest : Rest p q tail)
    (hrep : Item.repetition tail = (r, rest)) (hq' : Rest p q' rest)
    (hgo : GoesOn s is depth q' next again) (hi : i ≤ s.size) (hp : Placed i cs) (ht : t.Sized)
    (hc : t.captures = cs) :
    element? next again s p pp i t =
      some (Attempt.follow s (.element e r :: is) depth i t) := by
  have hplaces : ∀ m, i ≤ m → m ≤ s.size → Realizes cs (next q' m)
      (Attempt.nested depth (Attempt.follow s is (depth + 1) m)) :=
    fun m h1 h2 => hgo.next m cs h2 (hp.mono h1)
  have hrun := run?_eq hat (show i + (s.size - i) = s.size by omega)
  have hend : i + Subject.run s e.test i ≤ s.size :=
    ((Subject.stretch_iff_le_run hi).mpr (Nat.le_refl _)).le_size hi
  have hsign : p[q]? = tail.head? := hrest.head?_eq
  unfold element?
  simp only [hat.stop, minus?_of_le hi, Option.bind_eq_bind, Option.bind_some, hsign]
  unfold Item.repetition at hrep
  split at hrep
  · cases hrep
    obtain rfl := hrest.tail.unique hq'
    show (run? s p pp i (s.size - i)).bind _ = _
    rw [hrun]
    exact farthestFirst?_eq (fun m h1 h2 => hplaces m h1 (by omega)) ht hc
  · cases hrep
    obtain rfl := hrest.tail.unique hq'
    rw [Attempt.follow]
    show (run? s p pp i (s.size - i)).bind _ = _
    rw [hrun]
    cases hk : Subject.run s e.test i with
    | zero => rfl
    | succ n =>
      exact farthestFirst?_eq (fun m h1 h2 => hplaces m (by omega) (by omega)) ht hc
  · cases hrep
    obtain rfl := hrest.tail.unique hq'
    exact nearestFirst?_eq hat (by omega) hplaces ht hc
  · cases hrep
    obtain rfl := hrest.tail.unique hq'
    show (at? s p pp i).bind _ = _
    rw [at?_eq hat]
    apply farthestFirst?_eq _ ht hc
    intro m h1 h2
    apply hplaces m h1
    split at h2
    · rename_i h
      rw [Subject.run_of_at? h] at hend
      omega
    · omega
  · rename_i h1 h2 h3 h4
    cases hrep
    obtain rfl := hrest.unique hq'
    have honce := element?_once hat hgo hp ht hc
    cases tail with
    | nil => exact honce
    | cons d tail =>
      rw [List.head?_cons]
      split
      · rename_i hd
        exact (h1 tail (by rw [Option.some.inj hd])).elim
      · rename_i hd
        exact (h2 tail (by rw [Option.some.inj hd])).elim
      · rename_i hd
        exact (h3 tail (by rw [Option.some.inj hd])).elim
      · rename_i hd
        exact (h4 tail (by rw [Option.some.inj hd])).elim
      · exact honce

/-! ### escapes that are no elements -/

theorem step?_of_escape (h : Rest p pp (0x25 :: bs)) :
    step? next again s p pp i t = escape? next again s p pp i t := by
  unfold step?
  rw [if_pos h.lt_size, h.head]
  rfl

theorem escape?_balance {x y : UInt8} (h : Rest p pp (0x25 :: 0x62 :: x :: y :: rest))
    (hgo : GoesOn s is depth (pp + 4) next again) (hp : Placed i cs) (ht : t.Sized)
    (hc : t.captures = cs) :
    escape? next again s p pp i t =
      some (Attempt.follow s (.balance x y :: is) depth i t) := by
  unfold escape?
  rw [show p[pp + 1]? = some 0x62 from h.read 1, show p[pp + 2]? = some x from h.read 2,
    show p[pp + 3]? = some y from h.read 3]
  rw [Attempt.follow]
  show (if s[i]? = some x then (balanced? s x y (i + 1) 1).bind _ else _) = _
  have hat : Subject.at? s (· == x) i = true ↔ s[i]? = some x := by
    rw [Subject.at?_eq_true_iff]
    constructor
    · rintro ⟨b, hb, hbx⟩
      rw [hb, beq_iff_eq.mp hbx]
    · intro hx
      exact ⟨x, hx, beq_self_eq_true x⟩
  unfold Subject.balance?
  by_cases hx : s[i]? = some x
  · rw [if_pos hx, if_pos (hat.mpr hx), balanced?_eq (Nat.le_refl 1), Option.bind_some]
    cases hb : Subject.balanced? s x y (i + 1) 1 with
    | none => rfl
    | some j =>
      obtain ⟨hlt, hle, _⟩ := (Subject.balanced?_eq_some_iff (Nat.le_refl 1) j).mp hb
      exact (hgo.next j cs hle (hp.mono (by omega))).eq t ht hc
  · rw [if_neg hx, if_neg (fun h => hx (hat.mp h))]
    rfl

theorem escape?_frontier {set : Charset} (h : Rest p pp (0x25 :: 0x66 :: bs))
    (hat : ElementAt p (pp + 2) (.set set) q) (hgo : GoesOn s is depth q next again)
    (hi : i ≤ s.size) (hp : Placed i cs) (ht : t.Sized) (hc : t.captures = cs) :
    escape? next again s p pp i t =
      some (Attempt.follow s (.frontier set :: is) depth i t) := by
  unfold escape?
  rw [show p[pp + 1]? = some 0x66 from h.read 1]
  show (elementEnd? p (pp + 2)).bind _ = some (if Subject.frontier s set i then _ else _)
  simp only [hat.stop, Option.bind_some, Option.bind_eq_bind, frontier?_eq hat hi]
  by_cases hf : Subject.frontier s set i = true
  · rw [if_pos hf, if_pos hf]
    exact (hgo.next i cs hi hp).eq t ht hc
  · rw [if_neg hf, if_neg hf]
    rfl

theorem escape?_reference {c : UInt8} (h : Rest p pp (0x25 :: c :: rest))
    (hd : Bytes.isDigit c = true) (hgo : GoesOn s is depth (pp + 2) next again)
    (hi : i ≤ s.size) (hp : Placed i cs) (ht : t.Sized) (hc : t.captures = cs) :
    escape? next again s p pp i t =
      some (Attempt.follow s (.reference (c.toNat - 0x30) :: is) depth i t) := by
  subst hc
  have hb : c ≠ 0x62 := Bytes.ne_of_isDigit hd rfl
  have hf : c ≠ 0x66 := Bytes.ne_of_isDigit hd rfl
  have hdigit : 0x30 ≤ c.toNat := Bytes.le_toNat_of_isDigit hd
  unfold escape?
  rw [show p[pp + 1]? = some c from h.read 1]
  simp only [Option.bind_eq_bind, Option.bind_some, if_neg hb, if_neg hf, if_pos hd,
    minus?_of_le hdigit, referenced?_eq ht hi hp]
  rw [Attempt.follow]
  cases hr : Attempt.referenced s (c.toNat - 0x30) i t with
  | error e => rfl
  | ok place =>
    obtain ⟨m, _, hplace⟩ := referenced_spec ht hi hp hr
    cases place with
    | none => rfl
    | some j =>
      obtain ⟨a, length, ⟨_, hle, _⟩, rfl⟩ := (hplace j).mp rfl
      exact (hgo.next _ _ hle (hp.mono (Nat.le_add_right i length))).eq t ht rfl

theorem step?_eq {item : Item} (h : Rest p pp (b :: bs)) (hr : Item.Reads b bs item rest)
    (hq : Rest p q rest) (hgo : GoesOn s is depth q next again) (hi : i ≤ s.size)
    (hp : Placed i cs) (ht : t.Sized) (hc : t.captures = cs) :
    step? next again s p pp i t = some (Attempt.follow s (item :: is) depth i t) := by
  cases hr with
  | element he hrep =>
    obtain ⟨q', hat, hrest, _⟩ := elementAt_of_reads h he
    rw [step?_of_element h he]
    exact element?_eq hat hrest hrep hq hgo hi hp ht hc
  | opening hne =>
    obtain rfl := h.tail.unique hq
    have hhead : p[pp + 1]? ≠ some 0x29 := by
      rw [h.tail.head?_eq]
      exact hne
    have hp' : Placed i (cs ++ [⟨i, .unfinished⟩]) := hp.append (fun _ => Extent.noConfusion)
    unfold step?
    rw [if_pos h.lt_size, h.head]
    show (if p[pp + 1]? = some 0x29 then _ else _) = _
    rw [if_neg hhead]
    exact (hgo.next i _ hi hp').capturing_eq ht hc
  | position =>
    obtain rfl := h.tail.tail.unique hq
    have hp' : Placed i (cs ++ [⟨i, .position⟩]) := hp.append (fun _ => Extent.noConfusion)
    unfold step?
    rw [if_pos h.lt_size, h.head]
    show (if p[pp + 1]? = some 0x29 then _ else _) = _
    rw [if_pos (show p[pp + 1]? = some 0x29 from h.read 1)]
    exact (hgo.next i _ hi hp').capturing_eq ht hc
  | closing =>
    obtain rfl := h.tail.unique hq
    unfold step?
    rw [if_pos h.lt_size, h.head]
    exact Realizes.closing_eq (fun n a ho => hgo.next i _ hi (hp.close ho)) hp ht hc
  | ending =>
    have hl : pp + 1 = p.size := h.length
    unfold step?
    rw [if_pos h.lt_size, h.head]
    show (if (0x24 : UInt8) = 0x24 ∧ pp + 1 = p.size then _ else _) =
      some (if i == s.size then _ else _)
    rw [if_pos ⟨rfl, hl⟩]
    by_cases he : i = s.size <;> simp [he]
  | balance =>
    obtain rfl := h.tail.tail.tail.tail.unique hq
    rw [step?_of_escape h]
    exact escape?_balance h hgo hp ht hc
  | frontier hs =>
    obtain ⟨q', hat, _, hrest⟩ := elementAt_set h.tail.tail hs
    obtain rfl := hrest.unique hq
    rw [step?_of_escape h]
    exact escape?_frontier h hat hgo hi hp ht hc
  | reference hd =>
    obtain rfl := h.tail.tail.unique hq
    rw [step?_of_escape h]
    exact escape?_reference h hd hgo hi hp ht hc

theorem forward_of_read {item : Item} (h : Rest p pp (b :: bs))
    (hitem : Item.read b bs = .ok (item, rest)) (hq : Rest p q rest) : pp < q ∧ q ≤ p.size := by
  have h1 := h.length
  have h2 := hq.length
  have h3 := Item.read_length hitem
  rw [List.length_cons] at h1
  omega

theorem realizes_step {item : Item} (hread : Item.readAll (b :: bs) = .ok (item :: is))
    (h : Rest p pp (b :: bs)) (hr : Item.Reads b bs item rest) (hq : Rest p q rest)
    (hgo : GoesOn s is depth q next again) (hi : i ≤ s.size) (hp : Placed i cs) :
    Realizes cs (step? next again s p pp i) (Attempt.follow s (item :: is) depth i) :=
  ⟨fun _ ht hc => step?_eq h hr hq hgo hi hp ht hc,
    restores_of_explores (explores_follow (Item.endsLast_readAll hread) hi hp depth)⟩

end

/-! ## a whole search -/

theorem follow?_of_allowed {allowed : Nat → Bool} {depth : Nat} (h : allowed pp = true) :
    follow? allowed s p pp depth i =
      step?
        (fun q j t => if pp < q ∧ q ≤ p.size then
          nested? depth (follow? allowed s p q (depth + 1) j) t else none)
        (fun q j t => if pp < q ∧ q ≤ p.size then follow? allowed s p q depth j t else none)
        s p pp i := by
  funext t
  rw [follow?, if_pos h]
  rfl

/-- At every call the cursor stands at a place that the check has visited; nothing is out of range. -/
theorem realizes_follow {allowed : Nat → Bool} {vs : List Nat} {bs : List UInt8} {is : List Item}
    (hbs : Rest p pp bs) (hread : Item.readAll bs = .ok is) (hv : visits p pp = .ok vs)
    (hall : ∀ v ∈ vs, allowed v = true) (hi : i ≤ s.size) (hp : Placed i cs) (depth : Nat) :
    Realizes cs (follow? allowed s p pp depth i) (Attempt.follow s is depth i) := by
  induction is generalizing pp bs vs i cs depth with
  | nil =>
    obtain rfl := Item.readAll_eq_nil_iff.mp hread
    have hl : pp + 0 = p.size := hbs.length
    refine ⟨fun t ht hc => ?_, fun t u ht hc hu => nomatch hu⟩
    rw [follow?_of_allowed (hall pp (mem_visits hv)), step?, if_neg (by omega)]
    rfl
  | cons item is ih =>
    obtain ⟨b, bs', rest, rfl, hitem, hrest⟩ := Item.readAll_eq_cons_iff.mp hread
    have hreads := Item.reads_of_read hitem
    obtain ⟨q, hq⟩ := rest_of_reads hbs hreads
    obtain ⟨pre, hpre, _⟩ := visits_of_reads hbs hreads hq
    -- the cursor goes forward, and the places visited from there on are among the allowed ones
    have hforward := forward_of_read hbs hitem hq
    obtain ⟨vs', hv', rfl⟩ := visits_of_map (hpre.symm.trans hv)
    have hlater : ∀ depth j cs, j ≤ s.size → Placed j cs →
        Realizes cs (follow? allowed s p q depth j) (Attempt.follow s is depth j) :=
      fun depth j cs hj hpj =>
        ih hq hrest hv' (fun v hmem => hall v (List.mem_append_right _ hmem)) hj hpj depth
    rw [follow?_of_allowed (hall pp (mem_visits hv))]
    apply realizes_step hread hbs hreads hq _ hi hp
    constructor
    · intro j cs hj hpj
      have hgo := (hlater (depth + 1) j cs hj hpj).nested depth
      exact ⟨fun t ht hc => (if_pos hforward).trans (hgo.eq t ht hc), hgo.restores⟩
    · intro j cs hj hpj
      have hgo := hlater depth j cs hj hpj
      exact ⟨fun t ht hc => (if_pos hforward).trans (hgo.eq t ht hc), hgo.restores⟩

theorem attempt?_eq {allowed : Nat → Bool} {vs : List Nat} {bs : List UInt8} {is : List Item}
    (hbs : Rest p pp bs) (hread : Item.readAll bs = .ok is) (hv : visits p pp = .ok vs)
    (hall : ∀ v ∈ vs, allowed v = true) (hi : i ≤ s.size)
    (ht : t.slots.size = Trail.maxCaptures) :
    attempt? allowed s p pp i t = some (attempt s is i t) :=
  ((realizes_follow hbs hread hv hall hi (Placed.nil i) 1).nested 0).eq t.cleared
    (Trail.sized_cleared ht) (Trail.captures_cleared t)

end Bytewise

/-! ## what is made of a match -/

/-- A match ends in the subject, and its captures lie before its end. -/
theorem Matches.inside {s : Bytes} {is : List Item} {ks : List Nat} {i j : Nat}
    {cs cs' : List Capture} (h : Matches s is ks i cs j cs') (hi : i ≤ s.size) (hp : Placed i cs) :
    i ≤ j ∧ j ≤ s.size ∧ Placed j cs' := by
  induction h with
  | done => exact ⟨Nat.le_refl _, hi, hp⟩
  | element _ hst _ ih =>
    obtain ⟨h1, h2, h3⟩ := ih (hst.le_size hi) (hp.mono (Nat.le_add_right _ _))
    exact ⟨by omega, h2, h3⟩
  | opening _ ih => exact ih hi (hp.append (fun _ => Extent.noConfusion))
  | position _ ih => exact ih hi (hp.append (fun _ => Extent.noConfusion))
  | closing ho _ ih => exact ih hi (hp.close ho)
  | ending _ ih => exact ih hi hp
  | balance _ hl _ ih =>
    obtain ⟨hlt, hle, _⟩ := hl
    obtain ⟨h1, h2, h3⟩ := ih hle (hp.mono (by omega))
    exact ⟨by omega, h2, h3⟩
  | frontier _ _ ih => exact ih hi hp
  | reference _ hle _ _ ih =>
    obtain ⟨h1, h2, h3⟩ := ih hle (hp.mono (Nat.le_add_right _ _))
    exact ⟨by omega, h2, h3⟩

/-- A match and its captures lie in the subject. -/
structure Match.Inside (s : Bytes) (m : Match) : Prop where
  start_le : m.start ≤ m.stop
  stop_le : m.stop ≤ s.size
  spans : ∀ a b, .span a b ∈ m.captures → a ≤ b ∧ b ≤ s.size

theorem finish_span {c : Capture} {a b : Nat} (h : c.finish = .ok (.span a b)) :
    ∃ n, c = ⟨a, .closed n⟩ ∧ b = a + n := by
  obtain ⟨st, x⟩ := c
  cases x with
  | closed n =>
    cases h
    exact ⟨n, rfl, rfl⟩
  | position => cases h
  | unfinished => cases h

theorem mem_of_mapM_finish {cs : List Capture} {ds : List Captured} {d : Captured}
    (h : cs.mapM Capture.finish = .ok ds) (hd : d ∈ ds) : ∃ c ∈ cs, c.finish = .ok d := by
  induction cs generalizing ds with
  | nil =>
    cases h
    cases hd
  | cons c cs ih =>
    rw [List.mapM_cons] at h
    cases hc : c.finish with
    | error e =>
      rw [hc] at h
      cases h
    | ok d' =>
      cases hcs : cs.mapM Capture.finish with
      | error e =>
        rw [hc, hcs] at h
        cases h
      | ok ds' =>
        rw [hc, hcs] at h
        cases h
        rcases List.mem_cons.mp hd with rfl | hd
        · exact ⟨c, List.mem_cons_self, hc⟩
        · obtain ⟨c', hmem, hf⟩ := ih hcs hd
          exact ⟨c', List.mem_cons_of_mem c hmem, hf⟩

theorem Match.IsFirst.inside {s : Bytes} {is : List Item} {m : Match} (h : m.IsFirst s is)
    (hi : m.start ≤ s.size) : m.Inside s := by
  obtain ⟨ks, cs, hfirst, hcs⟩ := h
  obtain ⟨hle, hstop, hp⟩ := hfirst.1.inside hi (Placed.nil _)
  refine ⟨hle, hstop, fun a b hmem => ?_⟩
  obtain ⟨c, hc, hf⟩ := mem_of_mapM_finish hcs hmem
  obtain ⟨n, rfl, rfl⟩ := finish_span hf
  have hend : a + n ≤ m.stop := (hp _ hc).2 n rfl
  exact ⟨Nat.le_add_right a n, Nat.le_trans hend hstop⟩

namespace Bytewise

variable {s : Bytes} {t : Trail} {m : Match}

theorem mapM_eq_some {α β : Type} {f : α → Option β} {g : α → β} {l : List α}
    (h : ∀ x ∈ l, f x = some (g x)) : l.mapM f = some (l.map g) := by
  induction l with
  | nil => rfl
  | cons x l ih =>
    rw [List.mapM_cons, h x List.mem_cons_self, ih (fun y hy => h y (List.mem_cons_of_mem x hy))]
    rfl

theorem extract?_eq (ht : t.Sized) : extract? t = some t.captured := by
  have hslots : (List.range t.level).map t.slot = t.captures := by
    apply List.ext_getElem?
    intro n
    rw [List.getElem?_map]
    by_cases hn : n < t.level
    · rw [List.getElem?_range hn, Trail.getElem?_captures ht hn]
      rfl
    · rw [List.getElem?_eq_none (by simpa using Nat.le_of_not_lt hn),
        List.getElem?_eq_none (by rw [Trail.length_captures ht]; omega)]
      rfl
  unfold extract?
  rw [mapM_eq_some (g := t.slot), hslots]
  · rfl
  intro n hn
  have hn : n < t.level := List.mem_range.mp hn
  rw [if_pos (Nat.lt_of_lt_of_le hn ht.level)]
  exact (slot_in_range ht hn).2

theorem slice?_match (h : m.Inside s) : slice? s m.start m.stop = some (m.whole s) :=
  slice?_of_le h.start_le h.stop_le

theorem values?_eq (h : m.Inside s) : values? s m = some (m.values s) := by
  unfold values? Match.values
  split
  · rw [slice?_match h]
    rfl
  · apply mapM_eq_some
    intro c hc
    cases c with
    | position n => rfl
    | span a b =>
      obtain ⟨hab, hb⟩ := h.spans a b hc
      show (slice? s a b).bind _ = _
      rw [slice?_of_le hab hb]
      rfl

theorem text?_eq (h : m.Inside s) {n : Nat} {c : Captured} (hc : m.capture? n = some c) :
    text? s c = some (c.text s) := by
  cases c with
  | position n => rfl
  | span a b =>
    unfold Match.capture? at hc
    split at hc
    · cases hc
      exact slice?_match h
    · obtain ⟨hab, hb⟩ := h.spans a b (List.mem_of_getElem? hc)
      exact slice?_of_le hab hb

theorem expandEscape?_eq (h : m.Inside s) (d : UInt8) :
    expandEscape? s m d = some (Template.expandEscape s m d) := by
  unfold expandEscape? Template.expandEscape
  by_cases hp : d = 0x25
  · simp [hp]
  by_cases h0 : d = 0x30
  · simp [h0, slice?_match h]
  by_cases hd : Bytes.isDigit d = true
  · have hdigit : 0x30 < d.toNat := by
      have hne : d.toNat ≠ 0x30 := fun e => h0 (UInt8.toNat_inj.mp e)
      exact Nat.lt_of_le_of_ne (Bytes.le_toNat_of_isDigit hd) (Ne.symm hne)
    simp only [if_neg hp, if_neg h0, if_pos hd, beq_iff_eq, Option.bind_eq_bind,
      minus?_of_le (Nat.le_of_lt hdigit), minus?_of_le (show 1 ≤ d.toNat - 0x30 by omega),
      Option.bind_some]
    cases hc : m.capture? (d.toNat - 0x30 - 1) with
    | none => rfl
    | some c =>
      show (text? s c).bind _ = _
      rw [text?_eq h hc]
      rfl
  · simp [hp, h0, hd]

theorem expandList?_eq (h : m.Inside s) (bs : List UInt8) :
    expandList? s m bs = some (Template.expandList s m bs) := by
  fun_induction Template.expandList s m bs with
  | case1 => rfl
  | case2 => rfl
  | case3 d rest ih =>
    show (expandEscape? s m d).bind _ = _
    rw [expandEscape?_eq h]
    cases Template.expandEscape s m d with
    | error e => rfl
    | ok piece =>
      show (expandList? s m rest).bind _ = _
      rw [ih]
      cases Template.expandList s m rest <;> rfl
  | case4 b rest hlone hesc ih =>
    rw [expandList?, ih]
    · cases Template.expandList s m rest <;> rfl
    · exact hlone
    · exact hesc

theorem expand?_eq (h : m.Inside s) (template : Bytes) :
    expand? template s m = some (Template.expand template s m) := by
  unfold expand?
  rw [expandList?_eq h]
  rfl

/-! ## checked patterns -/

variable {p : Bytes} {vs : List Nat} {i : Nat}

def SameEnd (p : Bytes) (vs : List Nat) (i : Nat) : Prop :=
  ∃ e ∈ vs, checkSet p i = .ok e ∧ elementEnd? p i = some e

theorem sameEnd_of_set (h : visits p 0 = .ok vs) (hi : i ∈ vs) (hb : p[i]? = some 0x5b) :
    SameEnd p vs i := by
  obtain ⟨e, he, hmem⟩ := token_of_mem_visits h hi hb
  exact ⟨e, hmem, he, elementEnd?_of_checkSet hb he⟩

theorem sameEnd_of_frontier (h : visits p 0 = .ok vs) (hi : i ∈ vs) (hb : p[i]? = some 0x25)
    (hf : p[i + 1]? = some 0x66) : SameEnd p vs (i + 2) := by
  obtain ⟨e, he, hmem⟩ := token_of_mem_visits h hi hb
  unfold checkToken at he
  rw [if_pos rfl, hf] at he
  change (if p[i + 2]? = some 0x5b then checkSet p (i + 2) else _) = _ at he
  split at he
  · rename_i hset
    exact ⟨e, hmem, he, elementEnd?_of_checkSet hset he⟩
  · cases he

theorem visits_of_anchor {bs : List UInt8} (h : visits p 0 = .ok vs) (hp : p.toList = 0x5e :: bs) :
    ∃ vs', visits p 1 = .ok vs' ∧ ∀ v ∈ vs', v ∈ vs := by
  have hrest : Rest p 0 (0x5e :: bs) := hp ▸ Rest.zero p
  obtain ⟨vs', hv, rfl⟩ := visits_of_map ((visits_of_token hrest rfl).symm.trans h)
  exact ⟨vs', hv, fun v hmem => List.mem_cons_of_mem 0 hmem⟩

theorem readAll_of_visits {pp : Nat} {bs : List UInt8} (hbs : Rest p pp bs)
    (h : visits p pp = .ok vs) : ∃ is, Item.readAll bs = .ok is := by
  have he := visits_eq_readAll hbs
  rw [h] at he
  cases hr : Item.readAll bs with
  | error e =>
    rw [hr] at he
    cases he
  | ok is => exact ⟨is, rfl⟩

end Bytewise

namespace Pattern

open Bytewise

/-- Where a match of a pattern begins: at its first byte, or after its anchor. -/
def BeginsAt (p : Bytes) (pp : Nat) (is : List Item) : Prop :=
  pp = 0 ∧ Item.readAll p.toList = .ok is ∨ pp = 1 ∧ isAnchored p = true ∧ items p = .ok is

theorem toList_of_isAnchored {p : Bytes} (h : isAnchored p = true) :
    ∃ bs, p.toList = 0x5e :: bs ∧ items p = Item.readAll bs := by
  have hhead : p.toList.head? = some 0x5e := by
    rw [List.head?_eq_getElem?, Array.getElem?_toList]
    exact beq_iff_eq.mp h
  obtain ⟨bs, hbs⟩ := List.head?_eq_some_iff.mp hhead
  refine ⟨bs, hbs, ?_⟩
  unfold items
  rw [if_pos h, hbs]
  rfl

/-- What the matcher on bytes begins with, for a pattern that passes the check. -/
theorem BeginsAt.visits {p : Bytes} {vs : List Nat} {pp : Nat} {is : List Item}
    (h : Bytewise.visits p 0 = .ok vs) (hb : BeginsAt p pp is) :
    ∃ bs vs', Rest p pp bs ∧ Item.readAll bs = .ok is ∧ Bytewise.visits p pp = .ok vs' ∧
      ∀ v ∈ vs', v ∈ vs := by
  rcases hb with ⟨rfl, hread⟩ | ⟨rfl, hanchor, hitems⟩
  · exact ⟨p.toList, vs, Rest.zero p, hread, h, fun v hv => hv⟩
  · obtain ⟨bs, hbs, he⟩ := toList_of_isAnchored hanchor
    obtain ⟨vs', hv', hsub⟩ := visits_of_anchor h hbs
    have hrest : Rest p 0 (0x5e :: bs) := hbs ▸ Rest.zero p
    exact ⟨bs, vs', hrest.tail, he ▸ hitems, hv', hsub⟩

/-- The check accepts what the reader accepts.  For a pattern that passes it, the two scans of every
set agree, and matching on bytes, with the cursor held to the places that the check has visited, never
goes out of range: neither in an attempt from any place with any trail, nor when the captures of
its match are taken out, made into values or put into a template. -/
theorem matching_in_range (p : Bytes) :
    (Bytewise.visits p 0).map (fun _ => ()) = (Item.readAll p.toList).map (fun _ => ()) ∧
    ∀ vs, Bytewise.visits p 0 = .ok vs →
      (∀ i ∈ vs, (p[i]? = some 0x5b → SameEnd p vs i) ∧
        (p[i]? = some 0x25 → p[i + 1]? = some 0x66 → SameEnd p vs (i + 2))) ∧
      (∃ is, BeginsAt p 0 is) ∧ (isAnchored p = true → ∃ is, BeginsAt p 1 is) ∧
      ∀ pp is, BeginsAt p pp is → ∀ s i t, i ≤ s.size → t.slots.size = Trail.maxCaptures →
        attempt? (fun v => vs.contains v) s p pp i t = some (attempt s is i t) ∧
        ∀ j u, attempt s is i t = .matched j u → extract? u = some u.captured ∧
          ∀ cs, u.captured = .ok cs →
            values? s ⟨i, j, cs⟩ = some (Match.values s ⟨i, j, cs⟩) ∧
            ∀ template, expand? template s ⟨i, j, cs⟩ =
              some (Template.expand template s ⟨i, j, cs⟩) := by
  refine ⟨visits_eq_readAll (Rest.zero p), fun vs h => ⟨fun i hi => ?_, ?_, ?_, ?_⟩⟩
  · exact ⟨sameEnd_of_set h hi, sameEnd_of_frontier h hi⟩
  · obtain ⟨is, his⟩ := readAll_of_visits (Rest.zero p) h
    exact ⟨is, .inl ⟨rfl, his⟩⟩
  · intro hanchor
    obtain ⟨bs, hbs, he⟩ := toList_of_isAnchored hanchor
    obtain ⟨vs', hv', _⟩ := visits_of_anchor h hbs
    have hrest : Rest p 0 (0x5e :: bs) := hbs ▸ Rest.zero p
    obtain ⟨is, his⟩ := readAll_of_visits hrest.tail hv'
    exact ⟨is, .inr ⟨rfl, hanchor, he.trans his⟩⟩
  · intro pp is hb s i t hi ht
    obtain ⟨bs, vs', hbs, hread, hv', hsub⟩ := hb.visits h
    have hend := Item.endsLast_readAll hread
    constructor
    · exact attempt?_eq hbs hread hv'
        (fun v hv => List.contains_iff_mem.mpr (hsub v hv)) hi ht
    · intro j u hu
      have ha := attempt_answers hend hi ht
      rw [hu] at ha
      refine ⟨extract?_eq ha.1, fun cs hcs => ?_⟩
      obtain ⟨_, ks, hfirst⟩ := attempt_matched hend hi ht hu
      have hin : Match.Inside s ⟨i, j, cs⟩ := Match.IsFirst.inside ⟨ks, _, hfirst, hcs⟩ hi
      exact ⟨values?_eq hin, expand?_eq hin⟩

/-- The pattern `^([]x-z]+)%1` on `]y]y`: a set that begins with its bracket, a range and a
reference. -/
theorem matching_in_range_of_bracket_member :
    let p : Bytes := #[0x5e, 0x28, 0x5b, 0x5d, 0x78, 0x2d, 0x7a, 0x5d, 0x2b, 0x29, 0x25, 0x31]
    let s : Bytes := #[0x5d, 0x79, 0x5d, 0x79]
    let vs := [0, 1, 2, 8, 9, 10, 12]
    Bytewise.visits p 0 = .ok vs ∧ SameEnd p vs 2 ∧
      attempt? (fun v => vs.contains v) s p 1 0 Trail.empty =
        some (.matched 4 (Trail.empty.push ⟨0, .closed 2⟩)) := by
  intro p s vs
  have hv : Bytewise.visits p 0 = .ok vs := by decide +kernel
  have hitems : items p = .ok [.opening, .element (.set ⟨false, [.byte 0x5d, .range 0x78 0x7a]⟩)
      .oneOrMore, .closing, .reference 1] := by
    decide +kernel
  obtain ⟨hsets, _, _, hattempt⟩ := (matching_in_range p).2 vs hv
  have ha := (hattempt 1 _ (.inr ⟨rfl, rfl, hitems⟩) s 0 Trail.empty (Nat.zero_le _) rfl).1
  refine ⟨hv, (hsets 2 (by decide)).1 rfl, ha.trans (congrArg some ?_)⟩
  decide +kernel

end Pattern

end LuaMachine
