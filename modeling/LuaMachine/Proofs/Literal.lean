import LuaMachine.Proofs.Rebuilding

/-!
# Searching for a text as it stands

A pattern without special bytes is searched as a text, and a text with special bytes can be made a
pattern by quoting them.  In both cases the matcher compares bytes: the items of the pattern spell the
text, there are no captures, and no fault is raised.

* `standsAt_iff_begins`     what it means that a text stands at a place;
* `plain_search_agrees`     the search for a plain pattern is what the matcher would find;
* `quote`, `escape`         a text as a pattern, and as a template;
* `Replaced`                the occurrences of a text replaced from left to right;
* `quoted_text_replaced`    searching for a quoted text, and replacing it.
-/

namespace LuaMachine

namespace Pattern

variable {s p q : Bytes} {is : List Item} {i j : Nat} {t : Trail}

/-- A text stands at a place if the rest of the subject begins with it. -/
theorem standsAt_iff_begins (hi : i ≤ s.size) :
    standsAt s q i = true ↔ q.toList <+: s.toList.drop i := by
  rw [standsAt_iff, Bytes.toList_slice, Nat.add_sub_cancel_left, List.prefix_iff_eq_take,
    Array.length_toList]
  constructor
  · rintro ⟨_, h⟩
    exact h.symm
  · intro h
    refine ⟨?_, h.symm⟩
    have hlen := congrArg List.length h
    rw [List.length_take, List.length_drop, Array.length_toList, Array.length_toList] at hlen
    omega

theorem findPlain_spec (s q : Bytes) {init : Nat} (hi : init ≤ s.size) :
    Leftmost (fun i => q.toList <+: s.toList.drop i) init s.size (findPlain s q init) := by
  have hl := firstPlace_spec s q init (s.size - init)
  rw [Nat.add_sub_cancel' hi] at hl
  rw [show findPlain s q init = firstPlace s q init (s.size - init) from
    if_neg (Nat.not_lt_of_le hi)]
  exact hl.congr fun i _ h => standsAt_iff_begins h

/-- Where the items of a pattern spell a text, the matcher searches for the text. -/
theorem Spells.findMatch (h : Spells is q) (hread : items p = .ok is)
    (hanchor : isAnchored p = false) {init : Nat} (hi : init ≤ s.size) :
    findMatch s p init = .ok ((findPlain s q init).map fun i => ⟨i, i + q.size, []⟩) := by
  unfold Pattern.findMatch findPlain
  rw [hread, hanchor, if_neg (Nat.not_lt_of_le hi)]
  exact h.firstMatch (s.size - init) init Trail.empty (by omega) rfl

theorem Spells.no_fault (h : Spells is q) (hi : i ≤ s.size)
    (ht : t.slots.size = Trail.maxCaptures) (e : PatternError) : attempt s is i t ≠ .fault e := by
  rw [h s i t hi ht]
  split <;> exact nofun

/-! ## plain patterns -/

theorem isAnchored_of_isPlain (h : isPlain p = true) : isAnchored p = false := by
  rw [Bool.eq_false_iff]
  intro ha
  have hmem : 0x5e ∈ p.toList := by
    rw [Array.mem_toList_iff]
    exact Array.mem_of_getElem? (beq_iff_eq.mp ha)
  exact absurd (not_special_of_isPlain h _ hmem) (by decide)

theorem items_of_isPlain (h : isPlain p = true) : items p = .ok (Item.plain p.toList) := by
  rw [items_of_not_anchored (isAnchored_of_isPlain h)]
  exact Item.readAll_plain (not_special_of_isPlain h)

end Pattern

namespace Library.Text

def foundValues (s : Bytes) : Option Match → List Value
  | some m => Value.count (m.start + 1) :: Value.count m.stop :: m.captures.map (·.value s)
  | none => [.nil]

theorem find_of_isPlain {vs : List Value} {s p : Bytes} {init : Nat}
    (h : search vs "find" = .ok (s, p, some init)) (hp : Pattern.isPlain p = true) :
    find vs = .ok (foundValues s
      ((Pattern.findPlain s p init).map fun i => ⟨i, i + p.size, []⟩)) := by
  unfold find
  rw [h]
  dsimp only [bind, Except.bind]
  rw [hp, Bool.or_true, if_pos rfl]
  cases Pattern.findPlain s p init <;> rfl

theorem init_le_of_search {vs : List Value} {s p : Bytes} {init : Nat}
    (h : search vs "find" = .ok (s, p, some init)) : init ≤ s.size := by
  unfold search at h
  cases hs : Arguments.bytes vs 1 "find" with
  | error e => rw [hs] at h; cases h
  | ok s' =>
    cases hp : Arguments.bytes vs 2 "find" with
    | error e => rw [hs, hp] at h; cases h
    | ok p' =>
      cases hn : Arguments.integerOr vs 3 "find" 1 with
      | error e => rw [hs, hp, hn] at h; cases h
      | ok n =>
        rw [hs, hp, hn] at h
        obtain ⟨rfl, hrest⟩ := Prod.mk.inj (Except.ok.inj h)
        have hinit := (Prod.mk.inj hrest).2
        split at hinit
        · cases hinit
          omega
        · cases hinit

end Library.Text

namespace Pattern

/-- **The two ways of searching agree.**  For a pattern without special bytes, the search for the
text finds its leftmost occurrence, and the matcher, tried at one place after the other, finds exactly
that, with its end and without captures; it raises no fault, however long the pattern is.  So the
library function gives for such a pattern what it would make of the matcher's answer. -/
theorem plain_search_agrees (s p : Bytes) (hp : isPlain p = true) :
    (∀ init, init ≤ s.size →
      Leftmost (fun i => p.toList <+: s.toList.drop i) init s.size (findPlain s p init) ∧
      find s p init = .ok ((findPlain s p init).map fun i => ⟨i, i + p.size, []⟩) ∧
      findMatch s p init = .ok ((findPlain s p init).map fun i => ⟨i, i + p.size, []⟩)) ∧
    (isAnchored p = false ∧ ∃ is, items p = .ok is ∧ ∀ i t e, i ≤ s.size →
      t.slots.size = Trail.maxCaptures → attempt s is i t ≠ .fault e) ∧
    ∀ vs init, Library.Text.search vs "find" = .ok (s, p, some init) →
      Library.Text.find vs = (Library.Text.pattern (findMatch s p init)).map
        (Library.Text.foundValues s) := by
  have hanchor := isAnchored_of_isPlain hp
  have hread := items_of_isPlain hp
  have hmatch := fun init (hi : init ≤ s.size) => (spells_plain p).findMatch hread hanchor hi
  refine ⟨fun init hi => ⟨findPlain_spec s p hi, ?_, hmatch init hi⟩,
    ⟨hanchor, _, hread, fun i t e hi ht => (spells_plain p).no_fault hi ht e⟩, fun vs init h => ?_⟩
  · rw [find_eq_findMatch hanchor hi, hmatch init hi]
  · rw [Library.Text.find_of_isPlain h hp, hmatch init (Library.Text.init_le_of_search h)]
    rfl

/-- For a search from the third place of `aXbab`, given as the number three. -/
theorem plain_search_agrees_second_ab :
    let s : Bytes := #[0x61, 0x58, 0x62, 0x61, 0x62]
    let p : Bytes := #[0x61, 0x62]
    Leftmost (fun i => p.toList <+: s.toList.drop i) 2 5 (some 3) ∧
      findMatch s p 2 = .ok (some ⟨3, 5, []⟩) ∧
      Library.Text.find [.string s, .string p, .integer 3] = .ok [.integer 4, .integer 5] := by
  intro s p
  obtain ⟨hfind, _, hlib⟩ := plain_search_agrees s p (by decide +kernel)
  obtain ⟨hleft, _, hmatch⟩ := hfind 2 (by decide)
  rw [show findPlain s p 2 = some 3 by decide] at hleft hmatch
  refine ⟨hleft, hmatch, ?_⟩
  rw [hlib _ 2 rfl, hmatch]
  rfl

end Pattern

/-! ## quoting -/

def Pattern.quoteList (bs : List UInt8) : List UInt8 :=
  bs.flatMap fun b => if Bytes.isAlnum b then [b] else [0x25, b]

def Template.escapeList (bs : List UInt8) : List UInt8 :=
  bs.flatMap fun b => if b = 0x25 then [0x25, 0x25] else [b]

def Pattern.quote (q : Bytes) : Bytes := (quoteList q.toList).toArray

def Template.escape (r : Bytes) : Bytes := (escapeList r.toList).toArray

namespace Item

open Pattern (quoteList)

def quotedElement (b : UInt8) : Element := if Bytes.isAlnum b then .byte b else .escape ⟨b⟩

def quoted (bs : List UInt8) : List Item := bs.map fun b => .element (quotedElement b) .once

theorem quoteList_cons (b : UInt8) (bs : List UInt8) :
    quoteList (b :: bs) = (if Bytes.isAlnum b then [b] else [0x25, b]) ++ quoteList bs := rfl

theorem quoteList_ne_cons {b : UInt8} (hb : Bytes.isAlnum b = false) (hne : b ≠ 0x25)
    (bs rest : List UInt8) : quoteList bs ≠ b :: rest := by
  intro h
  cases bs with
  | nil => cases h
  | cons c bs =>
    rw [quoteList_cons] at h
    split at h
    · cases h
      exact absurd ‹_› (Bool.eq_false_iff.mp hb)
    · cases h
      exact hne rfl

theorem repetition_quoteList (bs : List UInt8) :
    repetition (quoteList bs) = (.once, quoteList bs) := by
  generalize hq : quoteList bs = qs
  unfold repetition
  split
  case h_5 => rfl
  all_goals exact absurd hq (quoteList_ne_cons (by decide) (by decide) _ _)

theorem beq_false_of_isAlnum {a b : UInt8} (ha : Bytes.isAlnum a = true)
    (hb : Bytes.isAlnum b = false) : (a == b) = false ∧ (b == a) = false := by
  have hne : a ≠ b := by
    rintro rfl
    cases ha.symm.trans hb
  exact ⟨beq_false_of_ne hne, beq_false_of_ne hne.symm⟩

theorem read_alnum {b : UInt8} (h : Bytes.isAlnum b = true) (bs : List UInt8) :
    read b (quoteList bs) = .ok (.element (.byte b) .once, quoteList bs) := by
  have hne := fun c (hc : Bytes.isAlnum c = false) => (beq_false_of_isAlnum h hc).1
  unfold read ofElement
  simp [repetition_quoteList, hne 0x25 (by decide), hne 0x5b (by decide), hne 0x28 (by decide),
    hne 0x29 (by decide), hne 0x24 (by decide), hne 0x2e (by decide)]

theorem isAlnum_false {b : UInt8} (h : Bytes.isAlnum b = false) :
    Bytes.isLower b = false ∧ Bytes.isUpper b = false ∧ Bytes.isDigit b = false := by
  unfold Bytes.isAlnum Bytes.isAlpha at h
  simpa [Bool.or_eq_false_iff, and_assoc] using h

theorem readEscape_other {b : UInt8} (h : Bytes.isAlnum b = false) (bs : List UInt8) :
    readEscape (b :: quoteList bs) = .ok (.element (.escape ⟨b⟩) .once, quoteList bs) := by
  have hne := fun c (hc : Bytes.isAlnum c = true) => (beq_false_of_isAlnum hc h).2
  unfold readEscape ofElement
  simp [repetition_quoteList, hne 0x62 (by decide), hne 0x66 (by decide), (isAlnum_false h).2.2]

theorem readAll_quoteList (bs : List UInt8) : readAll (quoteList bs) = .ok (quoted bs) := by
  induction bs with
  | nil => exact readAll_nil
  | cons b bs ih =>
    show readAll (quoteList (b :: bs)) = .ok (.element (quotedElement b) .once :: quoted bs)
    rw [quoteList_cons]
    refine readAll_eq_cons_iff.mpr ?_
    by_cases h : Bytes.isAlnum b = true
    · rw [if_pos h, show quotedElement b = .byte b from if_pos h]
      exact ⟨b, _, _, rfl, read_alnum h bs, ih⟩
    · rw [if_neg h, show quotedElement b = .escape ⟨b⟩ from if_neg h]
      exact ⟨0x25, _, _, rfl, readEscape_other (Bool.eq_false_iff.mpr h) bs, ih⟩

theorem classNamed?_other {b : UInt8} (h : Bytes.isAlnum b = false) :
    classNamed? (Bytes.toLower b) = none := by
  have hne := fun c (hc : Bytes.isAlnum c = true) => (beq_false_of_isAlnum hc h).2
  unfold Bytes.toLower classNamed?
  simp [(isAlnum_false h).2.1, hne 0x61 (by decide), hne 0x63 (by decide), hne 0x64 (by decide),
    hne 0x67 (by decide), hne 0x6c (by decide), hne 0x70 (by decide), hne 0x73 (by decide),
    hne 0x75 (by decide), hne 0x77 (by decide), hne 0x78 (by decide)]

theorem test_quotedElement (b : UInt8) : (quotedElement b).test = (Element.byte b).test := by
  unfold quotedElement
  split
  · rfl
  · rename_i h
    funext c
    show Escape.test ⟨b⟩ c = (c == b)
    unfold Escape.test
    rw [classNamed?_other (Bool.eq_false_iff.mpr h)]

theorem follow_quoted (s : Bytes) (bs : List UInt8) (depth : Nat) (t : Trail) : ∀ i,
    Attempt.follow s (quoted bs) depth i t = Attempt.follow s (plain bs) depth i t := by
  induction bs with
  | nil => exact fun _ => rfl
  | cons b bs ih =>
    intro i
    show Attempt.follow s (.element (quotedElement b) .once :: quoted bs) depth i t
      = Attempt.follow s (.element (.byte b) .once :: plain bs) depth i t
    rw [Attempt.follow, Attempt.follow, test_quotedElement, ih]

end Item

namespace Pattern

variable {s p q r : Bytes} {i j : Nat} {t : Trail} {last : Option Nat}

theorem spells_quoted (q : Bytes) : Spells (Item.quoted q.toList) q := by
  intro s i t hi ht
  rw [← spells_plain q s i t hi ht]
  exact Item.follow_quoted s q.toList 1 t.cleared i

theorem isAnchored_quote (q : Bytes) : isAnchored (quote q) = false := by
  rw [Bool.eq_false_iff]
  intro h
  have h : (quoteList q.toList)[0]? = some 0x5e := by
    rw [← List.getElem?_toArray]
    exact beq_iff_eq.mp h
  cases hq : quoteList q.toList with
  | nil =>
    rw [hq] at h
    cases h
  | cons b rest =>
    rw [hq] at h
    cases h
    exact Item.quoteList_ne_cons (by decide) (by decide) _ _ hq

theorem items_quote (q : Bytes) : items (quote q) = .ok (Item.quoted q.toList) := by
  rw [items_of_not_anchored (isAnchored_quote q)]
  exact Item.readAll_quoteList q.toList

/-! ## a text in a template -/

theorem expandList_escapeList (s : Bytes) (m : Match) (bs : List UInt8) :
    Template.expandList s m (Template.escapeList bs) = .ok bs := by
  induction bs with
  | nil => rfl
  | cons b bs ih =>
    by_cases h : b = 0x25
    · subst h
      show (do
        let piece ← Template.expandEscape s m 0x25
        return piece.toList ++ (← Template.expandList s m (Template.escapeList bs))) = _
      rw [ih]
      rfl
    · have he : Template.escapeList (b :: bs) = b :: Template.escapeList bs := by
        show (if b = 0x25 then [0x25, 0x25] else [b]) ++ Template.escapeList bs = _
        rw [if_neg h]
        rfl
      rw [he, Template.expandList, ih]
      · rfl
      · exact fun e => absurd e h
      · exact fun _ _ e => absurd e h

theorem expand_escape (s r : Bytes) (m : Match) :
    Template.expand (Template.escape r) s m = .ok r := by
  unfold Template.expand Template.escape
  rw [List.toList_toArray, expandList_escapeList]
  show Except.ok r.toList.toArray = _
  rw [Array.toArray_toList]

/-! ## replacing a text -/

/-- The occurrences of `q`, taken from left to right without overlap, are replaced by `r`; the number
of them is counted. -/
inductive Replaced (q r : List UInt8) : List UInt8 → List UInt8 → Nat → Prop
  | nil : Replaced q r [] [] 0
  | here {bs out : List UInt8} {n : Nat} :
      Replaced q r bs out n → Replaced q r (q ++ bs) (r ++ out) (n + 1)
  | pass {b : UInt8} {bs out : List UInt8} {n : Nat} :
      ¬ q <+: b :: bs → Replaced q r bs out n → Replaced q r (b :: bs) (b :: out) n

theorem Replaced.unique {q r bs out out' : List UInt8} {n n' : Nat} (hq : q ≠ [])
    (h : Replaced q r bs out n) (h' : Replaced q r bs out' n') : out' = out ∧ n' = n := by
  induction h generalizing out' n' with
  | nil =>
    generalize hb : ([] : List UInt8) = b at h'
    cases h' with
    | nil => exact ⟨rfl, rfl⟩
    | here => exact absurd (List.append_eq_nil_iff.mp hb.symm).1 hq
    | pass => cases hb
  | @here bs out n _ ih =>
    generalize hb : q ++ bs = b at h'
    cases h' with
    | nil => exact absurd (List.append_eq_nil_iff.mp hb).1 hq
    | here h' =>
      obtain ⟨rfl, rfl⟩ := ih (List.append_cancel_left hb ▸ h')
      exact ⟨rfl, rfl⟩
    | pass hno => exact absurd ⟨bs, hb⟩ hno
  | @pass b bs out n hno _ ih =>
    generalize hb : b :: bs = c at h' hno
    cases h' with
    | nil => cases hb
    | here => exact absurd (List.prefix_append _ _) hno
    | pass _ h' =>
      obtain ⟨rfl, rfl⟩ := List.cons.inj hb
      obtain ⟨rfl, rfl⟩ := ih h'
      exact ⟨rfl, rfl⟩

theorem Spells.round {is : List Item} (h : Spells is q) (hq : 0 < q.size) (hi : i ≤ s.size)
    (ht : t.slots.size = Trail.maxCaptures) (hlast : ∀ j, last = some j → j ≤ i) :
    round s is last i t
      = if standsAt s q i then .found (i + q.size) t.cleared [] else .pass t.cleared := by
  have hne : some (i + q.size) ≠ last := by
    intro e
    have := hlast _ e.symm
    omega
  unfold Pattern.round
  rw [h s i t hi ht]
  by_cases hs : standsAt s q i = true
  · simp only [if_pos hs, if_neg hne]
    rfl
  · simp only [if_neg hs]

/-- **A substitution whose items spell a text replaces its occurrences.**  Each round takes at least
one byte, since the text is not empty. -/
theorem Spells.replaced {is : List Item} (h : Spells is q) (hq : 0 < q.size) (r : Bytes)
    (fuel : Nat) : ∀ (t : Trail) (i : Nat) (last : Option Nat),
      t.slots.size = Trail.maxCaptures → i ≤ s.size → (∀ j, last = some j → j ≤ i) →
      s.size - i < fuel →
      ∃ ms, occurrencesFrom s is false fuel none t i last = (ms, none) ∧ (∀ m ∈ ms, i ≤ m.start) ∧
        Replaced q.toList r.toList (s.toList.drop i)
          ((pieces s i (ms.map fun m => (m, some r))).flatMap Array.toList) ms.length := by
  induction fuel with
  | zero =>
    intro t i last _ _ _ hf
    exact absurd hf (Nat.not_lt_zero _)
  | succ fuel ih =>
    intro t i last ht hi hlast hf
    rw [occurrencesFrom_succ (Option.some_ne_none 0).symm, h.round hq hi ht hlast]
    by_cases hs : standsAt s q i = true
    · -- the next round begins where the text ends, which is also where the last match ended
      obtain ⟨rest, hrest⟩ := (standsAt_iff_begins hi).mp hs
      have hj := (standsAt_iff.mp hs).1
      have hdrop : rest = s.toList.drop (i + q.size) := by
        rw [← List.drop_drop, ← hrest, ← Array.length_toList, List.drop_left]
      obtain ⟨ms, hms, hstart, hr⟩ := ih t.cleared (i + q.size) (some (i + q.size)) ht hj
        (fun j e => Nat.le_of_eq (Option.some.inj e).symm) (by omega)
      have hnext : occurrencesFrom s is false fuel (none.map (· - 1)) t.cleared (i + q.size)
          (some (i + q.size)) = (ms, none) := hms
      refine ⟨⟨i, i + q.size, []⟩ :: ms, ?_, fun m hm => ?_, ?_⟩
      · rw [if_pos hs]
        dsimp only [Round.followed]
        rw [hnext]
        rfl
      · rcases List.mem_cons.mp hm with rfl | hm
        · exact Nat.le_refl i
        · exact Nat.le_trans (Nat.le_add_right _ _) (hstart m hm)
      · rw [List.map_cons, pieces, List.flatMap_cons, List.flatMap_cons, Bytes.toList_slice_self,
          ← hrest, hdrop]
        exact .here hr
    · rw [if_neg hs]
      have hno := mt (standsAt_iff_begins hi).mpr hs
      dsimp only [Round.followed]
      by_cases hlt : i < s.size
      · obtain ⟨ms, hms, hstart, hr⟩ := ih t.cleared (i + 1) last ht hlt
          (fun j e => Nat.le_succ_of_le (hlast j e)) (by omega)
        refine ⟨ms, ?_, fun m hm => Nat.le_of_succ_le (hstart m hm), ?_⟩
        · rw [if_pos ⟨hlt, rfl⟩, hms]
        · have hlt' : i < s.toList.length := by rwa [Array.length_toList]
          rw [List.drop_eq_getElem_cons hlt'] at hno ⊢
          rw [pieces_pass hlt fun x hx => ?_]
          · exact .pass hno hr
          · obtain ⟨m, hm, rfl⟩ := List.mem_map.mp hx
            exact hstart m hm
      · obtain rfl : i = s.size := by omega
        refine ⟨[], if_neg fun h => hlt h.1, fun m hm => absurd hm List.not_mem_nil, ?_⟩
        rw [List.map_nil, pieces, List.flatMap_singleton, Bytes.toList_slice_self,
          List.drop_of_length_le (Nat.le_of_eq Array.length_toList)]
        exact .nil

/-- **A quoted text is searched and replaced as it stands.**  With every byte but letters and digits
quoted, a text that is not empty is found at its leftmost occurrence, and a substitution replaces its
occurrences from left to right by the text whose escape signs the template doubles, and counts
them.  There is no fault. -/
theorem quoted_text_replaced (s q r : Bytes) (hq : q ≠ #[]) :
    (∃ out n, (∀ out' n', Replaced q.toList r.toList s.toList out' n' ↔ out' = out ∧ n' = n) ∧
      Library.Text.gsub [.string s, .string (quote q), .string (Template.escape r)]
        = .done [.string out.toArray, .count n]) ∧
    ∀ init, init ≤ s.size → ∃ found,
      Leftmost (fun i => q.toList <+: s.toList.drop i) init s.size found ∧
      find s (quote q) init = .ok (found.map fun i => ⟨i, i + q.size, []⟩) := by
  constructor
  · have hsize : 0 < q.size := Nat.pos_of_ne_zero (mt Array.size_eq_zero_iff.mp hq)
    obtain ⟨ms, hms, _, hr⟩ := (spells_quoted q).replaced (s := s) hsize r (2 * (s.size + 1))
      Trail.empty 0 none rfl (Nat.zero_le _) nofun (by omega)
    have ho : occurrences s (quote q) none = (ms, none) := by
      rw [occurrences_eq (items_quote q), isAnchored_quote]
      exact hms
    rw [← toList_rebuild, ← zip_map_self] at hr
    refine ⟨_, _, fun out' n' => ⟨hr.unique fun e => hq (Array.toList_eq_nil_iff.mp e), ?_⟩, ?_⟩
    · rintro ⟨rfl, rfl⟩
      exact hr
    · have hvs : Library.Text.GsubArguments
          [.string s, .string (quote q), .string (Template.escape r)] s (quote q) none
          (.string (Template.escape r)) := ⟨rfl, rfl, rfl, rfl, List.mem_cons_self⟩
      rw [hvs.gsub_eq, Array.toArray_toList]
      exact Library.Text.substituting_done ho fun m =>
        Library.Text.replace_template (expand_escape s r m)
  · intro init hi
    refine ⟨_, findPlain_spec s q hi, ?_⟩
    rw [find_eq_findMatch (isAnchored_quote q) hi]
    exact (spells_quoted q).findMatch (items_quote q) (isAnchored_quote q) hi

/-- For `..` replaced by `%1` in `a...b`, where two occurrences overlap. -/
theorem quoted_text_replaced_dots :
    let s : Bytes := #[0x61, 0x2e, 0x2e, 0x2e, 0x62]
    let q : Bytes := #[0x2e, 0x2e]
    let r : Bytes := #[0x25, 0x31]
    q ≠ #[] ∧
      Library.Text.gsub [.string s, .string (quote q), .string (Template.escape r)]
        = .done [.string #[0x61, 0x25, 0x31, 0x2e, 0x62], .integer 1] ∧
      find s (quote q) 2 = .ok (some ⟨2, 4, []⟩) := by
  intro s q r
  have hq : q ≠ #[] := by decide
  obtain ⟨⟨out, n, hout, hgsub⟩, hfind⟩ := quoted_text_replaced s q r hq
  have hr : Replaced q.toList r.toList s.toList [0x61, 0x25, 0x31, 0x2e, 0x62] 1 :=
    .pass (by decide) (.here (.pass (by decide) (.pass (by decide) .nil)))
  obtain ⟨rfl, rfl⟩ := (hout _ _).mp hr
  obtain ⟨found, hleft, hfound⟩ := hfind 2 (by decide)
  obtain rfl := hleft.unique (.here (by decide) (by decide))
  exact ⟨hq, hgsub, hfound⟩

end Pattern

end LuaMachine
