import LuaMachine.Proofs.Matcher
import LuaMachine.Pattern.Search

/-!
# Patterns as they are read

What the reader of patterns hands to the matcher.  Facts about a pattern are proved by induction on
its items: `readAll_eq_cons_iff` takes one item off both the items and the text.

* `endsLast_readAll`   only the last item asks for the end of the subject;
* `readAll_plain`      a pattern without special bytes is read byte by byte;
* `matches_plain_iff`  such a pattern matches where its text stands.
-/

namespace LuaMachine

namespace Item

theorem readAll_nil : readAll [] = .ok [] := by
  rw [readAll]

theorem readAll_cons_ok_iff {b : UInt8} {bs : List UInt8} {is : List Item} :
    readAll (b :: bs) = .ok is ↔
      ∃ item rest is', read b bs = .ok (item, rest) ∧ readAll rest = .ok is' ∧
        is = item :: is' := by
  rw [readAll]
  constructor
  · intro h
    split at h
    · cases h
    · rename_i item rest hr
      dsimp only at h
      split at h
      · cases h
      · rename_i is' his'
        cases h
        exact ⟨item, rest, is', hr, his', rfl⟩
  · rintro ⟨item, rest, is', hr, his', rfl⟩
    split
    · rename_i e he
      cases hr.symm.trans he
    · rename_i item' rest' he
      cases hr.symm.trans he
      dsimp only
      rw [his']

theorem readAll_eq_nil_iff {bs : List UInt8} : readAll bs = .ok [] ↔ bs = [] := by
  constructor
  · intro h
    cases bs with
    | nil => rfl
    | cons b bs =>
      obtain ⟨_, _, _, _, _, e⟩ := readAll_cons_ok_iff.mp h
      cases e
  · rintro rfl
    exact readAll_nil

theorem readAll_eq_cons_iff {bs : List UInt8} {item : Item} {is : List Item} :
    readAll bs = .ok (item :: is) ↔
      ∃ b bs' rest, bs = b :: bs' ∧ read b bs' = .ok (item, rest) ∧ readAll rest = .ok is := by
  constructor
  · intro h
    cases bs with
    | nil => cases readAll_nil.symm.trans h
    | cons b bs =>
      obtain ⟨_, rest, _, hr, his, e⟩ := readAll_cons_ok_iff.mp h
      cases e
      exact ⟨b, bs, rest, rfl, hr, his⟩
  · rintro ⟨b, bs', rest, rfl, hr, his⟩
    exact readAll_cons_ok_iff.mpr ⟨item, rest, is, hr, his, rfl⟩

/-! ## the end of the subject -/

theorem ofElement_ne_ending {e : Element} {bs rest : List UInt8} :
    ofElement e bs ≠ (.ending, rest) := nofun

theorem rest_of_read_ending {b : UInt8} {bs rest : List UInt8}
    (h : read b bs = .ok (.ending, rest)) : rest = [] := by
  unfold read readEscape at h
  grind [ofElement_ne_ending]

theorem endsLast_readAll {bs : List UInt8} {is : List Item} (h : readAll bs = .ok is) :
    EndsLast is := by
  induction is generalizing bs with
  | nil => exact fun rest hr => absurd (List.suffix_nil.mp hr) (List.cons_ne_nil _ _)
  | cons item is ih =>
    obtain ⟨b, bs', rest, rfl, hr, his⟩ := readAll_eq_cons_iff.mp h
    intro r hs
    rcases List.suffix_cons_iff.mp hs with e | hs
    · cases e
      obtain rfl := rest_of_read_ending hr
      cases readAll_nil.symm.trans his
      rfl
    · exact ih his r hs

/-! ## plain patterns -/

def plain (bs : List UInt8) : List Item := bs.map fun b => .element (.byte b) .once

theorem endsLast_of_not_mem {is : List Item} (h : Item.ending ∉ is) : EndsLast is :=
  fun _ hs => absurd (hs.mem List.mem_cons_self) h

theorem repetition_plain {bs : List UInt8} (h : ∀ b ∈ bs, Pattern.isSpecial b = false) :
    repetition bs = (.once, bs) := by
  cases bs with
  | nil => rfl
  | cons b bs =>
    have hb := h b List.mem_cons_self
    unfold repetition
    split
    case h_5 => rfl
    all_goals
      rename_i e
      cases e
      exact absurd hb (by decide)

theorem read_plain {b : UInt8} {bs : List UInt8} (hb : Pattern.isSpecial b = false)
    (h : ∀ b ∈ bs, Pattern.isSpecial b = false) :
    read b bs = .ok (.element (.byte b) .once, bs) := by
  unfold Pattern.isSpecial at hb
  simp only [Bool.or_eq_false_iff] at hb
  unfold read ofElement
  simp [hb, repetition_plain h]

theorem readAll_plain {bs : List UInt8} (h : ∀ b ∈ bs, Pattern.isSpecial b = false) :
    readAll bs = .ok (plain bs) := by
  induction bs with
  | nil => exact readAll_nil
  | cons b bs ih =>
    have hbs : ∀ b' ∈ bs, Pattern.isSpecial b' = false :=
      fun b' hb' => h b' (List.mem_cons_of_mem b hb')
    exact readAll_eq_cons_iff.mpr
      ⟨b, bs, bs, rfl, read_plain (h b List.mem_cons_self) hbs, ih hbs⟩

end Item

theorem matches_plain_iff {s : Bytes} {bs : List UInt8} {ks : List Nat} {i j : Nat}
    {cs cs' : List Capture} (hi : i ≤ s.size) :
    Matches s (Item.plain bs) ks i cs j cs' ↔
      (i + bs.length ≤ s.size ∧ (s.slice i (i + bs.length)).toList = bs) ∧
        ks = List.replicate bs.length 1 ∧ j = i + bs.length ∧ cs' = cs := by
  induction bs generalizing ks i with
  | nil =>
    rw [show Item.plain [] = [] from rfl, Matches.nil_iff, List.length_nil, Nat.add_zero,
      Bytes.toList_slice_self]
    simp [hi]
  | cons b bs ih =>
    rw [show Item.plain (b :: bs) = .element (.byte b) .once :: Item.plain bs from rfl,
      Matches.element_iff, List.length_cons, show i + (bs.length + 1) = i + 1 + bs.length by omega,
      List.replicate_succ]
    constructor
    · rintro ⟨k, ks', rfl, ⟨rfl, hst⟩, hm⟩
      obtain ⟨b', hb', he⟩ := Subject.at?_eq_true_iff.mp (Subject.stretch_succ_iff.mp hst).1
      obtain ⟨hlt, rfl⟩ := Array.getElem?_eq_some_iff.mp hb'
      obtain ⟨⟨hle, ht⟩, rfl, rfl, rfl⟩ := (ih hlt).mp hm
      have he : s[i] = b := beq_iff_eq.mp he
      refine ⟨⟨hle, ?_⟩, rfl, rfl, rfl⟩
      rw [Bytes.toList_slice_cons (by omega) hlt, ht, he]
    · rintro ⟨⟨hle, ht⟩, rfl, rfl, rfl⟩
      have hlt : i < s.size := by omega
      rw [Bytes.toList_slice_cons (by omega) hlt, List.cons_eq_cons] at ht
      have hat : Subject.at? s (Element.byte b).test i = true :=
        Subject.at?_eq_true_iff.mpr ⟨s[i], Array.getElem?_eq_getElem hlt, beq_iff_eq.mpr ht.1⟩
      exact ⟨1, _, rfl, ⟨rfl, Subject.stretch_succ_iff.mpr ⟨hat, Subject.stretch_zero⟩⟩,
        (ih hlt).mpr ⟨⟨hle, ht.2⟩, rfl, rfl, rfl⟩⟩

theorem Pattern.standsAt_iff {s p : Bytes} {i : Nat} :
    standsAt s p i = true ↔ i + p.size ≤ s.size ∧ (s.slice i (i + p.size)).toList = p.toList := by
  unfold standsAt
  rw [Bool.and_eq_true, decide_eq_true_eq]
  have hp : p.slice 0 (0 + p.size) = p := by
    unfold Bytes.slice
    simp
  constructor
  · rintro ⟨hle, h⟩
    have h := (Bytes.agree_iff hle (by omega)).mp h
    rw [hp] at h
    exact ⟨hle, congrArg Array.toList h⟩
  · rintro ⟨hle, h⟩
    refine ⟨hle, (Bytes.agree_iff hle (by omega)).mpr ?_⟩
    rw [hp]
    exact Array.toList_inj.mp h

end LuaMachine
