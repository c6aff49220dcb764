import LuaMachine.Library.Text
import LuaMachine.Proofs.Iteration
import LuaMachine.Proofs.Performing

/-!
# A substitution rebuilds the subject around its matches

The matches that the rounds of a substitution meet lie in the subject one after the other, and the
text is made from what stands between them and what replaces them.

* `occurrencesFrom_cut`   a limit cuts the list of matches off;
* `Rebuilt`           the subject with each match replaced, as a relation between texts;
* `substitute_ok_iff`, `performs_substituting`   what a substitution gives;
* `substitution_rebuilds_subject`                all of it, also for the library function.
-/

namespace LuaMachine

namespace Pattern

variable {s p : Bytes} {is : List Item} {anchored : Bool} {fuel i j : Nat}
  {limit last : Option Nat} {t u : Trail} {e : PatternError} {cs : List Captured}
  {m : Match} {ms : List Match}

/-! ## the matches in order -/

theorem InOrder.pairwise (h : InOrder s is i last ms) :
    ms.Pairwise fun a b => a.stop ≤ b.start ∧ a.stop < b.stop := by
  induction ms generalizing i last with
  | nil => exact .nil
  | cons a ms ih =>
    obtain ⟨_, _, _, _, _, h6⟩ := h
    refine .cons (fun b hb => ?_) (ih h6)
    obtain ⟨h7, _, _, h10, _⟩ := h6.mem hb
    exact ⟨h7, h10 rfl⟩

/-! ## limits -/

/-- The first `k` matches; the fault that ends the matches is not met if there are as many. -/
def cut (k : Nat) (r : List Match × Option PatternError) : List Match × Option PatternError :=
  if r.1.length < k then r else (r.1.take k, none)

theorem cut_nil (k : Nat) (fault : Option PatternError) : cut (k + 1) ([], fault) = ([], fault) :=
  if_pos (Nat.succ_pos k)

theorem cut_cons (k : Nat) (m : Match) (r : List Match × Option PatternError) :
    cut (k + 1) (m :: r.1, r.2) = (m :: (cut k r).1, (cut k r).2) := by
  unfold cut
  simp only [List.length_cons, Nat.add_lt_add_iff_right, List.take_succ_cons]
  split <;> rfl

theorem cut_of_none {r : List Match × Option PatternError} (h : r.2 = none) (k : Nat) :
    cut k r = (r.1.take k, none) := by
  unfold cut
  split
  · rename_i hlt
    rw [List.take_of_length_le (Nat.le_of_lt hlt), ← h]
  · rfl

/-- **A limit cuts the matches off.**  Both substitutions take the same rounds. -/
theorem occurrencesFrom_cut (fuel : Nat) :
    ∀ (k : Nat) (t : Trail) (i : Nat) (last : Option Nat),
      occurrencesFrom s is anchored fuel (some k) t i last
        = cut k (occurrencesFrom s is anchored fuel none t i last) := by
  induction fuel with
  | zero =>
    intro k t i last
    show ([], none) = cut k ([], none)
    rw [cut_of_none rfl, List.take_nil]
  | succ fuel ih =>
    intro k t i last
    cases k with
    | zero => exact occurrencesFrom_full
    | succ k =>
      have hl : some (k + 1) ≠ some 0 := fun e => Nat.succ_ne_zero k (Option.some.inj e)
      rw [occurrencesFrom_succ hl, occurrencesFrom_succ (Option.some_ne_none 0).symm]
      cases round s is last i t with
      | fault e => exact (cut_nil k _).symm
      | pass u =>
        dsimp only [Round.followed]
        split
        · exact ih (k + 1) u (i + 1) last
        · exact (cut_nil k none).symm
      | found j u cs =>
        have hrest : occurrencesFrom s is anchored fuel ((some (k + 1)).map (· - 1)) u j (some j)
            = cut k (occurrencesFrom s is anchored fuel (none.map (· - 1)) u j (some j)) :=
          ih k u j (some j)
        dsimp only [Round.followed]
        split
        · rw [cut_of_none rfl, List.take_succ_cons, List.take_nil]
        · rw [cut_cons, hrest]

/-! ## all matches of a pattern -/

/-- What holds of the matches that a substitution replaces. -/
structure Spans (s p : Bytes) (limit : Option Nat) (ms : List Match) : Prop where
  inside : ∀ a ∈ ms, a.start ≤ a.stop ∧ a.stop ≤ s.size
  ordered : ms.Pairwise fun a b => a.stop ≤ b.start ∧ a.stop < b.stop
  atMost : ∀ k, limit = some k → ms.length ≤ k
  anchored : isAnchored p = true → ms.length ≤ 1 ∧ ∀ a ∈ ms, a.start = 0
  matched : ∀ is, items p = .ok is → ∀ a ∈ ms, a.IsFirst s is

theorem items_of_occurrences {ms : List Match} (h : occurrences s p limit = (ms, none)) :
    ∃ is, items p = .ok is := by
  unfold occurrences at h
  cases hread : items p with
  | error e =>
    rw [hread] at h
    cases h
  | ok is => exact ⟨is, rfl⟩

theorem inOrder_occurrences (hread : items p = .ok is) (limit : Option Nat) :
    InOrder s is 0 none (occurrences s p limit).1 := by
  rw [occurrences_eq hread]
  exact inOrder_occurrencesFrom (Item.endsLast_readAll hread) _ _ _ _ _ rfl (Nat.zero_le _)

theorem occurrences_some {ms : List Match} (h : occurrences s p none = (ms, none)) (k : Nat) :
    occurrences s p (some k) = (ms.take k, none) := by
  obtain ⟨is, hread⟩ := items_of_occurrences h
  rw [occurrences_eq hread] at h ⊢
  rw [occurrencesFrom_cut, h]
  exact cut_of_none rfl k

theorem length_occurrences_le (hread : items p = .ok is) (k : Nat) :
    (occurrences s p (some k)).1.length ≤ k := by
  rw [occurrences_eq hread, occurrencesFrom_cut]
  unfold cut
  split
  · exact Nat.le_of_lt ‹_›
  · rw [List.length_take]
    exact Nat.min_le_left _ _

theorem occurrencesFrom_anchored (fuel : Nat) (limit : Option Nat) (t : Trail) (i : Nat)
    (last : Option Nat) (is : List Item) :
    (occurrencesFrom s is true fuel limit t i last).1.length ≤ 1 ∧
      ∀ a ∈ (occurrencesFrom s is true fuel limit t i last).1, a.start = i := by
  cases fuel with
  | zero => exact ⟨Nat.zero_le _, nofun⟩
  | succ fuel =>
    by_cases hl : limit = some 0
    · rw [hl, occurrencesFrom_full]
      exact ⟨Nat.zero_le _, nofun⟩
    rw [occurrencesFrom_succ hl]
    cases round s is last i t with
    | fault e => exact ⟨Nat.zero_le _, nofun⟩
    | pass u =>
      rw [Round.followed, if_neg fun h => absurd h.2 nofun]
      exact ⟨Nat.zero_le _, nofun⟩
    | found j u cs =>
      refine ⟨Nat.le_refl 1, fun a ha => ?_⟩
      rw [List.mem_singleton.mp ha]

theorem spans_occurrences {ms : List Match} (h : occurrences s p limit = (ms, none)) :
    Spans s p limit ms := by
  obtain ⟨is, hread⟩ := items_of_occurrences h
  have ho : InOrder s is 0 none ms := by
    have ho := inOrder_occurrences (s := s) hread limit
    rwa [h] at ho
  refine ⟨fun a ha => ?_, ho.pairwise, ?_, fun hanchor => ?_, fun is' hread' a ha => ?_⟩
  · obtain ⟨_, h2, h3, _⟩ := ho.mem ha
    exact ⟨h2, h3⟩
  · rintro k rfl
    have hk := length_occurrences_le (s := s) hread k
    rwa [h] at hk
  · rw [occurrences_eq hread, hanchor] at h
    have hone := occurrencesFrom_anchored (s := s) (2 * (s.size + 1)) limit Trail.empty 0 none is
    rwa [h] at hone
  · cases hread.symm.trans hread'
    exact (ho.mem ha).2.2.2.2

/-! ## the text -/

/-- From an offset on, the bytes of the subject become others: the text of each match is replaced, or
kept where there is no replacement, and the bytes outside the matches stay. -/
inductive Rebuilt : Nat → List UInt8 → List (Match × Option Bytes) → List UInt8 → Prop
  | rest (i : Nat) (gap : List UInt8) : Rebuilt i gap [] gap
  | span {i : Nat} {gap text bs out : List UInt8} {m : Match} {r : Option Bytes}
      {rs : List (Match × Option Bytes)} :
      m.start = i + gap.length → m.stop = m.start + text.length → Rebuilt m.stop bs rs out →
      Rebuilt i (gap ++ (text ++ bs)) ((m, r) :: rs)
        (gap ++ ((r.map Array.toList).getD text ++ out))

section
variable {rs : List (Option Bytes)} {bs out out' : List UInt8} {xs : List (Match × Option Bytes)}

theorem Rebuilt.unique (h : Rebuilt i bs xs out) (h' : Rebuilt i bs xs out') : out' = out := by
  induction h generalizing out' with
  | rest i gap =>
    cases h'
    rfl
  | @span i gap text bs out m r rs h1 h2 _ ih =>
    generalize hb : gap ++ (text ++ bs) = b at h'
    cases h' with
    | @span _ gap' text' bs' out' _ _ _ h1' h2' h' =>
      -- the places of the match say where the bytes are split
      obtain ⟨hgap, hb⟩ := List.append_inj hb (by omega)
      obtain ⟨htext, hb⟩ := List.append_inj hb (by omega)
      rw [← hb] at h'
      rw [ih h', hgap, htext]

/-- Where every replacement is the text of its match, nothing changes. -/
theorem Rebuilt.kept (h : Rebuilt i bs xs out) (hbs : bs = s.toList.drop i)
    (hkeep : ∀ m r, (m, r) ∈ xs → r = none ∨ r = some (m.whole s)) : out = bs := by
  induction h with
  | rest i gap => rfl
  | @span i gap text bs out m r rs h1 h2 _ ih =>
    have hgap : text ++ bs = s.toList.drop m.start := by
      rw [h1, ← List.drop_drop, ← hbs, List.drop_left]
    have hrest : bs = s.toList.drop m.stop := by
      rw [h2, ← List.drop_drop, ← hgap, List.drop_left]
    have htext : (r.map Array.toList).getD text = text := by
      rcases hkeep m r List.mem_cons_self with rfl | rfl
      · rfl
      · show (s.slice m.start m.stop).toList = text
        rw [Bytes.toList_slice, ← hgap, h2, Nat.add_sub_cancel_left, List.take_left]
    rw [ih hrest fun m r hm => hkeep m r (List.mem_cons_of_mem _ hm), htext]

theorem toList_rebuild (s : Bytes) (xs : List (Match × Option Bytes)) :
    (rebuild s xs).toList = (pieces s 0 xs).flatMap Array.toList := toList_rebuildFrom

theorem rebuilt_pieces (h : InOrder s is i last ms) (hi : i ≤ s.size) (hlen : rs.length = ms.length) :
    Rebuilt i (s.toList.drop i) (ms.zip rs) ((pieces s i (ms.zip rs)).flatMap Array.toList) := by
  induction ms generalizing i last rs with
  | nil =>
    rw [List.zip_nil_left, pieces, List.flatMap_singleton, Bytes.toList_slice,
      List.take_of_length_le (Nat.le_of_eq (by rw [List.length_drop, Array.length_toList]))]
    exact .rest _ _
  | cons m ms ih =>
    obtain ⟨h1, h2, h3, _, _, h6⟩ := h
    cases rs with
    | nil => cases hlen
    | cons r rs =>
      have hrest := ih h6 h3 (Nat.succ.inj hlen)
      have htext : (r.getD (m.whole s)).toList
          = (r.map Array.toList).getD (s.slice m.start m.stop).toList := by cases r <;> rfl
      rw [List.zip_cons_cons, pieces, List.flatMap_cons, List.flatMap_cons, htext,
        s.drop_eq_slices h1 h2]
      refine .span ?_ ?_ hrest
      · rw [Bytes.length_slice s (Nat.le_trans h2 h3), Nat.add_sub_cancel' h1]
      · rw [Bytes.length_slice s h3, Nat.add_sub_cancel' h2]

/-- **The text that a substitution gives.** -/
theorem rebuilt_iff (h : occurrences s p limit = (ms, none)) (hlen : rs.length = ms.length)
    {out : Bytes} : Rebuilt 0 s.toList (ms.zip rs) out.toList ↔ rebuild s (ms.zip rs) = out := by
  obtain ⟨is, hread⟩ := items_of_occurrences h
  have ho := inOrder_occurrences (s := s) hread limit
  rw [h] at ho
  have hr : Rebuilt 0 s.toList (ms.zip rs) (rebuild s (ms.zip rs)).toList := by
    rw [toList_rebuild]
    exact rebuilt_pieces ho (Nat.zero_le _) hlen
  exact ⟨fun h' => Array.toList_inj.mp (h'.unique hr), fun e => e ▸ hr⟩

end

/-! ## replacing by a function of the match -/

section
variable {replace : Match → Except PatternError (Option Bytes)} {rs : List (Option Bytes)}

theorem mapM_ok_iff :
    ms.mapM replace = .ok rs ↔ List.Forall₂ (fun m r => replace m = .ok r) ms rs := by
  induction ms generalizing rs with
  | nil =>
    constructor
    · rintro ⟨⟩
      exact .nil
    · rintro ⟨⟩
      rfl
  | cons m ms ih =>
    rw [List.mapM_cons]
    constructor
    · intro h
      cases hm : replace m with
      | error e =>
        rw [hm] at h
        cases h
      | ok r =>
        cases hms : ms.mapM replace with
        | error e =>
          rw [hm, hms] at h
          cases h
        | ok rs' =>
          rw [hm, hms] at h
          cases h
          exact .cons hm (ih.mp hms)
    · rintro (_ | ⟨hm, hms⟩)
      rw [hm, ih.mpr hms]
      rfl

/-- **A substitution by a function of the match.** -/
theorem substitute_ok_iff {out : Bytes} : substitute s p limit replace = .ok (out, ms) ↔
    occurrences s p limit = (ms, none) ∧ ∃ rs, List.Forall₂ (fun m r => replace m = .ok r) ms rs ∧
      Rebuilt 0 s.toList (ms.zip rs) out.toList := by
  rw [substitute_eq]
  unfold replaceAll
  constructor
  · intro h
    generalize ho : occurrences s p limit = r at h
    obtain ⟨ms', fault⟩ := r
    dsimp only at h
    cases hm : ms'.mapM replace with
    | error e =>
      rw [hm] at h
      cases h
    | ok rs =>
      rw [hm] at h
      cases fault with
      | some e => cases h
      | none =>
        cases h
        have hf := mapM_ok_iff.mp hm
        exact ⟨rfl, rs, hf, (rebuilt_iff ho hf.length_eq.symm).mpr rfl⟩
  · rintro ⟨ho, rs, hf, hr⟩
    rw [ho]
    dsimp only
    rw [mapM_ok_iff.mpr hf, ← (rebuilt_iff ho hf.length_eq.symm).mp hr]
    rfl

end

/-! ## replacing each match by itself -/

def wholeTemplate : Bytes := #[0x25, 0x30]

theorem expand_wholeTemplate (s : Bytes) (m : Match) :
    Template.expand wholeTemplate s m = .ok (m.whole s) := by
  show Except.ok (((m.whole s).toList ++ []).toArray) = _
  rw [List.append_nil, Array.toArray_toList]

theorem zip_map_self (ms : List Match) (f : Match → Option Bytes) :
    ms.zip (ms.map f) = ms.map fun m => (m, f m) := by
  induction ms with
  | nil => rfl
  | cons m ms ih => rw [List.map_cons, List.zip_cons_cons, ih, List.map_cons]

theorem rebuild_kept {f : Match → Option Bytes} (h : occurrences s p limit = (ms, none))
    (hf : ∀ m, f m = none ∨ f m = some (m.whole s)) : rebuild s (ms.zip (ms.map f)) = s := by
  have hr := (rebuilt_iff h (List.length_map f)).mpr rfl
  refine Array.toList_inj.mp (hr.kept (s := s) rfl fun m r hm => ?_)
  rw [zip_map_self] at hm
  obtain ⟨a, _, e⟩ := List.mem_map.mp hm
  obtain ⟨rfl, rfl⟩ := Prod.mk.inj e
  exact hf a

end Pattern

/-! ## the library function -/

namespace Library.Text

open Machine Pattern

def limitOf (vs : List Value) : Except Failure (Option Nat) :=
  if Arguments.isOmitted vs 4 then .ok none
  else (Arguments.integer vs 4 "gsub").map fun n => some n.toInt.toNat

def replacementTypes : List Ty := [.string, .number, .table, .function]

/-- The arguments of a substitution: subject, pattern and limit, and a replacement. -/
structure GsubArguments (vs : List Value) (s p : Bytes) (limit : Option Nat) (by' : Value) :
    Prop where
  subject : Arguments.bytes vs 1 "gsub" = .ok s
  pattern : Arguments.bytes vs 2 "gsub" = .ok p
  limit : limitOf vs = .ok limit
  replacement : Value.nth vs 2 = by'
  replaces : by'.ty ∈ replacementTypes

/-- A substitution after its arguments have been read. -/
def substituting (s p : Bytes) (limit : Option Nat) (by' : Value) : Action (List Value) :=
  (substituteBy (fun e => Action.fail (.pattern e)) (replace s by') s p limit).bind fun r =>
    .done [.string r.1, .count r.2]

theorem substituting_eq (s p : Bytes) (limit : Option Nat) (by' : Value) :
    substituting s p limit by' = ((occurrences s p limit).1.mapM (replace s by')).bind fun rs =>
      match (occurrences s p limit).2 with
      | some e => Action.fail (.pattern e)
      | none => .done [.string (rebuild s ((occurrences s p limit).1.zip rs)),
          .count (occurrences s p limit).1.length] := by
  unfold substituting
  rw [substituteBy_eq]
  refine (Action.bind_assoc _ _ _).trans (congrArg (Action.bind _) (funext fun rs => ?_))
  cases (occurrences s p limit).2 with
  | some e => rfl
  | none =>
    show Action.done [.string (rebuild s _), Value.count (0 + _)] = _
    rw [Nat.zero_add]

theorem gsub_eq (vs : List Value) : gsub vs =
    (Action.ofExcept (Arguments.bytes vs 1 "gsub")).bind fun s =>
      (Action.ofExcept (Arguments.bytes vs 2 "gsub")).bind fun p =>
        (Action.ofExcept (limitOf vs)).bind fun limit =>
          if (Value.nth vs 2).ty ∈ replacementTypes then
            substituting s p limit (Value.nth vs 2)
          else Action.fail (.argument 3 "gsub"
            (.expected "string/function/table" (Value.nth vs 2).ty)) := by
  unfold gsub
  refine congrArg (Action.bind _) (funext fun s => congrArg (Action.bind _) (funext fun p => ?_))
  unfold limitOf
  generalize Value.nth vs 2 = by'
  by_cases ho : Arguments.isOmitted vs 4 = true
  · rw [if_pos ho, if_pos ho]
    cases by' <;> rfl
  · rw [if_neg ho, if_neg ho]
    cases Arguments.integer vs 4 "gsub" with
    | error e => rfl
    | ok n => cases by' <;> rfl

theorem performs_gsub {vs us : List Value} {m m' : Machine} :
    Performs Job.body (gsub vs) m (.ok us) m' ↔
      ∃ s p limit by', GsubArguments vs s p limit by' ∧
        Performs Job.body (substituting s p limit by') m (.ok us) m' := by
  rw [gsub_eq]
  constructor
  · intro h
    obtain ⟨s, hs, h⟩ := performs_ofExcept_ok.mp h
    obtain ⟨p, hp, h⟩ := performs_ofExcept_ok.mp h
    obtain ⟨limit, hl, h⟩ := performs_ofExcept_ok.mp h
    split at h
    · rename_i hr
      exact ⟨s, p, limit, _, ⟨hs, hp, hl, rfl, hr⟩, h⟩
    · cases h.1
  · rintro ⟨s, p, limit, by', ⟨hs, hp, hl, rfl, hr⟩, h⟩
    refine performs_ofExcept_ok.mpr ⟨s, hs, performs_ofExcept_ok.mpr ⟨p, hp,
      performs_ofExcept_ok.mpr ⟨limit, hl, ?_⟩⟩⟩
    rwa [if_pos hr]

theorem performs_substituting {s p : Bytes} {limit : Option Nat} {by' : Value} {us : List Value}
    {m m' : Machine} : Performs Job.body (substituting s p limit by') m (.ok us) m' ↔
      ∃ ms rs out, occurrences s p limit = (ms, none) ∧
        PerformsEach Job.body (replace s by') ms m rs m' ∧
        Rebuilt 0 s.toList (ms.zip rs) (Array.toList out) ∧
        us = [.string out, .count ms.length] := by
  rw [substituting_eq, performs_bind_ok]
  generalize ho : occurrences s p limit = r
  obtain ⟨ms, fault⟩ := r
  constructor
  · rintro ⟨rs, n, hm, h⟩
    have hm := performs_mapM.mp hm
    cases fault with
    | some e => cases h.1
    | none =>
      obtain ⟨hu, rfl⟩ := h
      exact ⟨ms, rs, _, rfl, hm, (rebuilt_iff ho hm.length_eq).mpr rfl, Except.ok.inj hu⟩
  · rintro ⟨_, rs, out, e, hm, hr, rfl⟩
    cases e
    refine ⟨rs, m', performs_mapM.mpr hm, ?_, rfl⟩
    rw [← (rebuilt_iff ho hm.length_eq).mp hr]

theorem mapM_loop_done {α β : Type} {f : α → Action β} {g : α → β} (hf : ∀ a, f a = .done (g a))
    (as : List α) (acc : List β) :
    List.mapM.loop f as acc = .done (acc.reverse ++ as.map g) := by
  induction as generalizing acc with
  | nil => rw [List.map_nil, List.append_nil]; rfl
  | cons a as ih =>
    show (f a).bind (fun b => List.mapM.loop f as (b :: acc)) = _
    rw [hf]
    refine (ih (g a :: acc)).trans ?_
    rw [List.reverse_cons, List.append_assoc, List.singleton_append, List.map_cons]

/-- A substitution whose replacements are known needs nothing from the machine. -/
theorem substituting_done {s p : Bytes} {limit : Option Nat} {by' : Value} {ms : List Match}
    {g : Match → Option Bytes} (h : occurrences s p limit = (ms, none))
    (hg : ∀ m, replace s by' m = .done (g m)) : substituting s p limit by'
      = .done [.string (rebuild s (ms.zip (ms.map g))), .count ms.length] := by
  rw [substituting_eq, h, show ms.mapM (replace s by') = .done (ms.map g) from mapM_loop_done hg ms []]
  rfl

theorem replace_template {s template text : Bytes} {m : Match}
    (h : Template.expand template s m = .ok text) :
    replace s (.string template) m = .done (some text) := by
  unfold replace
  dsimp only [Value.text?, Option.getD]
  rw [h]
  rfl

theorem GsubArguments.gsub_eq {vs : List Value} {s p : Bytes} {limit : Option Nat} {by' : Value}
    (h : GsubArguments vs s p limit by') : gsub vs = substituting s p limit by' := by
  obtain ⟨hs, hp, hl, rfl, hr⟩ := h
  rw [Text.gsub_eq, hs, hp, hl]
  exact if_pos hr

end Library.Text

namespace Pattern

open Machine Library.Text

/-- **A substitution rebuilds the subject around its matches.**  Round by round it asks for a
replacement and writes it, or writes a byte that it passes, and at the end the rest; whatever the
replacements do, this is to ask for all of them in order and to put the text together afterwards, and
further rounds would change nothing.  It succeeds exactly if no fault ends the matches and each of
them gets a replacement, asked for once and in order; the text is then the subject with the matches
replaced, or kept, and nothing else changed.  So it is for the library function, whatever its
replacements do to the machine.  The matches lie in the subject in order, without overlap, no more
than the limit allows; under a limit they are the first ones of those without it, and an anchored
pattern has at most one, at the start.  If every match is kept, or replaced by the template `%0`, the
text is the subject. -/
theorem substitution_rebuilds_subject :
    (∀ (M : Type → Type) [Monad M] [LawfulMonad M] (fault : PatternError → M (Bytes × Nat))
        (replace : Match → M (Option Bytes)) s p limit,
      substituteBy fault replace s p limit
        = replaceEach fault replace s Draft.start (occurrences s p limit) ∧
      ∀ is rounds, items p = .ok is → 2 * (s.size + 1) ≤ rounds →
        substituteFrom fault replace s is (isAnchored p) limit rounds Draft.start
          = substituteBy fault replace s p limit) ∧
    (∀ s p limit replace out ms, substitute s p limit replace = .ok (out, ms) ↔
      occurrences s p limit = (ms, none) ∧
        ∃ rs, List.Forall₂ (fun m r => replace m = .ok r) ms rs ∧
          Rebuilt 0 s.toList (ms.zip rs) out.toList) ∧
    (∀ vs us m m', Performs Job.body (gsub vs) m (.ok us) m' ↔
      ∃ s p limit by' ms rs out, GsubArguments vs s p limit by' ∧
        occurrences s p limit = (ms, none) ∧ PerformsEach Job.body (replace s by') ms m rs m' ∧
        Rebuilt 0 s.toList (ms.zip rs) out.toList ∧ us = [.string out, .count ms.length]) ∧
    ∀ s p limit ms, occurrences s p limit = (ms, none) →
      Spans s p limit ms ∧
      (limit = none → ∀ k, occurrences s p (some k) = (ms.take k, none)) ∧
      (∀ rs out, Rebuilt 0 s.toList (ms.zip rs) out → (∀ r ∈ rs, r = none) → out = s.toList) ∧
      substitute s p limit (fun m => (Template.expand wholeTemplate s m).map some) = .ok (s, ms) ∧
      ∀ vs, GsubArguments vs s p limit (.string wholeTemplate) →
        gsub vs = .done [.string s, .count ms.length] := by
  refine ⟨fun M _ _ fault replace s p limit => ⟨substituteBy_eq limit, fun is rounds hread hr =>
      substituteFrom_rounds hread limit hr⟩,
    fun s p limit replace out ms => substitute_ok_iff, fun vs us m m' => ?_,
    fun s p limit ms h => ⟨spans_occurrences h, ?_, fun rs out hr hnone => ?_, ?_, fun vs hvs => ?_⟩⟩
  · rw [performs_gsub]
    constructor
    · rintro ⟨s, p, limit, by', hvs, h⟩
      obtain ⟨ms, rs, out, ho, hm, hr, hu⟩ := performs_substituting.mp h
      exact ⟨s, p, limit, by', ms, rs, out, hvs, ho, hm, hr, hu⟩
    · rintro ⟨s, p, limit, by', ms, rs, out, hvs, ho, hm, hr, hu⟩
      exact ⟨s, p, limit, by', hvs, performs_substituting.mpr ⟨ms, rs, out, ho, hm, hr, hu⟩⟩
  · rintro rfl k
    exact occurrences_some h k
  · refine hr.kept (s := s) rfl fun m r hm => .inl (hnone r ?_)
    exact (List.of_mem_zip hm).2
  · rw [substitute_ok_iff]
    refine ⟨h, ms.map fun m => some (m.whole s), ?_, ?_⟩
    · rw [List.forall₂_map_right_iff]
      refine List.forall₂_same.mpr fun m _ => ?_
      rw [expand_wholeTemplate]
      rfl
    · exact (rebuilt_iff h (List.length_map _)).mpr (rebuild_kept h fun m => .inr rfl)
  · rw [hvs.gsub_eq, substituting_done h fun m => replace_template (expand_wholeTemplate s m),
      rebuild_kept h fun m => .inr rfl]

/-- In `hello` the pattern `l*` meets three empty matches and the two `l`s, which become one `L`; a
limit of three leaves out the empty match at the end. -/
theorem substitution_rebuilds_hello :
    let s : Bytes := #[0x68, 0x65, 0x6c, 0x6c, 0x6f]
    let p : Bytes := #[0x6c, 0x2a]
    let ms : List Match := [⟨0, 0, []⟩, ⟨1, 1, []⟩, ⟨2, 4, []⟩, ⟨5, 5, []⟩]
    Spans s p none ms ∧ occurrences s p (some 3) = (ms.take 3, none) ∧
      Rebuilt 0 s.toList (ms.zip [none, none, some #[0x4c], none]) [0x68, 0x65, 0x4c, 0x6f] ∧
      gsub [.string s, .string p, .string wholeTemplate] = .done [.string s, .count 4] := by
  intro s p ms
  obtain ⟨_, hsub, _, hall⟩ := substitution_rebuilds_subject
  have h : occurrences s p none = (ms, none) := by decide +kernel
  obtain ⟨hspans, hlimit, _, _, hgsub⟩ := hall s p none ms h
  refine ⟨hspans, hlimit rfl 3, ?_, hgsub _ ⟨rfl, rfl, rfl, rfl, by decide⟩⟩
  obtain ⟨_, rs, hrs, hr⟩ := (hsub s p none
    (fun m => .ok (if m.start < m.stop then some #[0x4c] else none)) #[0x68, 0x65, 0x4c, 0x6f] ms).mp
    (by decide +kernel)
  obtain rfl : rs = [none, none, some #[0x4c], none] :=
    (Except.ok.inj (mapM_ok_iff.mpr hrs)).symm
  exact hr

end Pattern

end LuaMachine
