import LuaMachine.Pattern.Template
import LuaMachine.Proofs.InRange

/-!
# Substituting round by round

A substitution goes through the subject once and writes the new text as it goes: in each round the
replacement of a match, or the byte that it passes, and at the end the rest.  The same matches can be
collected first and replaced afterwards.

* `Round.Right`       what holds of a round;
* `occurrences`       the matches that a substitution meets, and the fault that ends them;
* `InOrder`           matches one after the other, with no overlap;
* `rebuild`           the subject with matches replaced, put together from stretches;
* `substituteFrom_eq`, `substituteBy_eq`   what the rounds write is the subject rebuilt, and they do
                      what asking for all replacements one after the other does;
* `substituteFrom_rounds`   further rounds change nothing.
-/

namespace LuaMachine

namespace Pattern

variable {s p : Bytes} {is : List Item} {anchored : Bool} {rounds i j : Nat}
  {limit last : Option Nat} {t u : Trail} {e : PatternError} {cs : List Captured}
  {a : Match} {ms : List Match}

/-! ## one round -/

/-- What holds of a round: the trail keeps its slots, and a match that is met is the first choice at
its place and ends elsewhere than the one before it. -/
inductive Round.Right (s : Bytes) (is : List Item) (last : Option Nat) (i : Nat) : Round → Prop
  | fault (e : PatternError) : Right s is last i (.fault e)
  | pass {t : Trail} : t.slots.size = Trail.maxCaptures → Right s is last i (.pass t)
  | found {j : Nat} {t : Trail} {cs : List Captured} : t.slots.size = Trail.maxCaptures →
      some j ≠ last → Match.IsFirst s is ⟨i, j, cs⟩ → Right s is last i (.found j t cs)

theorem right_round (hend : Item.EndsLast is) (hi : i ≤ s.size)
    (ht : t.slots.size = Trail.maxCaptures) (last : Option Nat) :
    (round s is last i t).Right s is last i := by
  unfold round
  cases ha : attempt s is i t with
  | fault e => exact .fault e
  | failed u => exact .pass (attempt_failed hend hi ht ha).1
  | matched j u =>
    obtain ⟨hu, ks, hk⟩ := attempt_matched hend hi ht ha
    by_cases hj : some j = last
    · simp only [if_pos hj]
      exact .pass hu
    · simp only [if_neg hj]
      cases hc : u.captured with
      | error e => exact .fault e
      | ok cs => exact .found hu hj ⟨ks, _, hk, hc⟩

/-! ## the matches that are met -/

def Round.followed (anchored : Bool) (s : Bytes) (i : Nat)
    (pass : Trail → List Match × Option PatternError)
    (found : Nat → Trail → List Match × Option PatternError) :
    Round → List Match × Option PatternError
  | .fault e => ([], some e)
  | .pass t => if i < s.size ∧ !anchored then pass t else ([], none)
  | .found j t cs =>
    if anchored then ([⟨i, j, cs⟩], none) else (⟨i, j, cs⟩ :: (found j t).1, (found j t).2)

/-- The matches that the rounds from a place on meet, at most `limit` of them (all, if there is no
limit), and the fault that ends them, if one does. -/
def occurrencesFrom (s : Bytes) (is : List Item) (anchored : Bool) :
    Nat → Option Nat → Trail → Nat → Option Nat → List Match × Option PatternError
  | 0, _, _, _, _ => ([], none)
  | rounds + 1, limit, t, i, last =>
    if limit = some 0 then ([], none)
    else (round s is last i t).followed anchored s i
      (fun u => occurrencesFrom s is anchored rounds limit u (i + 1) last)
      (fun j u => occurrencesFrom s is anchored rounds (limit.map (· - 1)) u j (some j))

/-- The matches that a substitution replaces, in order, and the fault that ends them, if any. -/
def occurrences (s p : Bytes) (limit : Option Nat) : List Match × Option PatternError :=
  match items p with
  | .error e => ([], some e)
  | .ok is => occurrencesFrom s is (isAnchored p) (2 * (s.size + 1)) limit Trail.empty 0 none

theorem occurrencesFrom_succ (hl : limit ≠ some 0) :
    occurrencesFrom s is anchored (rounds + 1) limit t i last
      = (round s is last i t).followed anchored s i
        (fun u => occurrencesFrom s is anchored rounds limit u (i + 1) last)
        (fun j u => occurrencesFrom s is anchored rounds (limit.map (· - 1)) u j (some j)) := by
  rw [occurrencesFrom, if_neg hl]

theorem occurrencesFrom_full :
    occurrencesFrom s is anchored (rounds + 1) (some 0) t i last = ([], none) := by
  rw [occurrencesFrom, if_pos rfl]

theorem occurrences_eq (hread : items p = .ok is) (limit : Option Nat) : occurrences s p limit
    = occurrencesFrom s is (isAnchored p) (2 * (s.size + 1)) limit Trail.empty 0 none := by
  unfold occurrences
  rw [hread]

/-- Matches one after the other from a place on: none begins before the one in front of it ends, and
each ends farther on; `last` is where the match before the first of them ended. -/
def InOrder (s : Bytes) (is : List Item) : Nat → Option Nat → List Match → Prop
  | _, _, [] => True
  | i, last, m :: ms => i ≤ m.start ∧ m.start ≤ m.stop ∧ m.stop ≤ s.size ∧ some m.stop ≠ last ∧
      m.IsFirst s is ∧ InOrder s is m.stop (some m.stop) ms

theorem InOrder.pass (h : InOrder s is (i + 1) last ms) : InOrder s is i last ms := by
  cases ms with
  | nil => trivial
  | cons m ms => exact ⟨Nat.le_of_succ_le h.1, h.2⟩

/-- **The matches of a substitution are in order.** -/
theorem inOrder_occurrencesFrom (hend : Item.EndsLast is) (rounds : Nat) :
    ∀ (limit : Option Nat) (t : Trail) (i : Nat) (last : Option Nat),
      t.slots.size = Trail.maxCaptures → i ≤ s.size →
      InOrder s is i last (occurrencesFrom s is anchored rounds limit t i last).1 := by
  induction rounds with
  | zero =>
    intro limit t i last _ _
    trivial
  | succ rounds ih =>
    intro limit t i last ht hi
    by_cases hl : limit = some 0
    · rw [hl, occurrencesFrom_full]
      trivial
    rw [occurrencesFrom_succ hl]
    have hr := right_round hend hi ht last
    generalize round s is last i t = r at hr ⊢
    cases hr with
    | fault e => trivial
    | @pass u hu =>
      dsimp only [Round.followed]
      split
      · rename_i hlt
        exact (ih limit u (i + 1) last hu hlt.1).pass
      · trivial
    | @found j u cs hu hne hfirst =>
      obtain ⟨hij, hjs, _⟩ := hfirst.inside hi
      dsimp only [Round.followed]
      split
      · exact ⟨Nat.le_refl i, hij, hjs, hne, hfirst, trivial⟩
      · exact ⟨Nat.le_refl i, hij, hjs, hne, hfirst, ih _ u j (some j) hu hjs⟩

theorem InOrder.mem (h : InOrder s is i last ms) (ha : a ∈ ms) :
    i ≤ a.start ∧ a.start ≤ a.stop ∧ a.stop ≤ s.size ∧ (last = some i → i < a.stop) ∧
      a.IsFirst s is := by
  induction ms generalizing i last with
  | nil => cases ha
  | cons b ms ih =>
    obtain ⟨h1, h2, h3, h4, h5, h6⟩ := h
    rcases List.mem_cons.mp ha with rfl | ha
    · refine ⟨h1, h2, h3, fun e => ?_, h5⟩
      have hne : a.stop ≠ i := fun e' => h4 (by rw [e', e])
      omega
    · obtain ⟨h7, h8, h9, h10, h11⟩ := ih h6 ha
      have hlt := h10 rfl
      exact ⟨by omega, h8, h9, fun _ => by omega, h11⟩

/-! ## enough rounds -/

/-- What is left to do at a place: two rounds for each place, and a match where the last one ended
is out of the question. -/
def roundsLeft (s : Bytes) (i : Nat) (last : Option Nat) : Nat :=
  2 * (s.size - i) + if last = some i then 0 else 1

theorem roundsLeft_pass (hi : i < s.size) (last : Option Nat) :
    roundsLeft s (i + 1) last < roundsLeft s i last := by
  unfold roundsLeft
  split <;> split <;> omega

theorem roundsLeft_match (hij : i ≤ j) (hj : j ≤ s.size) (hl : some j ≠ last) :
    roundsLeft s j (some j) < roundsLeft s i last := by
  unfold roundsLeft
  rw [if_pos rfl]
  by_cases he : i = j
  · rw [if_neg (fun h => hl (by rw [h, he]))]
    omega
  · omega

theorem occurrencesFrom_rounds (hend : Item.EndsLast is) (rounds : Nat) :
    ∀ (more : Nat) (limit : Option Nat) (t : Trail) (i : Nat) (last : Option Nat),
      t.slots.size = Trail.maxCaptures → i ≤ s.size → roundsLeft s i last < rounds →
      occurrencesFrom s is anchored (rounds + more) limit t i last
        = occurrencesFrom s is anchored rounds limit t i last := by
  induction rounds with
  | zero =>
    intro more limit t i last _ _ h
    exact absurd h (Nat.not_lt_zero _)
  | succ rounds ih =>
    intro more limit t i last ht hi hleft
    by_cases hl : limit = some 0
    · rw [hl, Nat.add_right_comm, occurrencesFrom_full, occurrencesFrom_full]
    rw [Nat.add_right_comm, occurrencesFrom_succ hl, occurrencesFrom_succ hl]
    have hr := right_round hend hi ht last
    generalize round s is last i t = r at hr ⊢
    cases hr with
    | fault e => rfl
    | @pass u hu =>
      dsimp only [Round.followed]
      split
      · rename_i hlt
        have := roundsLeft_pass hlt.1 last
        exact ih more limit u (i + 1) last hu hlt.1 (by omega)
      · rfl
    | @found j u cs hu hne hfirst =>
      obtain ⟨hij, hjs, _⟩ := hfirst.inside hi
      have hless := roundsLeft_match (s := s) (i := i) (j := j) hij hjs hne
      dsimp only [Round.followed]
      rw [ih more (limit.map (· - 1)) u j (some j) hu hjs (by omega)]

/-! ## the text put together -/

def pieces (s : Bytes) (i : Nat) : List (Match × Option Bytes) → List Bytes
  | [] => [s.slice i s.size]
  | (m, r) :: rest => s.slice i m.start :: r.getD (m.whole s) :: pieces s m.stop rest

def rebuildFrom (s written : Bytes) (i : Nat) (xs : List (Match × Option Bytes)) : Bytes :=
  (pieces s i xs).foldl (· ++ ·) written

/-- The subject with matches replaced. -/
def rebuild (s : Bytes) (xs : List (Match × Option Bytes)) : Bytes := rebuildFrom s #[] 0 xs

section
variable {written : Bytes} {xs : List (Match × Option Bytes)} {r : Option Bytes} {b : UInt8}

theorem toList_rebuildFrom : (rebuildFrom s written i xs).toList
    = written.toList ++ (pieces s i xs).flatMap Array.toList := by
  have key : ∀ ps : List Bytes,
      (ps.foldl (· ++ ·) written).toList = written.toList ++ ps.flatMap Array.toList := by
    intro ps
    induction ps generalizing written with
    | nil => rw [List.flatMap_nil, List.append_nil, List.foldl_nil]
    | cons q ps ih =>
      rw [List.foldl_cons, ih, Array.toList_append, List.flatMap_cons, List.append_assoc]
  exact key _

theorem rebuildFrom_here : rebuildFrom s written a.start ((a, r) :: xs)
    = rebuildFrom s (written ++ r.getD (a.whole s)) a.stop xs := by
  have hempty : written ++ s.slice a.start a.start = written := by
    rw [← Array.toList_inj, Array.toList_append, Bytes.toList_slice_self, List.append_nil]
  show (pieces s a.stop xs).foldl _ (written ++ s.slice a.start a.start ++ r.getD (a.whole s)) = _
  rw [hempty]
  rfl

theorem pieces_pass (hi : i < s.size) (h : ∀ x ∈ xs, i < x.1.start) :
    (pieces s i xs).flatMap Array.toList = s[i] :: (pieces s (i + 1) xs).flatMap Array.toList := by
  cases xs with
  | nil =>
    rw [pieces, pieces, List.flatMap_singleton, List.flatMap_singleton,
      Bytes.toList_slice_cons hi hi]
  | cons x xs =>
    obtain ⟨m, r⟩ := x
    rw [pieces, pieces, List.flatMap_cons, List.flatMap_cons,
      Bytes.toList_slice_cons (h _ List.mem_cons_self) hi]
    rfl

theorem rebuildFrom_pass (hi : i < s.size) (h : ∀ x ∈ xs, i < x.1.start) :
    rebuildFrom s (written.push s[i]) (i + 1) xs = rebuildFrom s written i xs := by
  rw [← Array.toList_inj, toList_rebuildFrom, toList_rebuildFrom, pieces_pass hi h,
    Array.toList_push, List.append_assoc, List.singleton_append]

end

/-! ## what the rounds do -/

section
variable {m : Type → Type} [Monad m] (fault : PatternError → m (Bytes × Nat))
  (replace : Match → m (Option Bytes))

/-- The replacements of matches are asked for one after the other, and the text is put together
after a draft; the fault that ends the matches counts after them. -/
def replaceEach (s : Bytes) (d : Draft) (r : List Match × Option PatternError) :
    m (Bytes × Nat) := do
  let rs ← r.1.mapM replace
  match r.2 with
  | some e => fault e
  | none => return (rebuildFrom s d.written d.place (r.1.zip rs), d.count + r.1.length)

variable {fault : PatternError → m (Bytes × Nat)} {replace : Match → m (Option Bytes)} {d : Draft}
  {ofault : Option PatternError}

theorem replaceEach_pass (hd : d.place < s.size) (hms : ∀ a ∈ ms, d.place < a.start) :
    replaceEach fault replace s (d.passed s[d.place] t) (ms, ofault)
      = replaceEach fault replace s d (ms, ofault) := by
  unfold replaceEach
  refine bind_congr fun rs => ?_
  cases ofault with
  | some e => rfl
  | none =>
    dsimp only [Draft.passed]
    rw [rebuildFrom_pass hd fun x hx => hms x.1 (List.of_mem_zip hx).1]

variable [LawfulMonad m]

theorem replaceEach_fault : replaceEach fault replace s d ([], some e) = fault e := by
  unfold replaceEach
  rw [List.mapM_nil, pure_bind]

theorem replaceEach_nil (hd : d.place ≤ s.size) :
    replaceEach fault replace s d ([], none) = pure (d.finished s) := by
  unfold replaceEach Draft.finished
  rw [List.mapM_nil, pure_bind, Nat.min_eq_left hd]
  rfl

theorem replaceEach_found {rest : Option Bytes → m (Bytes × Nat)}
    (hrest : ∀ r, rest r = replaceEach fault replace s (d.replaced s j t r) (ms, ofault)) :
    replace ⟨d.place, j, cs⟩ >>= rest
      = replaceEach fault replace s d (⟨d.place, j, cs⟩ :: ms, ofault) := by
  unfold replaceEach
  rw [List.mapM_cons, bind_assoc]
  refine bind_congr fun r => ?_
  rw [hrest, bind_assoc]
  unfold replaceEach
  refine bind_congr fun rs => ?_
  rw [pure_bind]
  cases ofault with
  | some e => rfl
  | none =>
    dsimp only [Draft.replaced]
    rw [List.zip_cons_cons, List.length_cons, Nat.add_right_comm d.count,
      rebuildFrom_here (a := ⟨d.place, j, cs⟩)]
    rfl

/-- **The rounds write the subject rebuilt around the matches they meet.**  By induction on the
rounds; the matches after a byte that is passed begin behind it. -/
theorem substituteFrom_eq (hend : Item.EndsLast is) (rounds : Nat) :
    ∀ d : Draft, d.trail.slots.size = Trail.maxCaptures → d.place ≤ s.size →
      substituteFrom fault replace s is anchored limit rounds d
        = replaceEach fault replace s d (occurrencesFrom s is anchored rounds
            (limit.map (· - d.count)) d.trail d.place d.last) := by
  induction rounds with
  | zero =>
    intro d _ hd
    exact (replaceEach_nil hd).symm
  | succ rounds ih =>
    intro d ht hd
    have hfull : limit.any (· ≤ d.count) = true ↔ limit.map (· - d.count) = some 0 := by
      cases limit with
      | none => simp
      | some k => simp [Nat.sub_eq_zero_iff_le]
    rw [substituteFrom]
    by_cases hl : limit.map (· - d.count) = some 0
    · rw [if_pos (hfull.mpr hl), hl, occurrencesFrom_full, replaceEach_nil hd]
    rw [if_neg (mt hfull.mp hl), occurrencesFrom_succ hl]
    have hr := right_round hend hd ht d.last
    generalize round s is d.last d.place d.trail = r at hr ⊢
    cases hr with
    | fault e => exact replaceEach_fault.symm
    | @pass u hu =>
      dsimp only [Round.followed]
      by_cases hlt : d.place < s.size
      · have hbyte : s[d.place]? = some s[d.place] := Array.getElem?_eq_getElem hlt
        rw [hbyte]
        cases anchored with
        | true =>
          have hpass : replaceEach fault replace s (d.passed s[d.place] u) ([], none)
              = replaceEach fault replace s d ([], none) :=
            replaceEach_pass hlt fun a ha => absurd ha List.not_mem_nil
          rw [if_neg fun h => absurd h.2 Bool.false_ne_true, ← hpass]
          exact (replaceEach_nil (d := d.passed s[d.place] u) hlt).symm
        | false =>
          rw [if_pos ⟨hlt, rfl⟩]
          refine (ih (d.passed s[d.place] u) hu hlt).trans (replaceEach_pass hlt fun a ha => ?_)
          exact ((inOrder_occurrencesFrom hend rounds _ u (d.place + 1) d.last hu hlt).mem ha).1
      · rw [Array.getElem?_eq_none (Nat.le_of_not_lt hlt), if_neg fun h => hlt h.1]
        exact (replaceEach_nil hd).symm
    | @found j u cs hu hne hfirst =>
      obtain ⟨hij, hjs, _⟩ := hfirst.inside hd
      dsimp only [Round.followed]
      cases anchored with
      | true => exact replaceEach_found (t := u) fun r => (replaceEach_nil hjs).symm
      | false =>
        refine replaceEach_found (t := u) fun r => (ih (d.replaced s j u r) hu hjs).trans ?_
        have hlimit : limit.map (· - (d.count + 1)) = (limit.map (· - d.count)).map (· - 1) := by
          rw [Option.map_map]
          rfl
        show replaceEach fault replace s (d.replaced s j u r) (occurrencesFrom s is false rounds
          (limit.map (· - (d.count + 1))) u j (some j)) = _
        rw [hlimit]

/-- **A substitution rebuilds the subject around its matches.** -/
theorem substituteBy_eq (limit : Option Nat) : substituteBy fault replace s p limit
    = replaceEach fault replace s Draft.start (occurrences s p limit) := by
  unfold substituteBy occurrences
  cases hread : items p with
  | error e => exact replaceEach_fault.symm
  | ok is =>
    refine (substituteFrom_eq (Item.endsLast_readAll hread) _ Draft.start rfl (Nat.zero_le _)).trans
      ?_
    cases limit <;> rfl

/-- **Further rounds change nothing.** -/
theorem substituteFrom_rounds (hread : items p = .ok is) (limit : Option Nat) {rounds : Nat}
    (hr : 2 * (s.size + 1) ≤ rounds) :
    substituteFrom fault replace s is (isAnchored p) limit rounds Draft.start
      = substituteBy fault replace s p limit := by
  have hend := Item.endsLast_readAll hread
  obtain ⟨more, rfl⟩ := Nat.exists_eq_add_of_le hr
  have hleft : roundsLeft s 0 none < 2 * (s.size + 1) := by
    show 2 * (s.size - 0) + 1 < 2 * (s.size + 1)
    omega
  have hmore : occurrencesFrom s is (isAnchored p) (2 * (s.size + 1) + more) limit Trail.empty 0 none
      = occurrences s p limit := by
    rw [occurrences_eq hread]
    exact occurrencesFrom_rounds hend _ more limit Trail.empty 0 none rfl (Nat.zero_le _) hleft
  rw [substituteFrom_eq hend _ Draft.start rfl (Nat.zero_le _), substituteBy_eq, ← hmore]
  cases limit <;> rfl

end

/-! ## replacing by a function of the match -/

/-- Matches are handed to a replacement one after the other; the fault that ends them counts after
them. -/
def replaceAll (s : Bytes) (ms : List Match) (fault : Option PatternError)
    (replace : Match → Except PatternError (Option Bytes)) :
    Except PatternError (Bytes × List Match) := do
  let rs ← ms.mapM replace
  match fault with
  | some e => .error e
  | none => .ok (rebuild s (ms.zip rs), ms)

theorem mapM_noting (replace : Match → Except PatternError (Option Bytes)) (met : List Match) :
    (ms.mapM (noting replace)).run met
      = (ms.mapM replace).map fun rs => (rs, ms.reverse ++ met) := by
  induction ms generalizing met with
  | nil => rfl
  | cons a ms ih =>
    rw [List.mapM_cons, List.mapM_cons, StateT.run_bind]
    show ((replace a).map fun r => (r, a :: met)).bind _ = _
    cases replace a with
    | error e => rfl
    | ok r =>
      show (ms.mapM (noting replace) >>= fun rs => pure (r :: rs)).run (a :: met) = _
      rw [StateT.run_bind, ih]
      cases ms.mapM replace with
      | error e => rfl
      | ok rs =>
        show Except.ok (r :: rs, ms.reverse ++ a :: met)
          = Except.ok (r :: rs, (a :: ms).reverse ++ met)
        rw [List.reverse_cons, List.append_assoc, List.singleton_append]

/-- The function is asked about the matches that are met, each once and in order. -/
theorem substitute_eq (limit : Option Nat) (replace : Match → Except PatternError (Option Bytes)) :
    substitute s p limit replace
      = replaceAll s (occurrences s p limit).1 (occurrences s p limit).2 replace := by
  unfold substitute replaceAll
  rw [substituteBy_eq]
  obtain ⟨ms, ofault⟩ := occurrences s p limit
  unfold replaceEach
  rw [StateT.run_bind, mapM_noting]
  dsimp only
  cases ms.mapM replace with
  | error e => rfl
  | ok rs =>
    cases ofault with
    | some e => rfl
    | none =>
      show Except.ok (rebuild s (ms.zip rs), (ms.reverse ++ []).reverse)
        = Except.ok (rebuild s (ms.zip rs), ms)
      rw [List.append_nil, List.reverse_reverse]

end Pattern

end LuaMachine
