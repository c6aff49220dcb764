import LuaMachine.Proofs.MergeSort

/-!
# The loops of the sort merge runs

The sort of the library goes over the indices of an array.  A pass merges each stretch of as many
values as the width with the stretch behind it, and the width doubles from pass to pass.  These
stretches are the runs that are merged with their neighbours.

* `runsOf`, `Uniform`   a list cut into runs of a width, of which the last one may be shorter;
* `mergeAt_eq`          the loop over two stretches is a merge;
* `mergePass_eq`        a pass merges each run with its neighbour;
* `sorted_eq`           the sort merges runs of one until one run is left;
* `interpret_sorted`    the sort goes down a tree of questions;
* `sorted_all`          every leaf of the sort is a permutation, and only values of the list are asked
                        about;
* `pairwise_eval_sorted`, `filter_eval_sorted`   the leaf of an order is in order, and equivalent
                        values stand in it as they stood in the list.
-/

namespace LuaMachine.Library.Sequence

open Decision

variable {α : Type}

/-! ## two stretches -/

section
variable {m : Type → Type} [Monad m] {less : α → α → m Bool} {vs : Array α}

theorem toList_extract_cons {i j : Nat} (hij : i < j) (hj : j ≤ vs.size) :
    (vs.extract i j).toList = vs[i] :: (vs.extract (i + 1) j).toList := by
  have hi : i < vs.toList.length := by
    rw [Array.length_toList]
    omega
  rw [Array.toList_extract, Array.toList_extract, List.extract_eq_take_drop,
    List.extract_eq_take_drop, List.drop_eq_getElem_cons hi,
    show j - i = j - (i + 1) + 1 by omega, List.take_succ_cons]
  rfl

theorem toList_extract_nil {i j : Nat} (hij : j ≤ i) : (vs.extract i j).toList = [] := by
  rw [Array.toList_extract, List.extract_eq_take_drop, Nat.sub_eq_zero_of_le hij, List.take_zero]

theorem mergeOnto_nil (before ls : List α) :
    mergeOnto less before ls [] = pure (before.reverse ++ ls) := by
  cases ls with
  | nil => rw [mergeOnto]
  | cons l ls =>
    rw [mergeOnto]
    exact List.cons_ne_nil l ls

theorem mergeRuns_nil (before : List (List α)) :
    mergeRuns less before [] = pure before.reverse := by
  simp [mergeRuns]

theorem mergeRuns_singleton (before : List (List α)) (a : List α) :
    mergeRuns less before [a] = pure (before.reverse ++ [a]) := by
  simp [mergeRuns]

variable [LawfulMonad m]

theorem mergeOnto_append (before front ls rs : List α) : mergeOnto less (before ++ front) ls rs
    = mergeOnto less before ls rs >>= fun ys => pure (front.reverse ++ ys) := by
  fun_induction mergeOnto less before ls rs with
  | case1 before rs => rw [mergeOnto, pure_bind, List.reverse_append, List.append_assoc]
  | case2 before ls hne =>
    rw [mergeOnto, pure_bind, List.reverse_append, List.append_assoc]
    exact hne
  | case3 before l ls r rs ihr ihl =>
    rw [mergeOnto, bind_assoc]
    refine bind_congr fun b => ?_
    cases b
    · exact ihl
    · exact ihr

theorem mergeAt_eq_mergeOnto {mid stop : Nat} (hmid : mid ≤ vs.size) (hstop : stop ≤ vs.size)
    (l r : Nat) (merged : Array α) : mergeAt less vs hmid hstop l r merged
      = mergeOnto less merged.toList.reverse (vs.extract l mid).toList (vs.extract r stop).toList
        >>= fun ys => pure ys.toArray := by
  fun_induction mergeAt less vs hmid hstop l r merged with
  | case1 l r merged h ihr ihl =>
    rw [toList_extract_cons h.1 hmid] at ihr ⊢
    rw [toList_extract_cons h.2 hstop] at ihl ⊢
    rw [mergeOnto, bind_assoc]
    refine bind_congr fun b => ?_
    cases b
    · rw [Array.toList_push, List.reverse_concat] at ihl
      exact ihl
    · rw [Array.toList_push, List.reverse_concat] at ihr
      exact ihr
  | case2 l r merged h =>
    by_cases hl : mid ≤ l
    · rw [toList_extract_nil hl, mergeOnto, pure_bind]
      refine congrArg pure (Array.toList_inj.mp ?_)
      rw [Array.toList_append, Array.toList_append, toList_extract_nil hl]
      simp
    · rw [toList_extract_nil (show stop ≤ r by omega), mergeOnto_nil, pure_bind]
      refine congrArg pure (Array.toList_inj.mp ?_)
      rw [Array.toList_append, Array.toList_append, toList_extract_nil (show stop ≤ r by omega)]
      simp

/-- **The loop over two stretches is a merge.** -/
theorem mergeAt_eq {mid stop : Nat} (hmid : mid ≤ vs.size) (hstop : stop ≤ vs.size) (l r : Nat)
    (merged : Array α) : mergeAt less vs hmid hstop l r merged
      = merge less (vs.extract l mid).toList (vs.extract r stop).toList
        >>= fun ys => pure (merged ++ ys.toArray) := by
  rw [mergeAt_eq_mergeOnto, ← List.nil_append merged.toList.reverse, mergeOnto_append, bind_assoc]
  refine bind_congr fun ys => ?_
  rw [pure_bind, List.reverse_reverse]
  refine congrArg pure (Array.toList_inj.mp ?_)
  rw [Array.toList_append]

end

/-! ## runs of one width -/

/-- A list cut into runs of a width; what is left at the end is a shorter run. -/
def runsOf {w : Nat} (hw : 0 < w) : List α → List (List α)
  | [] => []
  | x :: xs => (x :: xs).take w :: runsOf hw ((x :: xs).drop w)
termination_by xs => xs.length
decreasing_by
  rw [List.length_drop, List.length_cons]
  omega

/-- All runs have the width, but for the last one, which is not longer and not empty. -/
def Uniform (w : Nat) : List (List α) → Prop
  | [] => True
  | [a] => 0 < a.length ∧ a.length ≤ w
  | a :: b :: rest => a.length = w ∧ Uniform w (b :: rest)

section
variable {w : Nat} {xs : List α} {runs : List (List α)} {a b : List α}

theorem runsOf_of_ne_nil (hw : 0 < w) (h : xs ≠ []) :
    runsOf hw xs = xs.take w :: runsOf hw (xs.drop w) := by
  cases xs with
  | nil => exact absurd rfl h
  | cons x xs => rw [runsOf]

theorem runsOf_short (hw : 0 < w) (h : xs ≠ []) (hl : xs.length ≤ w) : runsOf hw xs = [xs] := by
  rw [runsOf_of_ne_nil hw h, List.take_of_length_le hl, List.drop_of_length_le hl, runsOf]

theorem runsOf_one (xs : List α) : runsOf Nat.one_pos xs = xs.map ([·]) := by
  induction xs with
  | nil => rw [runsOf]; rfl
  | cons x xs ih =>
    rw [runsOf, List.map_cons, ← ih]
    rfl

theorem flatten_runsOf (hw : 0 < w) (xs : List α) : (runsOf hw xs).flatten = xs := by
  fun_induction runsOf hw xs with
  | case1 => rfl
  | case2 x xs ih => rw [List.flatten_cons, ih, List.take_append_drop]

theorem Uniform.head (h : Uniform w (a :: runs)) : 0 < a.length ∧ a.length ≤ w ∨ a.length = w := by
  cases runs with
  | nil => exact .inl h
  | cons b rest => exact .inr h.1

theorem Uniform.tail (h : Uniform w (a :: runs)) : Uniform w runs := by
  cases runs with
  | nil => trivial
  | cons b rest => exact h.2

theorem uniform_runsOf (hw : 0 < w) (xs : List α) : Uniform w (runsOf hw xs) := by
  fun_induction runsOf hw xs with
  | case1 => trivial
  | case2 x xs ih =>
    by_cases hd : (x :: xs).drop w = []
    · rw [hd, runsOf]
      rw [List.drop_eq_nil_iff] at hd
      rw [List.take_of_length_le hd]
      exact ⟨Nat.succ_pos _, hd⟩
    · rw [runsOf_of_ne_nil hw hd] at ih ⊢
      refine ⟨?_, ih⟩
      rw [List.drop_eq_nil_iff] at hd
      rw [List.length_take]
      omega

theorem runsOf_flatten (hw : 0 < w) (h : Uniform w runs) : runsOf hw runs.flatten = runs := by
  induction runs with
  | nil => rw [List.flatten_nil, runsOf]
  | cons a rest ih =>
    rw [List.flatten_cons]
    cases rest with
    | nil =>
      rw [List.flatten_nil, List.append_nil]
      exact runsOf_short hw (List.ne_nil_of_length_pos h.1) h.2
    | cons b rest =>
      have ha : a ≠ [] := List.ne_nil_of_length_pos (by rw [h.1]; exact hw)
      rw [runsOf_of_ne_nil hw (List.append_ne_nil_of_left_ne_nil ha _), List.take_left' h.1,
        List.drop_left' h.1, ih h.2]

end

/-! ## a pass -/

section
variable {m : Type → Type} [Monad m] [LawfulMonad m] {less : α → α → m Bool} {vs : Array α}
  {w start : Nat}

theorem runsOf_drop (hw : 0 < w) (hs : start < vs.size) : runsOf hw (vs.toList.drop start)
    = (vs.extract start (min (start + w) vs.size)).toList
      :: runsOf hw (vs.toList.drop (start + w)) := by
  have hne : vs.toList.drop start ≠ [] := by
    rw [ne_eq, List.drop_eq_nil_iff, Array.length_toList]
    omega
  rw [runsOf_of_ne_nil hw hne, List.drop_drop, Array.toList_extract, List.extract_eq_take_drop]
  refine congrArg (· :: _) (List.take_eq_take_iff.mpr ?_)
  rw [List.length_drop, Array.length_toList]
  omega

/-- **A pass merges each run with its neighbour.** -/
theorem mergePass_eq (hw : 0 < w) (start : Nat) (merged : Array α) :
    ∀ before : List (List α), merged.toList = before.reverse.flatten →
      mergePass less vs hw start merged
        = mergeRuns less before (runsOf hw (vs.toList.drop start))
          >>= fun rs => pure rs.flatten.toArray := by
  fun_induction mergePass less vs hw start merged with
  | case1 start merged hs mid stop ih =>
    intro before hb
    have hafter : ∀ ys : List α,
        (merged ++ ys.toArray).toList = (ys :: before).reverse.flatten := by
      intro ys
      rw [Array.toList_append, hb, List.reverse_cons, List.flatten_append, List.flatten_singleton]
    have hstop : stop = min (start + w + w) vs.size := by
      show min (start + 2 * w) vs.size = _
      rw [Nat.two_mul, Nat.add_assoc]
    have hdrop : vs.toList.drop stop = vs.toList.drop (start + w + w) := by
      refine List.drop_eq_drop_iff.mpr ?_
      rw [hstop, Array.length_toList, Nat.min_assoc, Nat.min_self]
    rw [mergeAt_eq, bind_assoc, runsOf_drop hw hs]
    simp only [pure_bind]
    by_cases hmid : start + w < vs.size
    · -- two stretches, the second one perhaps shorter
      rw [runsOf_drop hw hmid, ← hdrop, ← hstop, mergeRuns, bind_assoc,
        Nat.min_eq_left (Nat.le_of_lt hmid)]
      show (merge less _ (vs.extract mid stop).toList >>= _) = _
      rw [show mid = start + w from Nat.min_eq_left (Nat.le_of_lt hmid)]
      exact bind_congr fun ab => ih (merged ++ ab.toArray) (ab :: before) (hafter ab)
    · -- the last stretch has no neighbour
      have hrest : vs.toList.drop (start + w) = [] := by
        rw [List.drop_eq_nil_iff, Array.length_toList]
        omega
      have hlast : vs.toList.drop stop = [] := by
        rw [hdrop, ← List.drop_drop, hrest, List.drop_nil]
      have hempty : (vs.extract mid stop).toList = [] := toList_extract_nil (by omega)
      show (merge less _ (vs.extract mid stop).toList >>= _) = _
      rw [hempty, merge, mergeOnto_nil, pure_bind, List.reverse_nil, List.nil_append,
        ih _ _ (hafter _), hlast, hrest, runsOf, mergeRuns_nil, mergeRuns_singleton, pure_bind,
        pure_bind, List.reverse_cons]
  | case2 start merged hs =>
    intro before hb
    have hrest : vs.toList.drop start = [] := by
      rw [List.drop_eq_nil_iff, Array.length_toList]
      omega
    rw [hrest, runsOf, mergeRuns_nil, pure_bind, ← hb]

end

/-! ## all passes -/

section
variable {w : Nat} {xs : List α}

/-- Two runs at the front make one of twice the width. -/
theorem Uniform.merged {a b ab : List α} {rest rs : List (List α)} (h : Uniform w (a :: b :: rest))
    (hab : ab.length = a.length + b.length) (hrs : Uniform (2 * w) rs)
    (hlen : rs.length = (rest.length + 1) / 2) (hw : 0 < w) : Uniform (2 * w) (ab :: rs) := by
  have ha := h.1
  have hb := h.2.head
  cases rs with
  | nil => exact ⟨by omega, by omega⟩
  | cons c rs =>
    refine ⟨?_, hrs⟩
    -- a run follows, so the second one has the whole width
    cases rest with
    | nil => simp at hlen
    | cons d rest =>
      have := h.2.1
      omega

/-- Whatever the answers are, a pass doubles the width of the runs and halves their number. -/
theorem mergeRuns_uniform (hw : 0 < w) (before runs : List (List α))
    (h : ∀ a ∈ runs.flatten, a ∈ xs) (hu : Uniform w runs) :
    (mergeRuns question before runs).All (Among xs) fun rs =>
      ∃ rs', rs = before.reverse ++ rs' ∧ Uniform (2 * w) rs' ∧
        rs'.length = (runs.length + 1) / 2 := by
  fun_induction mergeRuns question before runs with
  | case1 before a b rest ih =>
    rw [List.flatten_cons, List.flatten_cons] at h
    have hmerge := mergeOnto_all [] a b (fun x hx => h x (by simp [hx]))
      fun x hx => h x (by simp [hx])
    refine hmerge.bind fun ab hab => (ih ab (fun x hx => h x (by simp [hx])) hu.tail.tail).mono ?_
    intro rs hrs
    obtain ⟨rs', rfl, hu', hlen⟩ := hrs
    have hab : ab.length = a.length + b.length := by
      rw [hab.length_eq]
      simp
    refine ⟨ab :: rs', by rw [List.reverse_cons, List.append_assoc]; rfl,
      hu.merged hab hu' hlen hw, ?_⟩
    simp only [List.length_cons] at hlen ⊢
    omega
  | case2 before rest hne =>
    refine ⟨rest, rfl, ?_⟩
    rcases rest with _ | ⟨a, _ | ⟨b, rest⟩⟩
    · exact ⟨trivial, by simp⟩
    · exact ⟨⟨hu.1, Nat.le_trans hu.2 (Nat.le_mul_of_pos_left w Nat.two_pos)⟩, by simp⟩
    · exact absurd rfl (hne a b rest)

/-- **A pass over the runs of a width makes the runs of twice the width**, of the same values. -/
theorem mergeRuns_runsOf (hw : 0 < w) (xs : List α) :
    (mergeRuns question [] (runsOf hw xs)).All (Among xs) fun rs =>
      runsOf (Nat.mul_pos Nat.two_pos hw) rs.flatten = rs ∧ rs.flatten.length = xs.length ∧
        rs.length = ((runsOf hw xs).length + 1) / 2 := by
  have hmem : ∀ a ∈ (runsOf hw xs).flatten, a ∈ xs := by
    rw [flatten_runsOf]
    exact fun _ ha => ha
  have hperm := mergeRuns_all [] (runsOf hw xs) hmem
  have huniform := mergeRuns_uniform hw [] (runsOf hw xs) hmem (uniform_runsOf hw xs)
  refine (hperm.and huniform).mono fun rs hrs => ?_
  obtain ⟨hflat, rs', hrs', hu, hlen⟩ := hrs
  obtain rfl : rs = rs' := hrs'
  refine ⟨runsOf_flatten _ hu, ?_, hlen⟩
  rw [hflat.length_eq, List.reverse_nil, List.nil_append, flatten_runsOf]

/-- By induction on the passes: each works on the runs that the one before it made. -/
theorem sortWidths_eq (len : Nat) (hw : 0 < w) (vs : Array α) (hvs : vs.size = len) (n : Nat)
    (hn : (runsOf hw vs.toList).length ≤ n) : sortWidths question len hw vs
      = sortRuns question n (runsOf hw vs.toList) >>= fun ys => pure ys.toArray := by
  fun_induction sortWidths question len hw vs generalizing n with
  | case1 w hw vs hlt ih =>
    have hpass : mergePass question vs hw 0 #[]
        = mergeRuns question [] (runsOf hw vs.toList) >>= fun rs => pure rs.flatten.toArray :=
      mergePass_eq hw 0 #[] [] rfl
    obtain ⟨a, b, rest, e⟩ : ∃ a b rest, runsOf hw vs.toList = a :: b :: rest := by
      have h0 := runsOf_drop hw (show 0 < vs.size by omega)
      rw [List.drop_zero, runsOf_drop hw (show 0 + w < vs.size by omega)] at h0
      exact ⟨_, _, _, h0⟩
    obtain ⟨n, rfl⟩ : ∃ k, n = k + 1 := ⟨n - 1, by rw [e] at hn; simp at hn; omega⟩
    have hsort : sortRuns question (n + 1) (runsOf hw vs.toList)
        = mergeRuns question [] (runsOf hw vs.toList) >>= sortRuns question n := by
      rw [e]
      rfl
    rw [hpass, hsort, bind_assoc, bind_assoc]
    refine (mergeRuns_runsOf hw vs.toList).bind_congr fun rs hrs => ?_
    obtain ⟨hruns, hflat, hlen⟩ := hrs
    rw [pure_bind]
    refine (ih rs.flatten.toArray ?_ n ?_).trans (by rw [List.toList_toArray, hruns])
    · rw [List.size_toArray, hflat, Array.length_toList, hvs]
    · rw [List.toList_toArray, hruns, hlen]
      rw [e] at hn ⊢
      simp only [List.length_cons] at hn ⊢
      omega
  | case2 w hw vs hge =>
    by_cases hempty : vs.toList = []
    · have hnil : sortRuns question n ([] : List (List α)) = pure [] := by
        cases n <;> rfl
      rw [hempty, runsOf, hnil, pure_bind]
      exact congrArg pure (Array.toList_inj.mp hempty)
    · have hlen : vs.toList.length ≤ w := by
        rw [Array.length_toList]
        omega
      rw [runsOf_short hw hempty hlen] at hn ⊢
      obtain ⟨n, rfl⟩ : ∃ k, n = k + 1 := ⟨n - 1, by simp at hn; omega⟩
      rfl

/-- **The sort merges runs of one value until one run is left.** -/
theorem sorted_eq (xs : List α) :
    sorted question xs = sortRuns question xs.length (xs.map ([·])) := by
  have hruns : (runsOf Nat.one_pos xs.toArray.toList).length ≤ xs.length :=
    Nat.le_of_eq (by rw [List.toList_toArray, runsOf_one, List.length_map])
  unfold sorted
  rw [sortWidths_eq xs.length Nat.one_pos xs.toArray List.size_toArray xs.length hruns, bind_assoc,
    List.toList_toArray, runsOf_one]
  simp only [pure_bind]
  exact bind_pure _

end

/-! ## the sort is a tree -/

section
variable (less : α → α → Action Bool)

theorem interpret_mergeAt (vs : Array α) {mid stop : Nat} (hmid : mid ≤ vs.size)
    (hstop : stop ≤ vs.size) (l r : Nat) (merged : Array α) :
    (mergeAt question vs hmid hstop l r merged).interpret less
      = mergeAt less vs hmid hstop l r merged := by
  fun_induction mergeAt less vs hmid hstop l r merged with
  | case1 l r merged h ihr ihl =>
    rw [mergeAt, dif_pos h, interpret_bind]
    show ((less _ _).bind Action.done).bind _ = _
    rw [Action.bind_done]
    refine congrArg (Action.bind _) (funext fun b => ?_)
    cases b
    · exact ihl
    · exact ihr
  | case2 l r merged h =>
    rw [mergeAt, dif_neg h]
    rfl

theorem interpret_mergePass (vs : Array α) {w : Nat} (hw : 0 < w) (start : Nat) (merged : Array α) :
    (mergePass question vs hw start merged).interpret less
      = mergePass less vs hw start merged := by
  fun_induction mergePass less vs hw start merged with
  | case1 start merged hs mid stop ih =>
    rw [mergePass, if_pos hs, interpret_bind, interpret_mergeAt]
    exact congrArg (Action.bind _) (funext ih)
  | case2 start merged hs =>
    rw [mergePass, if_neg hs]
    rfl

theorem interpret_sortWidths (len : Nat) {w : Nat} (hw : 0 < w) (vs : Array α) :
    (sortWidths question len hw vs).interpret less = sortWidths less len hw vs := by
  fun_induction sortWidths less len hw vs with
  | case1 w hw vs hlt ih =>
    rw [sortWidths, if_pos hlt, interpret_bind, interpret_mergePass]
    exact congrArg (Action.bind _) (funext ih)
  | case2 w hw vs hge =>
    rw [sortWidths, if_neg hge]
    rfl

/-- **The sort goes down a tree of questions.** -/
theorem interpret_sorted (xs : List α) :
    (sorted question xs).interpret less = sorted less xs := by
  unfold sorted
  rw [interpret_bind, interpret_sortWidths]
  rfl

end

/-! ## what the sort gives -/

/-- **Whatever the answers are, the values are those of the list.** -/
theorem sorted_all (xs : List α) :
    (sorted question xs).All (Among xs) fun ys => ys.Perm xs := by
  have hx : ∀ a ∈ (xs.map ([·])).flatten, a ∈ xs := by
    rw [flatten_map_singleton]
    exact fun _ ha => ha
  have h := sortRuns_all xs.length (xs.map ([·])) hx
  rw [flatten_map_singleton] at h
  rw [sorted_eq]
  exact h

section
variable {xs : List α} {lt : α → α → Bool} (h : StrictWeakOn (fun a b => lt a b = true) xs)
include h

/-- **The values come out in order.** -/
theorem pairwise_eval_sorted :
    ((sorted question xs).eval lt).Pairwise fun a b => lt b a = false := by
  rw [sorted_eq]
  exact (Runs.eval_sortRuns h _ _ (runs_singletons lt xs) (Nat.le_of_eq (List.length_map _))).1

/-- **Equivalent values come out as they stood in the list.** -/
theorem filter_eval_sorted {v : α} (hv : v ∈ xs) :
    ((sorted question xs).eval lt).filter (equivalent lt v) = xs.filter (equivalent lt v) := by
  rw [sorted_eq]
  exact (Runs.eval_sortRuns h _ _ (runs_singletons lt xs) (Nat.le_of_eq (List.length_map _))).2 v hv

end

end LuaMachine.Library.Sequence
