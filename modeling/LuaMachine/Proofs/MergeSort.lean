import Mathlib.Data.List.Perm.Basic
import LuaMachine.Proofs.Steady

/-!
# Merge sort as a tree of questions

A sort asks a comparison again and again, and what it asks next depends on the answers only.  So it
is a tree: a node for each question and a leaf for each outcome.  Whatever answers the questions, a
run of the sort goes down one branch.  Here the sort merges runs, each with its neighbour, until one
is left.

* `Decision`          trees of questions; they are a monad, and the sort runs in it;
* `Reaches`, `Asks`   some answers lead from a tree to a tree below it, or to a question;
* `All`               what holds of every question and of every leaf;
* `eval`              the leaf that an order leads to;
* `merge`, `mergeRuns`, `sortRuns`   the merging of runs;
* `sortRuns_all`      every leaf of the sort is a permutation, and only values of the runs are asked
                      about;
* `StrictWeakOn`      an order in which values may be equivalent;
* `Runs.eval_sortRuns`   the leaf of such an order is in order, and equivalent values stand in it as
                      they stood in the list.
-/

namespace LuaMachine

/-! ## trees of questions -/

/-- Ask how two values compare, and go on with the answer, or be done. -/
inductive Decision (α β : Type) where
  | done (b : β)
  | ask (x y : α) (k : Bool → Decision α β)

structure Comparison (α : Type) where
  left : α
  right : α
  answer : Bool

namespace Decision

variable {α β γ : Type}

def bind : Decision α β → (β → Decision α γ) → Decision α γ
  | .done b, f => f b
  | .ask x y k, f => .ask x y fun r => (k r).bind f

instance : Monad (Decision α) where
  pure := .done
  bind := bind

protected theorem bind_done (d : Decision α β) : d.bind .done = d := by
  induction d with
  | done b => rfl
  | ask x y k ih => exact congrArg (ask x y) (funext ih)

protected theorem bind_assoc {δ : Type} (d : Decision α β) (f : β → Decision α γ)
    (g : γ → Decision α δ) : (d.bind f).bind g = d.bind fun b => (f b).bind g := by
  induction d with
  | done b => rfl
  | ask x y k ih => exact congrArg (ask x y) (funext ih)

instance : LawfulMonad (Decision α) :=
  LawfulMonad.mk' (Decision α) Decision.bind_done (fun _ _ => rfl) Decision.bind_assoc

def question (x y : α) : Decision α Bool := .ask x y .done

/-- Some answers lead from one tree to another. -/
inductive Reaches : Decision α β → List (Comparison α) → Decision α β → Prop
  | here {d : Decision α β} : Reaches d [] d
  | answer {x y : α} {k : Bool → Decision α β} {r : Bool} {cs : List (Comparison α)}
      {d : Decision α β} : Reaches (k r) cs d → Reaches (.ask x y k) (⟨x, y, r⟩ :: cs) d

/-- After some answers a tree asks how two values compare. -/
def Asks (d : Decision α β) (cs : List (Comparison α)) (x y : α) : Prop :=
  ∃ k, d.Reaches cs (.ask x y k)

theorem Asks.answer {x y x' y' : α} {k : Bool → Decision α β} {r : Bool}
    {cs : List (Comparison α)} : (k r).Asks cs x' y' → (ask x y k).Asks (⟨x, y, r⟩ :: cs) x' y' :=
  fun ⟨k', h⟩ => ⟨k', .answer h⟩

/-- What holds of every question, and of every leaf. -/
def All (S : α → α → Prop) (P : β → Prop) : Decision α β → Prop
  | .done b => P b
  | .ask x y k => S x y ∧ ∀ r, (k r).All S P

def eval (lt : α → α → Bool) : Decision α β → β
  | .done b => b
  | .ask x y k => (k (lt x y)).eval lt

section
variable {S : α → α → Prop} {P Q : β → Prop} {d d' : Decision α β} {cs : List (Comparison α)}
  {lt : α → α → Bool}

theorem All.bind {R : γ → Prop} {f : β → Decision α γ} (hd : d.All S P)
    (hf : ∀ b, P b → (f b).All S R) : (d >>= f).All S R := by
  induction d with
  | done b => exact hf b hd
  | ask x y k ih => exact ⟨hd.1, fun r => ih r (hd.2 r)⟩

theorem All.bind_congr {f g : β → Decision α γ} (hd : d.All S P) (h : ∀ b, P b → f b = g b) :
    d >>= f = d >>= g := by
  induction d with
  | done b => exact h b hd
  | ask x y k ih => exact congrArg (ask x y) (funext fun r => ih r (hd.2 r))

theorem All.and (hd : d.All S P) (hd' : d.All S Q) : d.All S fun b => P b ∧ Q b := by
  induction d with
  | done b => exact ⟨hd, hd'⟩
  | ask x y k ih => exact ⟨hd.1, fun r => ih r (hd.2 r) (hd'.2 r)⟩

theorem All.mono (hd : d.All S P) (h : ∀ b, P b → Q b) : d.All S Q := by
  induction d with
  | done b => exact h b hd
  | ask x y k ih => exact ⟨hd.1, fun r => ih r (hd.2 r)⟩

/-- What holds everywhere in a tree holds below it, and of the questions on the way. -/
theorem All.reaches (hd : d.All S P) (hr : d.Reaches cs d') :
    d'.All S P ∧ ∀ c ∈ cs, S c.left c.right := by
  induction hr with
  | here => exact ⟨hd, fun c hc => absurd hc List.not_mem_nil⟩
  | answer _ ih =>
    obtain ⟨h, hcs⟩ := ih (hd.2 _)
    refine ⟨h, fun c hc => ?_⟩
    rcases List.mem_cons.mp hc with rfl | hc
    · exact hd.1
    · exact hcs c hc

theorem Reaches.eval_eq (hr : d.Reaches cs d') (h : ∀ c ∈ cs, c.answer = lt c.left c.right) :
    d'.eval lt = d.eval lt := by
  induction hr with
  | here => rfl
  | @answer x y k r cs d _ ih =>
    have hr : r = lt x y := h _ List.mem_cons_self
    rw [ih fun c hc => h c (List.mem_cons_of_mem _ hc), hr]
    rfl

@[simp] theorem eval_pure (b : β) : (pure b : Decision α β).eval lt = b := rfl

@[simp] theorem eval_bind (d : Decision α β) (f : β → Decision α γ) :
    (d >>= f).eval lt = (f (d.eval lt)).eval lt := by
  induction d with
  | done b => rfl
  | ask x y k ih => exact ih _

theorem question_bind (x y : α) (f : Bool → Decision α β) : question x y >>= f = .ask x y f := rfl

end

/-- The tree as an action, with a comparison that answers its questions. -/
def interpret (less : α → α → Action Bool) : Decision α β → Action β
  | .done b => .done b
  | .ask x y k => (less x y).bind fun r => (k r).interpret less

theorem interpret_bind (less : α → α → Action Bool) (d : Decision α β) (f : β → Decision α γ) :
    (d >>= f).interpret less = (d.interpret less).bind fun b => (f b).interpret less := by
  induction d with
  | done b => rfl
  | ask x y k ih =>
    show (less x y).bind (fun r => (k r >>= f).interpret less) = _
    rw [funext fun r => ih r]
    exact (Action.bind_assoc _ _ _).symm

end Decision

/-! ## orders -/

/-- On the values of a list, a relation orders classes of equivalent values. -/
structure StrictWeakOn {α : Type} (r : α → α → Prop) (xs : List α) : Prop where
  irrefl : ∀ a ∈ xs, ¬ r a a
  trans : ∀ a ∈ xs, ∀ b ∈ xs, ∀ c ∈ xs, r a b → r b c → r a c
  incomparable : ∀ a ∈ xs, ∀ b ∈ xs, ∀ c ∈ xs, ¬ r a b → ¬ r b a → ¬ r b c → ¬ r c b →
    ¬ r a c ∧ ¬ r c a

theorem StrictWeakOn.not_trans {α : Type} {r : α → α → Prop} {xs : List α} (h : StrictWeakOn r xs)
    {a b c : α} (ha : a ∈ xs) (hb : b ∈ xs) (hc : c ∈ xs) (hab : ¬ r b a) (hbc : ¬ r c b) :
    ¬ r c a := by
  intro hca
  have hab' : ¬ r a b := fun e => hbc (h.trans c hc a ha b hb hca e)
  have hbc' : ¬ r b c := fun e => hab (h.trans b hb c hc a ha e hca)
  exact (h.incomparable a ha b hb c hc hab' hab hbc' hbc).2 hca

namespace Library.Sequence

open Decision

variable {α : Type}

/-! ## merging runs -/

section
variable {m : Type → Type} [Monad m]

/-- Merge two runs after what is already merged, which comes in reverse.  The head of the right run
goes first only if it is less. -/
def mergeOnto (less : α → α → m Bool) (before : List α) : List α → List α → m (List α)
  | [], rs => return before.reverse ++ rs
  | ls, [] => return before.reverse ++ ls
  | l :: ls, r :: rs => do
    if ← less r l then mergeOnto less (r :: before) (l :: ls) rs
    else mergeOnto less (l :: before) ls (r :: rs)
termination_by ls rs => ls.length + rs.length

def merge (less : α → α → m Bool) (ls rs : List α) : m (List α) := mergeOnto less [] ls rs

def mergeRuns (less : α → α → m Bool) (before : List (List α)) : List (List α) → m (List (List α))
  | a :: b :: rest => do
    let ab ← merge less a b
    mergeRuns less (ab :: before) rest
  | rest => return before.reverse ++ rest

/-- Merge neighbours until one run is left; as many rounds as runs are more than enough. -/
def sortRuns (less : α → α → m Bool) : Nat → List (List α) → m (List α)
  | 0, runs => return runs.flatten
  | fuel + 1, runs =>
    match runs with
    | [] => return []
    | [run] => return run
    | _ => do sortRuns less fuel (← mergeRuns less [] runs)

end

/-! ## whatever the answers are -/

section
variable {xs : List α}

def Among (xs : List α) (a b : α) : Prop := a ∈ xs ∧ b ∈ xs

theorem mergeOnto_all (before ls rs : List α) (hl : ∀ a ∈ ls, a ∈ xs) (hr : ∀ a ∈ rs, a ∈ xs) :
    (mergeOnto question before ls rs).All (Among xs)
      fun ys => ys.Perm (before.reverse ++ (ls ++ rs)) := by
  fun_induction mergeOnto question before ls rs with
  | case1 before rs => exact .rfl
  | case2 before ls _ =>
    show (before.reverse ++ ls).Perm _
    rw [List.append_nil]
  | case3 before l ls r rs ihr ihl =>
    refine ⟨⟨hr r List.mem_cons_self, hl l List.mem_cons_self⟩, fun answer => ?_⟩
    cases answer
    · refine (ihl (fun a ha => hl a (List.mem_cons_of_mem _ ha)) hr).mono fun ys hys => ?_
      rw [List.reverse_cons, List.append_assoc] at hys
      exact hys
    · refine (ihr hl fun a ha => hr a (List.mem_cons_of_mem _ ha)).mono fun ys hys => ?_
      rw [List.reverse_cons, List.append_assoc, List.singleton_append] at hys
      exact hys.trans (List.perm_middle.symm.append_left _)

theorem mergeRuns_all (before runs : List (List α)) (h : ∀ a ∈ runs.flatten, a ∈ xs) :
    (mergeRuns question before runs).All (Among xs)
      fun rs => rs.flatten.Perm (before.reverse ++ runs).flatten := by
  fun_induction mergeRuns question before runs with
  | case1 before a b rest ih =>
    rw [List.flatten_cons, List.flatten_cons] at h
    refine (mergeOnto_all [] a b (fun x hx => h x (by simp [hx])) fun x hx => h x (by simp [hx])).bind
      fun ab hab => (ih ab fun x hx => h x (by simp [hx])).mono fun rs hrs => hrs.trans ?_
    simp only [List.reverse_cons, List.append_assoc, List.flatten_append, List.flatten_cons,
      List.singleton_append]
    refine List.Perm.append_left _ ?_
    rw [← List.append_assoc]
    exact hab.append_right _
  | case2 before rest _ => exact .rfl

theorem sortRuns_all (n : Nat) (runs : List (List α)) (h : ∀ a ∈ runs.flatten, a ∈ xs) :
    (sortRuns question n runs).All (Among xs) fun ys => ys.Perm runs.flatten := by
  induction n generalizing runs with
  | zero => exact .rfl
  | succ n ih =>
    unfold sortRuns
    split
    · exact .rfl
    · rename_i run
      show run.Perm [run].flatten
      simp
    · refine (mergeRuns_all [] runs h).bind fun rs hrs => ?_
      rw [List.reverse_nil, List.nil_append] at hrs
      exact (ih rs fun a ha => h a (hrs.mem_iff.mp ha)).mono fun ys hys => hys.trans hrs

theorem flatten_map_singleton (xs : List α) : (xs.map ([·])).flatten = xs := by
  induction xs with
  | nil => rfl
  | cons x xs ih => rw [List.map_cons, List.flatten_cons, ih, List.singleton_append]

end

/-! ## answers by an order -/

section
variable {xs : List α} {lt : α → α → Bool}

/-- Merging by an order is the merge of lists in which the left value goes first unless the right
one is less. -/
theorem eval_mergeOnto (lt : α → α → Bool) (before ls rs : List α) :
    (mergeOnto question before ls rs).eval lt
      = before.reverse ++ ls.merge rs fun a b => !lt b a := by
  fun_induction mergeOnto question before ls rs with
  | case1 before rs => simp
  | case2 before ls _ => simp
  | case3 before l ls r rs ihr ihl =>
    rw [question_bind]
    show (if lt r l then _ else _ : Decision α (List α)).eval lt = _
    rw [List.cons_merge_cons]
    cases lt r l
    · simp [ihl]
    · simp [ihr]

variable (h : StrictWeakOn (fun a b => lt a b = true) xs)
include h

/-- The head of the run that goes first is not greater than what follows. -/
theorem pairwise_merge {ls rs : List α} (hl : ∀ a ∈ ls, a ∈ xs) (hr : ∀ a ∈ rs, a ∈ xs)
    (hls : ls.Pairwise fun a b => lt b a = false) (hrs : rs.Pairwise fun a b => lt b a = false) :
    (ls.merge rs fun a b => !lt b a).Pairwise fun a b => lt b a = false := by
  have le_trans : ∀ {a b c : α}, a ∈ xs → b ∈ xs → c ∈ xs → lt b a = false → lt c b = false →
      lt c a = false := by
    intro a b c ha hb hc hab hbc
    have := h.not_trans ha hb hc (by simp [hab]) (by simp [hbc])
    simpa using this
  induction ls generalizing rs with
  | nil => simpa using hrs
  | cons l ls ihl =>
    induction rs with
    | nil => simpa using hls
    | cons r rs ihr =>
      have hlx := hl l List.mem_cons_self
      have hrx := hr r List.mem_cons_self
      have hls' := List.pairwise_cons.mp hls
      have hrs' := List.pairwise_cons.mp hrs
      rw [List.cons_merge_cons]
      cases hrl : lt r l
      · rw [Bool.not_false, if_pos rfl, List.pairwise_cons]
        refine ⟨fun b hb => ?_, ihl (fun a ha => hl a (List.mem_cons_of_mem _ ha)) hr hls'.2 hrs⟩
        rcases List.mem_append.mp ((List.merge_perm_append _).mem_iff.mp hb) with hb | hb
        · exact hls'.1 b hb
        · rcases List.mem_cons.mp hb with rfl | hb
          · exact hrl
          · exact le_trans hlx hrx (hr b (List.mem_cons_of_mem _ hb)) hrl (hrs'.1 b hb)
      · rw [Bool.not_true, if_neg Bool.false_ne_true, List.pairwise_cons]
        refine ⟨fun b hb => ?_, ihr (fun a ha => hr a (List.mem_cons_of_mem _ ha)) hrs'.2⟩
        -- the right value is less than the left one, so not greater
        have hlr : lt l r = false := by
          rw [Bool.eq_false_iff]
          intro e
          exact h.irrefl r hrx (h.trans r hrx l hlx r hrx hrl e)
        rcases List.mem_append.mp ((List.merge_perm_append _).mem_iff.mp hb) with hb | hb
        · rcases List.mem_cons.mp hb with rfl | hb
          · exact hlr
          · exact le_trans hrx hlx (hl b (List.mem_cons_of_mem _ hb)) hlr (hls'.1 b hb)
        · exact hrs'.1 b hb

end

def equivalent (lt : α → α → Bool) (v a : α) : Bool := !lt v a && !lt a v

section
variable {xs : List α} {lt : α → α → Bool} (h : StrictWeakOn (fun a b => lt a b = true) xs)
include h

/-- **Merging keeps equivalent values as they stand**, those of the left run first. -/
theorem filter_merge {v : α} (hv : v ∈ xs) {ls rs : List α} (hl : ∀ a ∈ ls, a ∈ xs)
    (hr : ∀ a ∈ rs, a ∈ xs) (hls : ls.Pairwise fun a b => lt b a = false) :
    (ls.merge rs fun a b => !lt b a).filter (equivalent lt v)
      = ls.filter (equivalent lt v) ++ rs.filter (equivalent lt v) := by
  induction ls generalizing rs with
  | nil => simp
  | cons l ls ihl =>
    induction rs with
    | nil => simp
    | cons r rs ihr =>
      have hrx := hr r List.mem_cons_self
      have hls' := List.pairwise_cons.mp hls
      rw [List.cons_merge_cons]
      cases hrl : lt r l
      · rw [Bool.not_false, if_pos rfl, List.filter_cons,
          ihl (fun a ha => hl a (List.mem_cons_of_mem _ ha)) hr hls'.2]
        split <;> simp [List.filter_cons, *]
      · rw [Bool.not_true, if_neg Bool.false_ne_true, List.filter_cons,
          ihr fun a ha => hr a (List.mem_cons_of_mem _ ha)]
        split
        · -- a value equivalent to the right one would not be greater than it
          rename_i hrv
          have hnone : (l :: ls).filter (equivalent lt v) = [] := by
            rw [List.filter_eq_nil_iff]
            intro w hw hwv
            have hwx := hl w hw
            unfold equivalent at hrv hwv
            simp only [Bool.and_eq_true, Bool.not_eq_true'] at hrv hwv
            have hrw : ¬ lt r w = true := (h.incomparable r hrx v hv w hwx (by simp [hrv.2])
              (by simp [hrv.1]) (by simp [hwv.1]) (by simp [hwv.2])).1
            have hwl : ¬ lt w l = true := by
              rcases List.mem_cons.mp hw with rfl | hw
              · exact h.irrefl w hwx
              · rw [hls'.1 w hw]
                exact Bool.false_ne_true
            exact h.not_trans (hl l List.mem_cons_self) hwx hrx hwl hrw hrl
          rw [hnone, List.filter_cons_of_pos hrv]
          rfl
        · rename_i hrv
          rw [List.filter_cons_of_neg hrv]

end

/-! ## all runs -/

/-- Runs of values of the list, each in order, that together have the equivalent values as they
stand in the list. -/
structure Runs (lt : α → α → Bool) (xs : List α) (runs : List (List α)) : Prop where
  subset : ∀ run ∈ runs, ∀ a ∈ run, a ∈ xs
  ordered : ∀ run ∈ runs, run.Pairwise fun a b => lt b a = false
  stable : ∀ v ∈ xs, runs.flatten.filter (equivalent lt v) = xs.filter (equivalent lt v)

section
variable {xs : List α} {lt : α → α → Bool}

theorem runs_singletons (lt : α → α → Bool) (xs : List α) : Runs lt xs (xs.map ([·])) where
  subset := by
    intro run hrun a ha
    obtain ⟨x, hx, rfl⟩ := List.mem_map.mp hrun
    rw [List.mem_singleton.mp ha]
    exact hx
  ordered := by
    intro run hrun
    obtain ⟨x, _, rfl⟩ := List.mem_map.mp hrun
    exact List.pairwise_singleton _ _
  stable := fun v _ => by rw [flatten_map_singleton]

variable (h : StrictWeakOn (fun a b => lt a b = true) xs)
include h

theorem Runs.merge {front rest : List (List α)} {a b : List α}
    (hr : Runs lt xs (front ++ a :: b :: rest)) :
    Runs lt xs (front ++ (a.merge b fun x y => !lt y x) :: rest) := by
  have ha : a ∈ front ++ a :: b :: rest := by simp
  have hb : b ∈ front ++ a :: b :: rest := by simp
  have old : ∀ run, run ∈ front ++ (a.merge b fun x y => !lt y x) :: rest →
      run ∈ front ++ a :: b :: rest ∨ run = a.merge b fun x y => !lt y x := by
    intro run hrun
    simp only [List.mem_append, List.mem_cons] at hrun ⊢
    tauto
  refine ⟨fun run hrun x hx => ?_, fun run hrun => ?_, fun v hv => ?_⟩
  · rcases old run hrun with hrun | rfl
    · exact hr.subset run hrun x hx
    · rcases List.mem_append.mp ((List.merge_perm_append _).mem_iff.mp hx) with hx | hx
      · exact hr.subset a ha x hx
      · exact hr.subset b hb x hx
  · rcases old run hrun with hrun | rfl
    · exact hr.ordered run hrun
    · exact pairwise_merge h (hr.subset a ha) (hr.subset b hb) (hr.ordered a ha) (hr.ordered b hb)
  · have hmerge := filter_merge h hv (hr.subset a ha) (hr.subset b hb) (hr.ordered a ha)
    rw [← hr.stable v hv]
    simp only [List.flatten_append, List.flatten_cons, List.filter_append, hmerge,
      List.append_assoc]

/-- **One round keeps the runs**, and halves their number. -/
theorem Runs.eval_mergeRuns (before runs : List (List α)) (hr : Runs lt xs (before.reverse ++ runs)) :
    Runs lt xs ((mergeRuns question before runs).eval lt) ∧
      ((mergeRuns question before runs).eval lt).length = before.length + (runs.length + 1) / 2 := by
  fun_induction mergeRuns question before runs with
  | case1 before a b rest ih =>
    have hm := hr.merge h
    have e : (Sequence.merge question a b).eval lt = a.merge b fun x y => !lt y x :=
      eval_mergeOnto lt [] a b
    rw [eval_bind, e]
    obtain ⟨hruns, hlen⟩ := ih _ (by rw [List.reverse_cons, List.append_assoc]; exact hm)
    refine ⟨hruns, hlen.trans ?_⟩
    simp only [List.length_cons]
    omega
  | case2 before rest hne =>
    refine ⟨hr, ?_⟩
    show (before.reverse ++ rest).length = _
    rw [List.length_append, List.length_reverse]
    rcases rest with _ | ⟨a, _ | ⟨b, rest⟩⟩
    · simp
    · simp
    · exact absurd rfl (hne a b rest)

theorem Runs.eval_sortRuns (n : Nat) (runs : List (List α)) (hr : Runs lt xs runs)
    (hn : runs.length ≤ n) :
    ((sortRuns question n runs).eval lt).Pairwise (fun a b => lt b a = false) ∧
      ∀ v ∈ xs, ((sortRuns question n runs).eval lt).filter (equivalent lt v)
        = xs.filter (equivalent lt v) := by
  induction n generalizing runs with
  | zero =>
    cases List.length_eq_zero_iff.mp (Nat.le_zero.mp hn)
    exact ⟨List.Pairwise.nil, hr.stable⟩
  | succ n ih =>
    rcases runs with _ | ⟨a, _ | ⟨b, rest⟩⟩
    · exact ⟨List.Pairwise.nil, hr.stable⟩
    · have hs := hr.stable
      rw [List.flatten_singleton] at hs
      exact ⟨hr.ordered a List.mem_cons_self, hs⟩
    · have e : (sortRuns question (n + 1) (a :: b :: rest)).eval lt
          = (sortRuns question n ((mergeRuns question [] (a :: b :: rest)).eval lt)).eval lt :=
        eval_bind _ _
      obtain ⟨hruns, hlen⟩ := Runs.eval_mergeRuns h [] (a :: b :: rest) hr
      rw [e]
      refine ih _ hruns ?_
      rw [hlen]
      simp only [List.length_cons, List.length_nil] at hn ⊢
      omega

end

end Library.Sequence

end LuaMachine
