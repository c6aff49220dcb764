import LuaMachine.Proofs.Literal

/-!
# Where matches and captures lie

A capture begins at the place of its parenthesis and keeps its number, its beginning and its kind
from then on; only its end is open until it is closed.  Places never go back along the items of a
pattern, so the captures begin one after the other between the start and the end of the match.

* `Capture.origin`      where a capture begins, and whether it is the capture of a position;
* `Matches.origins`     what items add to the captures made before them;
* `captureSigns`        how many parentheses of a pattern begin a capture, counted on its bytes;
* `Match.Attempted`     a match as an attempt reports it, be it for a search, an iterator or a
                        substitution;
* `Match.WellPlaced`    what holds of every match that is reported.
-/

namespace LuaMachine

/-- The items that begin a capture. -/
def Item.opens : Item → Bool
  | .opening => true
  | .position => true
  | _ => false

def Capture.origin (c : Capture) : Nat × Bool := (c.start, decide (c.extent = .position))

def Captured.origin : Captured → Nat × Bool
  | .span start _ => (start, false)
  | .position n => (n - 1, true)

/-! ## places in order -/

def Ascends (i : Nat) (ps : List Nat) (j : Nat) : Prop := (i :: ps ++ [j]).Pairwise (· ≤ ·)

namespace Ascends

variable {i i' j : Nat} {ps : List Nat}

theorem refl (i : Nat) : Ascends i [] i := List.pairwise_pair.mpr (Nat.le_refl i)

theorem lower (h : Ascends i' ps j) (hi : i ≤ i') : Ascends i ps j := by
  obtain ⟨hle, hps⟩ := List.pairwise_cons.mp h
  exact List.pairwise_cons.mpr ⟨fun a ha => Nat.le_trans hi (hle a ha), hps⟩

theorem push (h : Ascends i ps j) : Ascends i (i :: ps) j := by
  refine List.pairwise_cons.mpr ⟨fun a ha => ?_, h⟩
  rcases List.mem_cons.mp ha with rfl | ha
  · exact Nat.le_refl a
  · exact (List.pairwise_cons.mp h).1 a ha

theorem bounds (h : Ascends i ps j) {a : Nat} (ha : a ∈ ps) : i ≤ a ∧ a ≤ j := by
  obtain ⟨hle, hps⟩ := List.pairwise_cons.mp h
  obtain ⟨-, -, hj⟩ := List.pairwise_append.mp hps
  exact ⟨hle a (List.mem_append_left _ ha), hj a ha j List.mem_cons_self⟩

theorem sorted (h : Ascends i ps j) : ps.Pairwise (· ≤ ·) :=
  (List.pairwise_append.mp (List.pairwise_cons.mp h).2).1

end Ascends

/-! ## what items add to the captures -/

namespace Matches

variable {s : Bytes} {is pre post : List Item} {item : Item} {ks : List Nat} {i j : Nat}
  {cs cs' : List Capture}

theorem origin_set {n a : Nat} (ho : LastOpen cs n a) (length : Nat) :
    (cs.set n ⟨a, .closed length⟩).map Capture.origin = cs.map Capture.origin := by
  obtain ⟨hn, he⟩ := List.getElem?_eq_some_iff.mp ho.1
  have hm : n < (cs.map Capture.origin).length := by rwa [List.length_map]
  have hsame : Capture.origin ⟨a, .closed length⟩ = (cs.map Capture.origin)[n] := by
    rw [List.getElem_map, he]
    rfl
  rw [List.map_set, hsame]
  exact List.set_getElem_self hm

/-- **What items add to the captures**: one for each item that begins a capture, in their order, and
the captures made before keep their beginnings and their kinds. -/
theorem origins (h : Matches s is ks i cs j cs') :
    ∃ os, cs'.map Capture.origin = cs.map Capture.origin ++ os ∧
      os.length = is.countP Item.opens ∧ Ascends i (os.map Prod.fst) j := by
  induction h with
  | done => exact ⟨[], (List.append_nil _).symm, rfl, .refl _⟩
  | element _ _ _ ih =>
    obtain ⟨os, he, hlen, ha⟩ := ih
    exact ⟨os, he, hlen, ha.lower (Nat.le_add_right _ _)⟩
  | @opening is ks i cs j cs' _ ih =>
    obtain ⟨os, he, hlen, ha⟩ := ih
    refine ⟨(i, false) :: os, ?_, ?_, ha.push⟩
    · rw [he, List.map_append, List.append_assoc]
      rfl
    · rw [List.length_cons, hlen, List.countP_cons_of_pos rfl]
  | @position is ks i cs j cs' _ ih =>
    obtain ⟨os, he, hlen, ha⟩ := ih
    refine ⟨(i, true) :: os, ?_, ?_, ha.push⟩
    · rw [he, List.map_append, List.append_assoc]
      rfl
    · rw [List.length_cons, hlen, List.countP_cons_of_pos rfl]
  | closing ho _ ih =>
    obtain ⟨os, he, hlen, ha⟩ := ih
    rw [origin_set ho] at he
    exact ⟨os, he, hlen, ha⟩
  | ending _ ih => exact ih
  | balance _ hl _ ih =>
    obtain ⟨os, he, hlen, ha⟩ := ih
    exact ⟨os, he, hlen, ha.lower (Nat.le_of_succ_le (Nat.le_of_lt hl.1))⟩
  | frontier _ _ ih => exact ih
  | reference _ _ _ _ ih =>
    obtain ⟨os, he, hlen, ha⟩ := ih
    exact ⟨os, he, hlen, ha.lower (Nat.le_add_right _ _)⟩

/-- A match of items is a match of the first of them and then of the others, under the same
choice. -/
theorem split (h : Matches s (pre ++ post) ks i cs j cs') :
    ∃ ks₁ ks₂ m cs₁, ks = ks₁ ++ ks₂ ∧ Matches s pre ks₁ i cs m cs₁ ∧
      Matches s post ks₂ m cs₁ j cs' := by
  induction pre generalizing ks i cs with
  | nil => exact ⟨[], ks, i, cs, rfl, .done, h⟩
  | cons item pre ih =>
    rw [List.cons_append] at h
    cases h with
    | element hr hst hm =>
      obtain ⟨ks₁, ks₂, m, cs₁, rfl, h₁, h₂⟩ := ih hm
      exact ⟨_ :: ks₁, ks₂, m, cs₁, rfl, .element hr hst h₁, h₂⟩
    | opening hm =>
      obtain ⟨ks₁, ks₂, m, cs₁, e, h₁, h₂⟩ := ih hm
      exact ⟨ks₁, ks₂, m, cs₁, e, .opening h₁, h₂⟩
    | position hm =>
      obtain ⟨ks₁, ks₂, m, cs₁, e, h₁, h₂⟩ := ih hm
      exact ⟨ks₁, ks₂, m, cs₁, e, .position h₁, h₂⟩
    | closing ho hm =>
      obtain ⟨ks₁, ks₂, m, cs₁, e, h₁, h₂⟩ := ih hm
      exact ⟨ks₁, ks₂, m, cs₁, e, .closing ho h₁, h₂⟩
    | ending hm =>
      obtain ⟨ks₁, ks₂, m, cs₁, e, h₁, h₂⟩ := ih hm
      exact ⟨ks₁, ks₂, m, cs₁, e, .ending h₁, h₂⟩
    | balance hx hl hm =>
      obtain ⟨ks₁, ks₂, m, cs₁, e, h₁, h₂⟩ := ih hm
      exact ⟨ks₁, ks₂, m, cs₁, e, .balance hx hl h₁, h₂⟩
    | frontier hf hm =>
      obtain ⟨ks₁, ks₂, m, cs₁, e, h₁, h₂⟩ := ih hm
      exact ⟨ks₁, ks₂, m, cs₁, e, .frontier hf h₁, h₂⟩
    | reference hc hle htext hm =>
      obtain ⟨ks₁, ks₂, m, cs₁, e, h₁, h₂⟩ := ih hm
      exact ⟨ks₁, ks₂, m, cs₁, e, .reference hc hle htext h₁, h₂⟩

theorem of_opens (h : Matches s (item :: is) ks i cs j cs') (ho : item.opens = true) :
    ∃ c : Capture, c.origin = (i, decide (item = .position)) ∧
      Matches s is ks i (cs ++ [c]) j cs' := by
  cases item with
  | opening => exact ⟨⟨i, .unfinished⟩, rfl, opening_iff.mp h⟩
  | position => exact ⟨⟨i, .position⟩, rfl, position_iff.mp h⟩
  | _ => cases ho

/-- The capture that an item begins: its number is the number of such items before it, and it begins
where these end. -/
theorem origin_of_opens (h : Matches s (pre ++ item :: post) ks i [] j cs')
    (ho : item.opens = true) :
    ∃ ks₁ place cs₁, ks₁ <+: ks ∧ Matches s pre ks₁ i [] place cs₁ ∧
      (cs'.map Capture.origin)[pre.countP Item.opens]? =
        some (place, decide (item = .position)) := by
  obtain ⟨ks₁, ks₂, place, cs₁, rfl, hpre, hrest⟩ := h.split
  refine ⟨ks₁, place, cs₁, List.prefix_append _ _, hpre, ?_⟩
  obtain ⟨c, hc, hpost⟩ := hrest.of_opens ho
  obtain ⟨os, he, -, -⟩ := hpost.origins
  -- as many captures as there are such items stand before it
  have hcount : cs₁.length = pre.countP Item.opens := by
    obtain ⟨os₁, he₁, hlen₁, -⟩ := hpre.origins
    rw [List.map_nil, List.nil_append] at he₁
    rw [← hlen₁, ← he₁, List.length_map]
  rw [he, List.map_append, List.append_assoc, ← hcount,
    List.getElem?_append_right (Nat.le_of_eq (List.length_map _)), List.length_map, Nat.sub_self]
  exact congrArg some hc

end Matches

/-! ## finished captures -/

theorem origin_finish {c : Capture} {d : Captured} (h : c.finish = .ok d) : d.origin = c.origin := by
  obtain ⟨start, x⟩ := c
  cases x with
  | closed n =>
    cases h
    rfl
  | position =>
    cases h
    rfl
  | unfinished => cases h

theorem finish_position {c : Capture} {n : Nat} (h : c.finish = .ok (.position n)) :
    ∃ start, n = start + 1 := by
  obtain ⟨start, x⟩ := c
  cases x with
  | closed length => cases h
  | position =>
    cases h
    exact ⟨start, rfl⟩
  | unfinished => cases h

theorem map_origin_finish {cs : List Capture} {ds : List Captured}
    (h : cs.mapM Capture.finish = .ok ds) : ds.map Captured.origin = cs.map Capture.origin := by
  induction cs generalizing ds with
  | nil =>
    cases h
    rfl
  | cons c cs ih =>
    rw [List.mapM_cons] at h
    cases hc : c.finish with
    | error e =>
      rw [hc] at h
      cases h
    | ok d =>
      cases hcs : cs.mapM Capture.finish with
      | error e =>
        rw [hc, hcs] at h
        cases h
      | ok ds' =>
        rw [hc, hcs] at h
        cases h
        rw [List.map_cons, List.map_cons, origin_finish hc, ih hcs]

/-! ## parentheses -/

namespace Bytewise

variable {p : Bytes} {pp : Nat} {b : UInt8} {bs rest : List UInt8} {is : List Item}
  {vs : List Nat}

def isSign (p : Bytes) (v : Nat) : Bool := p[v]? == some 0x28

theorem Reads.opens_eq {item : Item} (h : Item.Reads b bs item rest) :
    item.opens = (b == 0x28) := by
  cases h with
  | element he =>
    cases he with
    | byte _ _ hopen => exact (beq_eq_false_iff_ne.mpr hopen).symm
    | _ => rfl
  | _ => rfl

theorem visits_of_readAll (hbs : Rest p pp bs) (hread : Item.readAll bs = .ok is) :
    ∃ vs, visits p pp = .ok vs := by
  have he := visits_eq_readAll hbs
  rw [hread] at he
  cases hv : visits p pp with
  | error e =>
    rw [hv] at he
    cases he
  | ok vs => exact ⟨vs, rfl⟩

/-- The check looks for a token at as many opening parentheses as there are items that begin a
capture. -/
theorem countP_visits (hbs : Rest p pp bs) (hread : Item.readAll bs = .ok is)
    (hv : visits p pp = .ok vs) : vs.countP (isSign p) = is.countP Item.opens := by
  induction is generalizing pp bs vs with
  | nil =>
    obtain rfl := Item.readAll_eq_nil_iff.mp hread
    rw [visits_end hbs] at hv
    cases hv
    have hend : isSign p pp = false := by
      unfold isSign
      rw [hbs.head?_eq]
      rfl
    rw [List.countP_singleton, hend]
    rfl
  | cons item is ih =>
    obtain ⟨b, bs', rest, rfl, hitem, hrest⟩ := Item.readAll_eq_cons_iff.mp hread
    have hreads := Item.reads_of_read hitem
    obtain ⟨q, hq⟩ := rest_of_reads hbs hreads
    obtain ⟨pre, hpre, hsign⟩ := visits_of_reads hbs hreads hq
    obtain ⟨vs', hv', rfl⟩ := visits_of_map (hpre.symm.trans hv)
    have hhere : isSign p pp = item.opens := by
      unfold isSign
      rw [hbs.head, Reads.opens_eq hreads]
      rfl
    have hbetween : pre.countP (isSign p) = 0 := by
      rw [List.countP_eq_zero]
      intro v hmem he
      exact hsign v hmem (beq_iff_eq.mp he)
    rw [List.cons_append, List.countP_cons, List.countP_append, hbetween, Nat.zero_add,
      ih hq hrest hv', List.countP_cons, hhere]

end Bytewise

namespace Pattern

open Bytewise

variable {s p : Bytes} {is : List Item} {i j init pp : Nat} {last limit : Option Nat} {t u : Trail}
  {m : Match}

/-- How many opening parentheses begin a capture: those that are neither escaped nor a delimiter of
a balance nor in a set, so that the check of a pattern comes by. -/
def captureSigns (p : Bytes) : Nat :=
  match visits p 0 with
  | .ok vs => vs.countP (isSign p)
  | .error _ => 0

/-- The items of a pattern, with or without its anchor, begin as many captures as there are such
parentheses. -/
theorem captureSigns_eq (h : BeginsAt p pp is) : captureSigns p = is.countP Item.opens := by
  unfold captureSigns
  rcases h with ⟨-, hread⟩ | ⟨-, hanchor, hitems⟩
  · obtain ⟨vs, hv⟩ := visits_of_readAll (Rest.zero p) hread
    rw [hv]
    exact countP_visits (Rest.zero p) hread hv
  · obtain ⟨bs, hbs, he⟩ := toList_of_isAnchored hanchor
    rw [he] at hitems
    have hrest : Rest p 0 (0x5e :: bs) := hbs ▸ Rest.zero p
    obtain ⟨vs, hv⟩ := visits_of_readAll hrest.tail hitems
    have hcaret : isSign p 0 = false := by
      unfold isSign
      rw [hrest.head]
      rfl
    rw [visits_of_token hrest rfl, hv]
    show (0 :: vs).countP (isSign p) = _
    rw [List.countP_cons_of_neg (by rw [hcaret]; exact Bool.false_ne_true)]
    exact countP_visits hrest.tail hitems hv

theorem beginsAt_of_items (h : items p = .ok is) : ∃ pp, BeginsAt p pp is := by
  cases hanchor : isAnchored p with
  | false => exact ⟨0, .inl ⟨rfl, (items_of_not_anchored hanchor).symm.trans h⟩⟩
  | true => exact ⟨1, .inr ⟨rfl, hanchor, h⟩⟩

end Pattern

/-! ## matches that are reported -/

/-- The captures of a match are numbered as the parentheses that begin them.  Under the choice that
the match is made by, the capture that an item begins has as many captures before it as there are
such items before that one, and it begins where these items end. -/
def Match.Numbered (s : Bytes) (is : List Item) (m : Match) : Prop :=
  ∃ ks cs, FirstChoice s is m.start ks m.stop cs ∧
    ∀ pre item post, is = pre ++ item :: post → item.opens = true →
      ∃ ks₁ place cs₁, ks₁ <+: ks ∧ Matches s pre ks₁ m.start [] place cs₁ ∧
        (m.captures[pre.countP Item.opens]?).map Captured.origin =
          some (place, decide (item = .position))

/-- A match from a place on, with captures that lie in it. -/
structure Match.WellPlaced (s p : Bytes) (is : List Item) (init : Nat) (m : Match) : Prop where
  after : init ≤ m.start
  ordered : m.start ≤ m.stop
  within : m.stop ≤ s.size
  few : m.captures.length ≤ Trail.maxCaptures
  counted : m.captures.length = Pattern.captureSigns p
  spans : ∀ a b, .span a b ∈ m.captures → m.start ≤ a ∧ a ≤ b ∧ b ≤ m.stop
  positions : ∀ n, .position n ∈ m.captures → m.start + 1 ≤ n ∧ n ≤ m.stop + 1
  numbered : m.Numbered s is
  sorted : (m.captures.map fun c => c.origin.1).Pairwise (· ≤ ·)

/-- A match as an attempt at its start reports it. -/
def Match.Attempted (s : Bytes) (is : List Item) (m : Match) : Prop :=
  ∃ t u, t.slots.size = Trail.maxCaptures ∧ attempt s is m.start t = .matched m.stop u ∧
    u.captured = .ok m.captures

theorem FirstChoice.numbered {s : Bytes} {is : List Item} {m : Match} {ks : List Nat}
    {cs : List Capture} (h : FirstChoice s is m.start ks m.stop cs)
    (hcs : m.captures.map Captured.origin = cs.map Capture.origin) : m.Numbered s is := by
  refine ⟨ks, cs, h, ?_⟩
  rintro pre item post rfl ho
  obtain ⟨ks₁, place, cs₁, hks, hpre, horigin⟩ := h.1.origin_of_opens ho
  refine ⟨ks₁, place, cs₁, hks, hpre, ?_⟩
  rw [← List.getElem?_map, hcs]
  exact horigin

/-- **What an attempt reports is well placed.** -/
theorem Match.Attempted.wellPlaced {s p : Bytes} {is : List Item} {m : Match} {init pp : Nat}
    (h : m.Attempted s is) (hb : Pattern.BeginsAt p pp is) (hend : Item.EndsLast is)
    (hinit : init ≤ m.start) (hi : m.start ≤ s.size) : m.WellPlaced s p is init := by
  obtain ⟨t, u, ht, ha, hcs⟩ := h
  obtain ⟨_, ks, hk⟩ := attempt_matched hend hi ht ha
  have hsized : u.Sized := by
    have hanswers := attempt_answers hend hi ht
    rw [ha] at hanswers
    exact hanswers.1
  have hfinish : m.captures.map Captured.origin = u.captures.map Capture.origin :=
    map_origin_finish hcs
  obtain ⟨os, he, hlen, hascends⟩ := hk.1.origins
  rw [List.map_nil, List.nil_append] at he
  have hlength : m.captures.length = is.countP Item.opens := by
    rw [← hlen, ← he, ← hfinish, List.length_map]
  have hplaces : (m.captures.map fun c => c.origin.1) = os.map Prod.fst := by
    rw [← he, ← hfinish, List.map_map]
    rfl
  have hbegin : ∀ c ∈ m.captures, m.start ≤ c.origin.1 ∧ c.origin.1 ≤ m.stop := by
    intro c hc
    apply hascends.bounds
    rw [← hplaces]
    exact List.mem_map_of_mem hc
  obtain ⟨hle, hstop, hplaced⟩ := hk.1.inside hi (Placed.nil _)
  refine ⟨hinit, hle, hstop, ?_, ?_, fun a b hab => ?_, fun n hn => ?_, hk.numbered hfinish, ?_⟩
  · rw [← List.length_map Captured.origin, hfinish, List.length_map,
      Trail.length_captures hsized]
    exact hsized.level
  · rw [hlength, Pattern.captureSigns_eq hb]
  · obtain ⟨c, hc, hf⟩ := mem_of_mapM_finish hcs hab
    obtain ⟨n, rfl, rfl⟩ := finish_span hf
    exact ⟨(hbegin _ hab).1, Nat.le_add_right a n, (hplaced _ hc).2 n rfl⟩
  · obtain ⟨c, hc, hf⟩ := mem_of_mapM_finish hcs hn
    obtain ⟨start, rfl⟩ := finish_position hf
    have hplace : m.start ≤ start ∧ start ≤ m.stop := hbegin _ hn
    exact ⟨Nat.succ_le_succ hplace.1, Nat.succ_le_succ hplace.2⟩
  · rw [hplaces]
    exact hascends.sorted

namespace Pattern

variable {s p : Bytes} {is : List Item} {i j init : Nat} {last limit : Option Nat} {t u : Trail}
  {m : Match}

/-! ## searches -/

theorem firstMatch_attempted (hend : Item.EndsLast is) (n : Nat) : ∀ (i : Nat) (t : Trail),
    i + n ≤ s.size → t.slots.size = Trail.maxCaptures → firstMatch s is i n t = .ok (some m) →
    i ≤ m.start ∧ m.start ≤ s.size ∧ m.Attempted s is := by
  induction n with
  | zero =>
    intro i t hn ht h
    rcases firstMatch_cases h with ⟨j, u, cs, ha, hc, e⟩ | ⟨u, _, ⟨_, e⟩ | ⟨n', e, _⟩⟩
    · cases e
      exact ⟨Nat.le_refl i, hn, t, u, ht, ha, hc⟩
    · cases e
    · cases e
  | succ n ih =>
    intro i t hn ht h
    rcases firstMatch_cases h with ⟨j, u, cs, ha, hc, e⟩ | ⟨u, ha, ⟨e, _⟩ | ⟨n', e, h'⟩⟩
    · cases e
      exact ⟨Nat.le_refl i, by dsimp only; omega, t, u, ht, ha, hc⟩
    · cases e
    · cases e
      obtain ⟨hu, _⟩ := attempt_failed hend (by omega) ht ha
      obtain ⟨h1, h2⟩ := ih (i + 1) u (by omega) hu h'
      exact ⟨by omega, h2⟩

/-- A search that finds something has run the matcher, or might as well. -/
theorem findMatch_of_find (h : find s p init = .ok (some m)) :
    init ≤ s.size ∧ findMatch s p init = .ok (some m) := by
  by_cases hi : init ≤ s.size
  · refine ⟨hi, ?_⟩
    by_cases hplain : isPlain p = true
    · rw [← find_eq_findMatch (isAnchored_of_isPlain hplain) hi]
      exact h
    · unfold find at h
      rwa [if_neg (Nat.not_lt_of_le hi), if_neg hplain] at h
  · unfold find at h
    rw [if_pos (Nat.lt_of_not_le hi)] at h
    cases h

theorem find_attempted (h : find s p init = .ok (some m)) :
    ∃ is, items p = .ok is ∧ init ≤ m.start ∧ m.start ≤ s.size ∧ m.Attempted s is := by
  obtain ⟨hi, h⟩ := findMatch_of_find h
  unfold findMatch at h
  cases hread : items p with
  | error e =>
    rw [hread] at h
    cases h
  | ok is =>
    rw [hread] at h
    refine ⟨is, rfl, firstMatch_attempted (Item.endsLast_readAll hread) _ init Trail.empty ?_ rfl h⟩
    split <;> omega

/-! ## iterators -/

/-- What a scan finds: a match at one of its places that does not end where the last one ended. -/
theorem scan_attempted (hend : Item.EndsLast is) (n : Nat) : ∀ (i : Nat) (t : Trail),
    i + n ≤ s.size + 1 → t.slots.size = Trail.maxCaptures →
    ∀ a j u, Cursor.scan s is last i n t = .ok (some (a, j, u)) →
      i ≤ a ∧ a ≤ s.size ∧ some j ≠ last ∧
        ∃ t', t'.slots.size = Trail.maxCaptures ∧ attempt s is a t' = .matched j u := by
  induction n with
  | zero =>
    intro i t _ _ a j u h
    cases h
  | succ n ih =>
    intro i t hn ht a j u h
    have hi : i ≤ s.size := by omega
    rw [Cursor.scan] at h
    cases ha : attempt s is i t with
    | fault e =>
      rw [ha] at h
      cases h
    | failed v =>
      rw [ha] at h
      obtain ⟨hv, _⟩ := attempt_failed hend hi ht ha
      obtain ⟨h1, h2⟩ := ih (i + 1) v (by omega) hv a j u h
      exact ⟨by omega, h2⟩
    | matched k v =>
      rw [ha] at h
      dsimp only at h
      by_cases hk : some k = last
      · rw [if_pos hk] at h
        obtain ⟨hv, _⟩ := attempt_matched hend hi ht ha
        obtain ⟨h1, h2⟩ := ih (i + 1) v (by omega) hv a j u h
        exact ⟨by omega, h2⟩
      · rw [if_neg hk] at h
        cases h
        exact ⟨Nat.le_refl i, hi, hk, t, ht, ha⟩

/-- What one call of an iterator can do: it is at fault and stays where it was, it has come to the
end, or it has found a match at or after its place, which does not end where the last one ended, and
goes on where that one ends. -/
theorem next_cases (s p : Bytes) (c : Cursor) :
    (∃ e, c.next s p = (.error e, c)) ∨
    ∃ is, Item.readAll p.toList = .ok is ∧
      (c.next s p = (.ok none, { c with place := s.size + 1 }) ∨
        ∃ a j t u, c.place ≤ a ∧ a ≤ s.size ∧ some j ≠ c.last ∧
          t.slots.size = Trail.maxCaptures ∧ attempt s is a t = .matched j u ∧
          c.next s p = (u.captured.map fun cs => some ⟨a, j, cs⟩, ⟨j, some j⟩)) := by
  unfold Cursor.next
  cases hread : Item.readAll p.toList with
  | error e => exact .inl ⟨e, rfl⟩
  | ok is =>
    dsimp only
    cases hscan : Cursor.scan s is c.last c.place (s.size + 1 - c.place) Trail.empty with
    | error e => exact .inl ⟨e, rfl⟩
    | ok r =>
      refine .inr ⟨is, rfl, ?_⟩
      cases r with
      | none => exact .inl rfl
      | some r =>
        obtain ⟨a, j, u⟩ := r
        by_cases hplace : c.place ≤ s.size + 1
        · obtain ⟨h1, h2, h3, t, ht, ha⟩ := scan_attempted (Item.endsLast_readAll hread) _ c.place
            Trail.empty (by omega) rfl a j u hscan
          exact .inr ⟨a, j, t, u, h1, h2, h3, ht, ha, rfl⟩
        · -- past the end there is no place to scan
          rw [Nat.sub_eq_zero_of_le (by omega)] at hscan
          cases hscan

theorem next_attempted {c c' : Cursor} (h : c.next s p = (.ok (some m), c')) :
    ∃ is, Item.readAll p.toList = .ok is ∧ c.place ≤ m.start ∧ m.start ≤ s.size ∧
      m.Attempted s is := by
  rcases next_cases s p c with ⟨e, hn⟩ | ⟨is, hread, hn | ⟨a, j, t, u, h1, h2, _, ht, ha, hn⟩⟩
  · cases hn.symm.trans h
  · cases hn.symm.trans h
  · have hfound := congrArg Prod.fst (hn.symm.trans h)
    cases hc : u.captured with
    | error e =>
      rw [hc] at hfound
      cases hfound
    | ok cs =>
      rw [hc] at hfound
      cases hfound
      exact ⟨is, hread, h1, h2, t, u, ht, ha, hc⟩

/-! ## substitutions -/

theorem attempt_of_round {cs : List Captured} (h : round s is last i t = .found j u cs) :
    attempt s is i t = .matched j u ∧ u.captured = .ok cs := by
  unfold round at h
  cases ha : attempt s is i t with
  | fault e =>
    rw [ha] at h
    cases h
  | failed v =>
    rw [ha] at h
    cases h
  | matched k v =>
    rw [ha] at h
    dsimp only at h
    split at h
    · cases h
    · cases hc : v.captured with
      | error e =>
        rw [hc] at h
        cases h
      | ok ds =>
        rw [hc] at h
        cases h
        exact ⟨rfl, hc⟩

theorem occurrencesFrom_attempted {anchored : Bool} (hend : Item.EndsLast is) (fuel : Nat) :
    ∀ (limit : Option Nat) (t : Trail) (i : Nat) (last : Option Nat),
      t.slots.size = Trail.maxCaptures → i ≤ s.size →
      ∀ m ∈ (occurrencesFrom s is anchored fuel limit t i last).1,
        m.start ≤ s.size ∧ m.Attempted s is := by
  induction fuel with
  | zero =>
    intro limit t i last _ _ m hm
    cases hm
  | succ fuel ih =>
    intro limit t i last ht hi m hm
    by_cases hl : limit = some 0
    · rw [hl, occurrencesFrom_full] at hm
      cases hm
    rw [occurrencesFrom_succ hl] at hm
    have hright := right_round hend hi ht last
    cases hr : round s is last i t with
    | fault e =>
      rw [hr] at hm
      cases hm
    | pass u =>
      rw [hr] at hm hright
      cases hright with
      | pass hu =>
        dsimp only [Round.followed] at hm
        split at hm
        · rename_i hlt
          exact ih limit u (i + 1) last hu hlt.1 m hm
        · cases hm
    | found j u cs =>
      obtain ⟨ha, hc⟩ := attempt_of_round hr
      have hhere : Match.Attempted s is ⟨i, j, cs⟩ := ⟨t, u, ht, ha, hc⟩
      rw [hr] at hm hright
      cases hright with
      | found hu _ hfirst =>
        dsimp only [Round.followed] at hm
        split at hm
        · rw [List.mem_singleton.mp hm]
          exact ⟨hi, hhere⟩
        · rcases List.mem_cons.mp hm with rfl | hm
          · exact ⟨hi, hhere⟩
          · exact ih _ u j (some j) hu (hfirst.inside hi).stop_le m hm

theorem occurrences_attempted (hm : m ∈ (occurrences s p limit).1) :
    ∃ is, items p = .ok is ∧ m.start ≤ s.size ∧ m.Attempted s is := by
  cases hread : items p with
  | error e =>
    unfold occurrences at hm
    rw [hread] at hm
    cases hm
  | ok is =>
    rw [occurrences_eq hread] at hm
    exact ⟨is, rfl, occurrencesFrom_attempted (Item.endsLast_readAll hread) _ limit Trail.empty 0
      none rfl (Nat.zero_le _) m hm⟩

/-! ## all together -/

/-- **Matches and captures are well placed.**  A match that a search, an iterator or a substitution
reports lies in the subject, not before the place from which it was looked for; it has at most as many
captures as there are slots, as many as there are parentheses that begin one; they lie in the match
and are numbered as these parentheses are, their beginnings never going back. -/
theorem matches_well_placed (s p : Bytes) :
    (∀ init m, find s p init = .ok (some m) →
      ∃ is, items p = .ok is ∧ m.WellPlaced s p is init) ∧
    (∀ c c' m, Cursor.next s p c = (.ok (some m), c') →
      ∃ is, Item.readAll p.toList = .ok is ∧ m.WellPlaced s p is c.place) ∧
    (∀ limit, ∀ m ∈ (occurrences s p limit).1,
      ∃ is, items p = .ok is ∧ m.WellPlaced s p is 0) := by
  refine ⟨fun init m h => ?_, fun c c' m h => ?_, fun limit m hm => ?_⟩
  · obtain ⟨is, hread, hinit, hi, ha⟩ := find_attempted h
    obtain ⟨pp, hb⟩ := beginsAt_of_items hread
    exact ⟨is, hread, ha.wellPlaced hb (Item.endsLast_readAll hread) hinit hi⟩
  · obtain ⟨is, hread, hplace, hi, ha⟩ := next_attempted h
    exact ⟨is, hread, ha.wellPlaced (.inl ⟨rfl, hread⟩) (Item.endsLast_readAll hread) hplace hi⟩
  · obtain ⟨is, hread, hi, ha⟩ := occurrences_attempted hm
    obtain ⟨pp, hb⟩ := beginsAt_of_items hread
    exact ⟨is, hread, ha.wellPlaced hb (Item.endsLast_readAll hread) (Nat.zero_le _) hi⟩

/-- In `hello` the pattern `()(l(%(?l))` has three captures; its escaped parenthesis begins none. -/
theorem matches_well_placed_hello :
    let s : Bytes := #[0x68, 0x65, 0x6c, 0x6c, 0x6f]
    let p : Bytes := #[0x28, 0x29, 0x28, 0x6c, 0x28, 0x25, 0x28, 0x3f, 0x6c, 0x29, 0x29]
    let m : Match := ⟨2, 4, [.position 3, .span 2 4, .span 3 4]⟩
    captureSigns p = 3 ∧ (∃ is, items p = .ok is ∧ m.WellPlaced s p is 1) ∧
      (∃ is, Item.readAll p.toList = .ok is ∧ m.WellPlaced s p is 2) ∧
      ∃ is, items p = .ok is ∧ m.WellPlaced s p is 0 := by
  intro s p m
  obtain ⟨hfind, hnext, hmeet⟩ := matches_well_placed s p
  refine ⟨by decide +kernel, hfind 1 m (by decide +kernel), ?_, ?_⟩
  · exact hnext (Cursor.start 2) ⟨4, some 4⟩ m (by decide +kernel)
  · exact hmeet none m (by decide +kernel)

end Pattern

end LuaMachine
