import LuaMachine.Session

/-!
# Actions that leave the functions alone

No library function, script or loop replaces a function of the heap by another one.  The only
functions that change are iterators over the matches of a pattern, which keep their place, and
each of them only when it is called.

* `Heap.Retains`    every function stays what it is, iterators over matches apart;
* `Action.Spares`   what an action writes into a heap retains its functions;
* `Action.Steady`   the same for every heap;
* `Job.steady_body`   what a job does is steady.

An action that has control spares the functions of the heap that it sees.  Others may write while it
waits for a reply, so what it does with the reply is steady.
-/

namespace LuaMachine

/-- Whether a function has no state of its own. -/
def Function.Fixed : Function → Prop
  | .matches _ _ _ => False
  | _ => True

namespace Heap

variable {h h' h'' : Heap}

/-- Every function stays what it is, iterators over matches apart. -/
def Retains (h h' : Heap) : Prop :=
  ∀ (i : Nat) (g : Function), h.functions[i]? = some g → g.Fixed → h'.functions[i]? = some g

theorem Retains.refl (h : Heap) : h.Retains h := fun _ _ hg _ => hg

theorem Retains.trans (e : h.Retains h') (e' : h'.Retains h'') : h.Retains h'' :=
  fun i g hg hfix => e' i g (e i g hg hfix) hfix

theorem retains_of_functions_eq (e : h'.functions = h.functions) : h.Retains h' := by
  intro i g hg _
  rw [e, hg]

theorem retains_addFunction (h : Heap) (f : Function) : h.Retains (h.addFunction f) := by
  intro i g hg _
  obtain ⟨hi, _⟩ := Array.getElem?_eq_some_iff.mp hg
  show (h.functions.push f)[i]? = some g
  rw [Array.getElem?_push, if_neg (Nat.ne_of_lt hi), hg]

theorem function_of_getElem? {f : FunctionId} {g : Function} (hg : h.functions[f.index]? = some g) :
    h.function f = g := by
  unfold function
  rw [Array.getD_eq_getD_getElem?, hg]
  rfl

theorem retains_setFunction {f : FunctionId} (hf : ¬(h.function f).Fixed) (g : Function) :
    h.Retains (h.setFunction f g) := by
  intro i g' hg hfix
  show (h.functions.setIfInBounds f.index g)[i]? = some g'
  rw [Array.getElem?_setIfInBounds]
  split
  · rename_i hi
    subst hi
    rw [function_of_getElem? hg] at hf
    exact absurd hfix hf
  · exact hg

theorem Retains.function (e : h.Retains h') {f : FunctionId} {g : Function}
    (hf : h.function f = g) (hfix : g.Fixed) (hne : g ≠ default) : h'.function f = g := by
  cases hg : h.functions[f.index]? with
  | none =>
    unfold Heap.function at hf
    rw [Array.getD_eq_getD_getElem?, hg] at hf
    exact absurd hf.symm hne
  | some g' =>
    cases (function_of_getElem? hg).symm.trans hf
    exact function_of_getElem? (e f.index g hg hfix)

end Heap

namespace Action

variable {α β : Type}

/-- What an action writes into a heap retains the functions, up to where others may write; and so
does what it does after that. -/
def Spares : Action α → Heap → Prop
  | .done _, _ => True
  | .exit _, _ => True
  | .read k, h => (k h).Spares h
  | .write f k, h => h.Retains (f h) ∧ k.Spares (f h)
  | .run _ k, _ => ∀ r h, (k r).Spares h
  | .spawn _ k, h => ∀ c, (k c).Spares h
  | .resume _ _ k, _ => ∀ r h, (k r).Spares h
  | .yield _ k, _ => ∀ r h, (k r).Spares h
  | .inspect k, h => ∀ r, (k r).Spares h

/-- An action that retains the functions of every heap. -/
def Steady (a : Action α) : Prop := ∀ h, a.Spares h

theorem Spares.bind {a : Action α} {f : α → Action β} {h : Heap} (ha : a.Spares h)
    (hf : ∀ x, (f x).Steady) : (a.bind f).Spares h := by
  induction a generalizing h with
  | done x => exact hf x h
  | exit e => trivial
  | read k ih => exact ih h ha
  | write g k ih => exact ⟨ha.1, ih ha.2⟩
  | run j k ih => exact fun r h' => ih r (ha r h')
  | spawn g k ih => exact fun c => ih c (ha c)
  | resume c vs k ih => exact fun r h' => ih r (ha r h')
  | yield vs k ih => exact fun r h' => ih r (ha r h')
  | inspect k ih => exact fun r => ih r (ha r)

theorem Spares.guarded {a : Action (List Value)} {h : Heap} (ha : a.Spares h) :
    a.guarded.Spares h := by
  induction a generalizing h with
  | done x => trivial
  | exit e => cases e <;> trivial
  | read k ih => exact ih h ha
  | write g k ih => exact ⟨ha.1, ih ha.2⟩
  | run j k ih => exact fun r h' => ih r (ha r h')
  | spawn g k ih => exact fun c => ih c (ha c)
  | resume c vs k ih => exact fun r h' => ih r (ha r h')
  | yield vs k ih => exact fun r h' => ih r (ha r h')
  | inspect k ih => exact fun r => ih r (ha r)

theorem Spares.asTurn {a : Action (List Value)} {h : Heap} (ha : a.Spares h) : a.asTurn.Spares h :=
  ha.bind fun _ _ => trivial

/-! ## the operations of actions -/

@[grind ←]
theorem Steady.bind {a : Action α} {f : α → Action β} (ha : a.Steady) (hf : ∀ x, (f x).Steady) :
    (a >>= f).Steady := fun h => (ha h).bind hf

@[grind ←]
theorem Steady.map {a : Action α} (ha : a.Steady) (f : α → β) : (f <$> a).Steady :=
  fun h => (ha h).bind fun _ _ => trivial

@[grind ←]
theorem Steady.discard {a : Action α} (ha : a.Steady) : (discard a).Steady :=
  fun h => (ha h).bind fun _ _ => trivial

@[grind ←]
theorem Steady.guarded {a : Action (List Value)} (ha : a.Steady) : a.guarded.Steady :=
  fun h => (ha h).guarded

@[grind ←]
theorem steady_pure (x : α) : (pure x : Action α).Steady := fun _ => trivial

@[grind ←]
theorem steady_done (x : α) : (done x).Steady := fun _ => trivial

@[grind ←]
theorem steady_exit (e : Exit) : (exit e : Action α).Steady := fun _ => trivial

@[grind ←]
theorem steady_fail (f : Failure) : (fail f : Action α).Steady := fun _ => trivial

@[grind ←]
theorem steady_complain (c : Complaint) : (complain c : Action α).Steady := fun _ => trivial

@[grind ←]
theorem steady_ofExcept (e : Except Failure α) : (ofExcept e).Steady := by
  intro h
  cases e <;> trivial

@[grind ←]
theorem steady_liftM (e : Except Failure α) : (liftM e : Action α).Steady := steady_ofExcept e

@[grind ←]
theorem steady_ofReply (r : Reply) : (ofReply r).Steady := by
  intro h
  cases r <;> trivial

@[grind ←]
theorem steady_heap : heap.Steady := fun _ => trivial

@[grind ←]
theorem steady_roster : roster.Steady := fun _ _ => trivial

@[grind ←]
theorem steady_table (t : TableId) : (table t).Steady := fun _ => trivial

@[grind ←]
theorem steady_metamethod? (v : Value) (m : Metamethod) : (metamethod? v m).Steady :=
  fun _ => trivial

theorem steady_update {f : Heap → Heap} (hf : ∀ h, (f h).functions = h.functions) :
    (update f).Steady := fun h => ⟨Heap.retains_of_functions_eq (hf h), trivial⟩

@[grind ←]
theorem steady_modifyTable (t : TableId) (f : Table → Table) : (modifyTable t f).Steady :=
  steady_update fun _ => rfl

@[grind ←]
theorem steady_newTable (t : Table) : (newTable t).Steady :=
  fun _ => ⟨Heap.retains_of_functions_eq rfl, trivial⟩

@[grind ←]
theorem steady_newFunction (f : Function) : (newFunction f).Steady :=
  fun h => ⟨h.retains_addFunction f, trivial⟩

@[grind ←]
theorem steady_rawSet (t : TableId) (key v : Value) : (rawSet t key v).Steady := by
  unfold rawSet
  grind

@[grind ←]
theorem steady_insertAt (t : TableId) (position : Int64) (v : Value) :
    (insertAt t position v).Steady := by
  unfold insertAt
  grind

@[grind ←]
theorem steady_removeAt (t : TableId) (position : Int64) : (removeAt t position).Steady := by
  unfold removeAt
  grind

@[grind ←]
theorem steady_perform (j : Job) : (perform j).Steady := fun _ r h => steady_ofReply r h

@[grind ←]
theorem steady_callFunction (f : FunctionId) (vs : List Value) : (callFunction f vs).Steady :=
  steady_perform _

@[grind ←]
theorem steady_create (f : FunctionId) : (create f).Steady := fun _ _ => trivial

@[grind ←]
theorem steady_resumeThread (c : ThreadId) (vs : List Value) : (resumeThread c vs).Steady :=
  fun _ r h => steady_ofReply r h

@[grind ←]
theorem steady_yieldValues (vs : List Value) : (yieldValues vs).Steady :=
  fun _ r h => steady_ofReply r h

@[grind ←]
theorem steady_foldlM {f : β → α → Action β} (hf : ∀ b a, (f b a).Steady) (l : List α) (b : β) :
    (l.foldlM f b).Steady := by
  induction l generalizing b with
  | nil => exact steady_pure b
  | cons a l ih =>
    rw [List.foldlM_cons]
    exact (hf b a).bind ih

theorem steady_mapM_loop {f : α → Action β} {l : List α} (hf : ∀ a ∈ l, (f a).Steady)
    (bs : List β) : (List.mapM.loop f l bs).Steady := by
  induction l generalizing bs with
  | nil => exact steady_pure _
  | cons a l ih =>
    exact (hf a List.mem_cons_self).bind fun b =>
      ih (fun a' ha' => hf a' (List.mem_cons_of_mem _ ha')) (b :: bs)

theorem steady_mapM {f : α → Action β} {l : List α} (hf : ∀ a ∈ l, (f a).Steady) :
    (l.mapM f).Steady := steady_mapM_loop hf []

/-! ## calls, fields, comparisons, texts -/

@[grind ←]
theorem steady_call (v : Value) (vs : List Value) : (call v vs).Steady := by
  unfold call
  grind

@[grind ←]
theorem steady_callFirst (v : Value) (vs : List Value) : (callFirst v vs).Steady := by
  unfold callFirst
  grind

@[grind ←]
theorem steady_index (v key : Value) : (index v key).Steady := by
  unfold index
  grind

@[grind ←]
theorem steady_newIndex (v key x : Value) : (newIndex v key x).Steady := by
  unfold newIndex
  grind

@[grind ←]
theorem steady_length (v : Value) : (length v).Steady := by
  unfold length
  grind

@[grind ←]
theorem steady_compareBy (m : Metamethod) (a b : Value) : (compareBy m a b).Steady := by
  unfold compareBy
  grind

@[grind ←]
theorem steady_equal (a b : Value) : (equal a b).Steady := by
  unfold equal
  grind

@[grind ←]
theorem steady_less (a b : Value) : (less a b).Steady := by
  unfold less
  grind

@[grind ←]
theorem steady_lessEqual (a b : Value) : (lessEqual a b).Steady := by
  unfold lessEqual
  grind

@[grind ←]
theorem steady_concat (a b : Value) : (concat a b).Steady := by
  unfold concat
  grind

@[grind ←]
theorem steady_concatAll (vs : List Value) : (concatAll vs).Steady := by
  unfold concatAll
  grind

@[grind ←]
theorem steady_tostring (v : Value) : (tostring v).Steady := by
  unfold tostring
  grind

@[grind ←]
theorem steady_pairs (v : Value) : (pairs v).Steady := by
  unfold pairs
  grind

@[grind ←]
theorem steady_ipairs (v : Value) : (ipairs v).Steady := by
  unfold ipairs
  grind

@[grind ←]
theorem steady_nextEntry (t : TableId) (key : Value) : (nextEntry t key).Steady := by
  unfold nextEntry
  grind

@[grind ←]
theorem steady_ipairsStep (vs : List Value) : (ipairsStep vs).Steady := by
  unfold ipairsStep
  grind

theorem steady_eachRound (iterator state control body : Value) :
    (eachRound iterator state control body).Steady := by
  unfold eachRound
  grind

end Action

/-! ## the libraries -/

namespace Library

open LuaMachine.Action

@[grind ←]
theorem Base.steady_tostring (vs : List Value) : (Base.tostring vs).Steady := by
  unfold Base.tostring
  grind

@[grind ←]
theorem Base.steady_pairs (vs : List Value) : (Base.pairs vs).Steady := by
  unfold Base.pairs
  grind

@[grind ←]
theorem Base.steady_ipairs (vs : List Value) : (Base.ipairs vs).Steady := by
  unfold Base.ipairs
  grind

@[grind ←]
theorem Base.steady_next (vs : List Value) : (Base.next vs).Steady := by
  unfold Base.next
  grind

@[grind ←]
theorem Base.steady_rawget (vs : List Value) : (Base.rawget vs).Steady := by
  unfold Base.rawget
  grind

@[grind ←]
theorem Base.steady_rawset (vs : List Value) : (Base.rawset vs).Steady := by
  unfold Base.rawset
  grind

@[grind ←]
theorem Base.steady_rawlen (vs : List Value) : (Base.rawlen vs).Steady := by
  unfold Base.rawlen
  grind

@[grind ←]
theorem Base.steady_setmetatable (vs : List Value) : (Base.setmetatable vs).Steady := by
  unfold Base.setmetatable
  refine (steady_liftM _).bind fun t => ?_
  split <;> grind

@[grind ←]
theorem Base.steady_getmetatable (vs : List Value) : (Base.getmetatable vs).Steady := by
  unfold Base.getmetatable
  grind

@[grind ←]
theorem Base.steady_pcall (vs : List Value) : (Base.pcall vs).Steady := by
  unfold Base.pcall
  grind

@[grind ←]
theorem Text.steady_gmatch (vs : List Value) : (Text.gmatch vs).Steady := by
  unfold Text.gmatch
  grind

/-- An iterator over matches moves on, and nothing else of the functions changes. -/
theorem Text.spares_nextMatch {h : Heap} {f : FunctionId} (hf : ¬(h.function f).Fixed) (s p : Bytes)
    (c : Cursor) : (Text.nextMatch f s p c).Spares h := by
  refine ⟨Heap.retains_setFunction hf _, (steady_liftM _).bind (fun found => ?_) _⟩
  cases found with
  | some m => exact steady_pure _
  | none => exact steady_pure _

@[grind ←]
theorem Text.steady_replace (s : Bytes) (v : Value) (m : Match) : (Text.replace s v m).Steady := by
  unfold Text.replace
  grind

theorem Text.steady_substituteFrom {fault : PatternError → Action (Bytes × Nat)}
    {replace : Match → Action (Option Bytes)} (hfault : ∀ e, (fault e).Steady)
    (hreplace : ∀ m, (replace m).Steady) (s : Bytes) (is : List Item) (anchored : Bool)
    (limit : Option Nat) (rounds : Nat) (d : Draft) :
    (Pattern.substituteFrom fault replace s is anchored limit rounds d).Steady := by
  induction rounds generalizing d with
  | zero => exact steady_pure _
  | succ rounds ih =>
    unfold Pattern.substituteFrom
    grind

@[grind ←]
theorem Text.steady_gsub (vs : List Value) : (Text.gsub vs).Steady := by
  have hsubstitute : ∀ (s p : Bytes) (v : Value) (limit : Option Nat), (do
      let x ← Pattern.substituteBy (fun e => fail (.pattern e)) (Text.replace s v) s p limit
      return [Value.string x.1, Value.count x.2]).Steady := by
    intro s p v limit
    refine Steady.bind ?_ fun x => steady_pure _
    unfold Pattern.substituteBy
    split
    · exact steady_fail _
    · exact Text.steady_substituteFrom (fun e => steady_fail _) (Text.steady_replace s v) s _ _ _ _ _
  unfold Text.gsub
  refine (steady_liftM _).bind fun s => (steady_liftM _).bind fun p => ?_
  generalize Value.nth vs 2 = v
  split
  · cases v <;> first | exact hsubstitute s p _ none | exact steady_fail _
  · refine (steady_liftM _).bind fun n => ?_
    cases v <;> first | exact hsubstitute s p _ _ | exact steady_fail _

@[grind ←]
theorem Sequence.steady_lengthOf (t : TableId) (f : String) : (Sequence.lengthOf t f).Steady := by
  unfold Sequence.lengthOf
  grind

@[grind ←]
theorem Sequence.steady_integerOrLength (vs : List Value) (i : Nat) (t : TableId) (f : String) :
    (Sequence.integerOrLength vs i t f).Steady := by
  unfold Sequence.integerOrLength
  grind

@[grind ←]
theorem Sequence.steady_fieldsThrough (t : Value) (last k : Int64) (before : List Value) :
    (Sequence.fieldsThrough t last k before).Steady := by
  fun_induction Sequence.fieldsThrough t last k before with
  | case1 k before _ ih => exact (steady_index _ _).bind ih
  | case2 before _ => exact (steady_index _ _).bind fun v => steady_pure _
  | case3 k before _ _ => exact steady_pure _

@[grind ←]
theorem Sequence.steady_joinFrom (t : Value) (sep : Bytes) (i : Int) (written : Bytes) (n : Nat) :
    (Sequence.joinFrom t sep i written n).Steady := by
  induction n generalizing i written with
  | zero => exact steady_pure _
  | succ n ih =>
    unfold Sequence.joinFrom
    grind

@[grind ←]
theorem Sequence.steady_concat (vs : List Value) : (Sequence.concat vs).Steady := by
  unfold Sequence.concat
  grind

@[grind ←]
theorem Sequence.steady_insert (vs : List Value) : (Sequence.insert vs).Steady := by
  unfold Sequence.insert
  grind

@[grind ←]
theorem Sequence.steady_remove (vs : List Value) : (Sequence.remove vs).Steady := by
  unfold Sequence.remove
  grind

@[grind ←]
theorem Sequence.steady_pack (vs : List Value) : (Sequence.pack vs).Steady := by
  unfold Sequence.pack
  grind

@[grind ←]
theorem Sequence.steady_unpack (vs : List Value) : (Sequence.unpack vs).Steady := by
  unfold Sequence.unpack
  grind

section
variable {α : Type} {less : α → α → Action Bool}

theorem Sequence.steady_mergeAt (hless : ∀ a b, (less a b).Steady) (vs : Array α) {mid stop : Nat}
    (hmid : mid ≤ vs.size) (hstop : stop ≤ vs.size) (l r : Nat) (merged : Array α) :
    (Sequence.mergeAt less vs hmid hstop l r merged).Steady := by
  fun_induction Sequence.mergeAt less vs hmid hstop l r merged with
  | case1 l r merged h ihr ihl =>
    refine (hless _ _).bind fun b => ?_
    cases b
    · exact ihl
    · exact ihr
  | case2 l r merged _ => exact steady_pure _

theorem Sequence.steady_mergePass (hless : ∀ a b, (less a b).Steady) (vs : Array α) {width : Nat}
    (hw : 0 < width) (start : Nat) (merged : Array α) :
    (Sequence.mergePass less vs hw start merged).Steady := by
  fun_induction Sequence.mergePass less vs hw start merged with
  | case1 start merged _ mid stop ih =>
    exact (Sequence.steady_mergeAt hless vs _ _ start mid merged).bind ih
  | case2 start merged _ => exact steady_pure _

theorem Sequence.steady_sortWidths (hless : ∀ a b, (less a b).Steady) (len : Nat) {width : Nat}
    (hw : 0 < width) (vs : Array α) : (Sequence.sortWidths less len hw vs).Steady := by
  fun_induction Sequence.sortWidths less len hw vs with
  | case1 width hw vs _ ih => exact (Sequence.steady_mergePass hless vs hw 0 #[]).bind ih
  | case2 width hw vs _ => exact steady_pure _

end

@[grind ←]
theorem Sequence.steady_comparison (f : Option FunctionId) (a b : Value) :
    (Sequence.comparison f a b).Steady := by
  unfold Sequence.comparison
  grind

@[grind ←]
theorem Sequence.steady_sort (vs : List Value) : (Sequence.sort vs).Steady := by
  have hsorted : ∀ f vs, (Sequence.sorted (Sequence.comparison f) vs).Steady :=
    fun f vs => (Sequence.steady_sortWidths (Sequence.steady_comparison f) _ _ _).bind
      fun _ => steady_pure _
  unfold Sequence.sort
  grind

@[grind ←]
theorem Coroutines.steady_create (vs : List Value) : (Coroutines.create vs).Steady := by
  unfold Coroutines.create
  grind

@[grind ←]
theorem Coroutines.steady_wrapped (f : FunctionId) : (Coroutines.wrapped f).Steady := by
  unfold Coroutines.wrapped
  grind

@[grind ←]
theorem Coroutines.steady_wrap (vs : List Value) : (Coroutines.wrap vs).Steady := by
  unfold Coroutines.wrap
  grind

@[grind ←]
theorem Coroutines.steady_resume (vs : List Value) : (Coroutines.resume vs).Steady := by
  unfold Coroutines.resume
  grind

@[grind ←]
theorem Coroutines.steady_status (vs : List Value) : (Coroutines.status vs).Steady := by
  unfold Coroutines.status
  grind

@[grind ←]
theorem Coroutines.steady_running (vs : List Value) : (Coroutines.running vs).Steady := by
  unfold Coroutines.running
  grind

@[grind ←]
theorem Coroutines.steady_isyieldable (vs : List Value) : (Coroutines.isyieldable vs).Steady := by
  unfold Coroutines.isyieldable
  grind

end Library

/-- **No library function changes a function.** -/
theorem Builtin.steady_run (b : Builtin) (vs : List Value) : (b.run vs).Steady := by
  unfold Builtin.run
  cases b <;> grind [Library.Coroutines.yield]

/-! ## scripts -/

namespace TableMethod
open LuaMachine.Action

@[grind ←]
theorem steady_run (m : TableMethod) (t : TableId) (vs : List Value) : (m.run t vs).Steady := by
  unfold TableMethod.run Action.setMetatable
  grind

end TableMethod

namespace Action

@[grind ←]
theorem steady_lookupPath (path : List String) : (lookupPath path).Steady :=
  steady_foldlM (fun v name => steady_index v (.text name)) path _

@[grind ←]
theorem steady_callPath (path : List String) (vs : List Value) : (callPath path vs).Steady := by
  unfold callPath
  grind

@[grind ←]
theorem steady_record (vs : List Value) : (record vs).Steady :=
  steady_roster.bind fun _ => steady_update fun _ => rfl

end Action

namespace Operation
open LuaMachine.Action

@[grind ←]
theorem steady_run (op : Operation) (vs : List Value) : (op.run vs).Steady := by
  unfold Operation.run
  cases op <;> grind [Action.indexName]

end Operation

namespace Action

@[grind ←]
theorem Steady.one {a : Action (List Value)} (ha : a.Steady) : a.one.Steady := by
  unfold Action.one
  grind

@[grind ←]
theorem steady_sequence {as : List (Action (List Value))} (ha : ∀ a ∈ as, a.Steady) :
    (sequence as).Steady := by
  fun_induction sequence as with
  | case1 => exact steady_pure _
  | case2 a => exact ha a List.mem_cons_self
  | case3 a as _ ih =>
    exact (ha a List.mem_cons_self).bind fun _ => ih fun b hb => ha b (List.mem_cons_of_mem _ hb)

@[grind ←]
theorem steady_argumentList {as : List (Action (List Value))} (ha : ∀ a ∈ as, a.Steady) :
    (argumentList as).Steady := by
  fun_induction argumentList as with
  | case1 => exact steady_pure _
  | case2 a => exact ha a List.mem_cons_self
  | case3 a as _ ih =>
    have := ih fun b hb => ha b (List.mem_cons_of_mem _ hb)
    exact (ha a List.mem_cons_self).one.bind fun _ => this.bind fun _ => steady_pure _

@[grind ←]
theorem steady_oneOfEach {as : List (Action (List Value))} (ha : ∀ a ∈ as, a.Steady) :
    (oneOfEach as).Steady := steady_mapM fun a h => (ha a h).one

@[grind ←]
theorem steady_storeEach (t : TableId) {ks vs : List (Action (List Value))}
    (hk : ∀ a ∈ ks, a.Steady) (hv : ∀ a ∈ vs, a.Steady) : (storeEach t (ks.zip vs)).Steady := by
  induction ks generalizing vs with
  | nil => exact steady_pure _
  | cons k ks ih =>
    cases vs with
    | nil => exact steady_pure _
    | cons v vs =>
      have hrest := ih (fun a ha => hk a (List.mem_cons_of_mem _ ha))
        (fun a ha => hv a (List.mem_cons_of_mem _ ha))
      refine (hk k List.mem_cons_self).one.bind fun _ => ?_
      refine (hv v List.mem_cons_self).one.bind fun _ => ?_
      exact (steady_rawSet _ _ _).bind fun _ => hrest

@[grind ←]
theorem steady_countUp (frame : Nat) (name : String) {body : Action (List Value)}
    (hb : body.Steady) (i : Int) (n : Nat) : (countUp frame name body i n).Steady := by
  induction n generalizing i with
  | zero => exact steady_pure _
  | succ n ih =>
    refine (steady_update ?_).bind fun _ => hb.bind fun _ => ih _
    exact fun _ => rfl

end Action

namespace Expr
open LuaMachine.Action

mutual

theorem steady_eval (s : Scope) : ∀ e : Expr, (eval s e).Steady
  | .literal v => steady_pure _
  | .getShared name => fun _ => trivial
  | .setShared name e => by
    have he := steady_eval s e
    unfold eval
    refine he.one.bind fun v => (steady_update ?_).bind fun _ => steady_pure _
    exact fun _ => rfl
  | .getLocal name => fun _ => trivial
  | .setLocal name e => by
    have he := steady_eval s e
    unfold eval
    refine he.one.bind fun v => (steady_update ?_).bind fun _ => steady_pure _
    exact fun _ => rfl
  | .arguments => steady_pure _
  | .argument i => steady_pure _
  | .table items keys values => by
    have hi := steady_evalEach s items
    have hk := steady_evalEach s keys
    have hv := steady_evalEach s values
    unfold eval
    grind
  | .function body => by
    unfold eval
    grind
  | .apply op single rest => by
    have h1 := steady_evalEach s single
    have h2 := steady_evalEach s rest
    unfold eval
    grind
  | .each e f => by
    have he := steady_eval s e
    have hf := steady_eval s f
    unfold eval
    grind
  | .and a b => by
    have ha := steady_eval s a
    have hb := steady_eval s b
    unfold eval
    grind
  | .or a b => by
    have ha := steady_eval s a
    have hb := steady_eval s b
    unfold eval
    grind
  | .sequence es => by
    have he := steady_evalEach s es
    unfold eval
    grind
  | .branch condition yes no => by
    have hc := steady_eval s condition
    have hy := steady_eval s yes
    have hn := steady_eval s no
    unfold eval
    grind
  | .whileLoop condition body => by
    unfold eval
    grind
  | .forLoop name start stop body => by
    have hi := steady_eval s start
    have hj := steady_eval s stop
    have hb := steady_evalEach s body
    unfold eval
    grind

theorem steady_evalEach (s : Scope) : ∀ (es : List Expr), ∀ a ∈ evalEach s es, a.Steady
  | [], a, ha => absurd ha List.not_mem_nil
  | e :: es, a, ha => by
    rcases List.mem_cons.mp ha with rfl | ha
    · exact steady_eval s e
    · exact steady_evalEach s es a ha

end

theorem steady_evalAll (s : Scope) (es : List Expr) : (evalAll s es).Steady :=
  steady_sequence (steady_evalEach s es)

theorem steady_invoke (body : List Expr) (vs : List Value) : (invoke body vs).Steady :=
  fun _ => ⟨Heap.retains_of_functions_eq rfl, steady_evalAll _ body _⟩

theorem steady_whileRound (condition : Expr) (body : List Expr) (s : Scope) :
    (whileRound condition body s).Steady := by
  have hc := steady_eval s condition
  have hb := steady_evalAll s body
  unfold whileRound
  grind

end Expr

/-- **No job changes a function**, except that an iterator over matches moves on. -/
theorem Job.steady_body (j : Job) : j.body.Steady := by
  cases j with
  | function f vs =>
    intro h
    apply Action.Spares.asTurn
    cases hf : h.function f with
    | builtin b => exact b.steady_run vs h
    | script body => exact Expr.steady_invoke body vs h
    | wrapper c => exact Action.steady_resumeThread c vs h
    | «matches» s p c => exact Library.Text.spares_nextMatch (by rw [hf]; exact id) s p c
  | whileLoop condition body s => exact Expr.steady_whileRound condition body s
  | each iterator state control body => exact Action.steady_eachRound iterator state control body

end LuaMachine
