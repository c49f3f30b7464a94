import GraphQuery.Proofs.Success
import Mathlib.Data.Finset.Card
import Mathlib.Data.List.Perm.Basic

/-! Traversals that go from fragment to fragment by name. What a traversal does at one item is
told apart from the way it takes, and a run of it is as long as its way: nothing cuts it short,
and there is no run where the way has no end. A traversal ends, and enters no fragment twice, if
it keeps in mind which fragments it has entered. -/

namespace GraphQuery

/-- What is gone through in the place of an item: items inside it, or the body of a fragment. -/
structure Excursion (ι σ : Type) where
  /-- The name of the fragment, if it is the body of one. -/
  fragment : Option String
  /-- The fragments that have been entered there. -/
  entered : List String
  items : List ι
  start : σ
  /-- How to go on from the state that is reached. -/
  finish : σ → σ

inductive Move (ι σ ε : Type) where
  | fail (fault : ε)
  | pass (state : σ)
  | enter (excursion : Excursion ι σ)

abbrev Traversal (ι σ ε : Type) := List String → σ → ι → Move ι σ ε

namespace Traversal

open scoped List

variable {ι σ ε : Type} {visit : Traversal ι σ ε} {seen : List String → σ → List String}
  {known : List String} {size : ι → Nat} {entered names : List String} {items : List ι}
  {state final : σ} {result : Except ε σ}

/-! ## Runs -/

/-- Items are gone through one after the other, and every excursion to its end. The names are
those of the fragments whose bodies are entered, in order. -/
inductive Run (visit : Traversal ι σ ε) :
    List String → List ι → σ → List String → Except ε σ → Prop where
  | done {entered : List String} {state : σ} : Run visit entered [] state [] (.ok state)
  | fail {entered : List String} {item : ι} {rest : List ι} {state : σ} {fault : ε}
      (here : visit entered state item = .fail fault) :
      Run visit entered (item :: rest) state [] (.error fault)
  | pass {entered : List String} {item : ι} {rest : List ι} {state next : σ}
      {names : List String} {result : Except ε σ}
      (here : visit entered state item = .pass next)
      (others : Run visit entered rest next names result) :
      Run visit entered (item :: rest) state names result
  | broken {entered : List String} {item : ι} {rest : List ι} {state : σ}
      {excursion : Excursion ι σ} {names : List String} {fault : ε}
      (here : visit entered state item = .enter excursion)
      (inside : Run visit excursion.entered excursion.items excursion.start names
        (.error fault)) :
      Run visit entered (item :: rest) state (excursion.fragment.toList ++ names) (.error fault)
  | enter {entered : List String} {item : ι} {rest : List ι} {state inner : σ}
      {excursion : Excursion ι σ} {names more : List String} {result : Except ε σ}
      (here : visit entered state item = .enter excursion)
      (inside : Run visit excursion.entered excursion.items excursion.start names (.ok inner))
      (others : Run visit entered rest (excursion.finish inner) more result) :
      Run visit entered (item :: rest) state (excursion.fragment.toList ++ names ++ more) result

/-- There is but one way to go. -/
theorem Run.unique (run : Run visit entered items state names result) {others : List String}
    {other : Except ε σ} (again : Run visit entered items state others other) :
    others = names ∧ other = result := by
  induction run generalizing others other with
  | done =>
      cases again
      exact ⟨rfl, rfl⟩
  | fail here =>
      cases again with
      | fail there =>
          cases here.symm.trans there
          exact ⟨rfl, rfl⟩
      | pass there => cases here.symm.trans there
      | broken there => cases here.symm.trans there
      | enter there => cases here.symm.trans there
  | pass here _ rest =>
      cases again with
      | fail there => cases here.symm.trans there
      | pass there again =>
          cases here.symm.trans there
          exact rest again
      | broken there => cases here.symm.trans there
      | enter there => cases here.symm.trans there
  | broken here _ within =>
      cases again with
      | fail there => cases here.symm.trans there
      | pass there => cases here.symm.trans there
      | broken there again =>
          cases here.symm.trans there
          obtain ⟨rfl, same⟩ := within again
          cases same
          exact ⟨rfl, rfl⟩
      | enter there again =>
          cases here.symm.trans there
          cases (within again).2
  | enter here _ _ within rest =>
      cases again with
      | fail there => cases here.symm.trans there
      | pass there => cases here.symm.trans there
      | broken there again =>
          cases here.symm.trans there
          cases (within again).2
      | enter there again further =>
          cases here.symm.trans there
          obtain ⟨rfl, same⟩ := within again
          cases same
          obtain ⟨rfl, rfl⟩ := rest further
          exact ⟨rfl, rfl⟩

/-! ## Keeping in mind what has been entered -/

def weight (size : ι → Nat) : List ι → Nat
  | [] => 0
  | item :: rest => size item + 1 + weight size rest

/-- An excursion from an item, with a memory of the names of all fragments that have been
entered. -/
structure Remembered (seen : List String → σ → List String) (known : List String)
    (size : ι → Nat) (entered : List String) (state : σ) (item : ι)
    (excursion : Excursion ι σ) : Prop where
  /-- No fragment is entered that has been entered before. -/
  fresh : ∀ name ∈ excursion.fragment, name ∉ seen entered state
  start : seen excursion.entered excursion.start ~ excursion.fragment.toList ++ seen entered state
  finish : ∀ inner, seen excursion.entered excursion.start ⊆ seen excursion.entered inner →
    seen entered (excursion.finish inner) ~ seen excursion.entered inner
  /-- The way leads further into the item, or to a fragment that is known. -/
  near : (∃ name ∈ excursion.fragment, name ∈ known) ∨ weight size excursion.items ≤ size item

theorem Remembered.into {item : ι} {excursion : Excursion ι σ}
    (none : excursion.fragment = none) (same : excursion.entered = entered)
    (start : seen entered excursion.start = seen entered state)
    (finish : ∀ inner, seen entered (excursion.finish inner) = seen entered inner)
    (near : weight size excursion.items ≤ size item) :
    Remembered seen known size entered state item excursion where
  fresh := by simp [none]
  start := by rw [none, same, start, Option.toList_none, List.nil_append]
  finish := fun inner _ => by rw [same, finish]
  near := .inr near

def Guards (seen : List String → σ → List String) (known : List String) (size : ι → Nat)
    (entered : List String) (state : σ) (item : ι) : Move ι σ ε → Prop
  | .fail _ => True
  | .pass next => seen entered next ~ seen entered state
  | .enter excursion => Remembered seen known size entered state item excursion

def Guarded (visit : Traversal ι σ ε) (seen : List String → σ → List String)
    (known : List String) (size : ι → Nat) : Prop :=
  ∀ entered state item, Guards seen known size entered state item (visit entered state item)

section Guarded

variable (guarded : Guarded visit seen known size) {item : ι} {excursion : Excursion ι σ}
include guarded

theorem Guarded.pass {next : σ} (here : visit entered state item = .pass next) :
    seen entered next ~ seen entered state := by
  have guards := guarded entered state item
  rwa [here] at guards

theorem Guarded.enter (here : visit entered state item = .enter excursion) :
    Remembered seen known size entered state item excursion := by
  have guards := guarded entered state item
  rwa [here] at guards

theorem Guarded.subset_start (here : visit entered state item = .enter excursion) :
    seen entered state ⊆ seen excursion.entered excursion.start :=
  fun _ member => (guarded.enter here).start.mem_iff.mpr (List.mem_append_right _ member)

theorem Guarded.perm_finish (here : visit entered state item = .enter excursion) {inner : σ}
    (inside : seen excursion.entered inner ~ names ++ seen excursion.entered excursion.start) :
    seen entered (excursion.finish inner) ~
      excursion.fragment.toList ++ names ++ seen entered state := by
  have kept : seen excursion.entered excursion.start ⊆ seen excursion.entered inner :=
    fun _ member => inside.mem_iff.mpr (List.mem_append_right _ member)
  calc seen entered (excursion.finish inner)
    _ ~ seen excursion.entered inner := (guarded.enter here).finish inner kept
    _ ~ names ++ seen excursion.entered excursion.start := inside
    _ ~ names ++ (excursion.fragment.toList ++ seen entered state) :=
      (guarded.enter here).start.append_left _
    _ ~ excursion.fragment.toList ++ (names ++ seen entered state) :=
      List.perm_append_comm_assoc _ _ _
    _ = excursion.fragment.toList ++ names ++ seen entered state :=
      (List.append_assoc _ _ _).symm

theorem Run.remembers (run : Run visit entered items state names (.ok final)) :
    seen entered final ~ names ++ seen entered state := by
  generalize ended : Except.ok final = result at run
  induction run generalizing final with
  | done =>
      cases ended
      exact .refl _
  | fail => cases ended
  | pass here _ rest => exact (rest ended).trans ((guarded.pass here).append_left _)
  | broken => cases ended
  | @enter entered _ _ state inner excursion names more _ here _ _ within rest =>
      calc seen entered final
        _ ~ more ++ seen entered (excursion.finish inner) := rest ended
        _ ~ more ++ (excursion.fragment.toList ++ names ++ seen entered state) :=
          (guarded.perm_finish here (within rfl)).append_left _
        _ ~ excursion.fragment.toList ++ names ++ (more ++ seen entered state) :=
          List.perm_append_comm_assoc _ _ _
        _ = excursion.fragment.toList ++ names ++ more ++ seen entered state :=
          (List.append_assoc _ _ _).symm

theorem Guarded.subset_finish (here : visit entered state item = .enter excursion) {inner : σ}
    (inside : Run visit excursion.entered excursion.items excursion.start names (.ok inner)) :
    seen entered state ⊆ seen entered (excursion.finish inner) :=
  fun _ member => (guarded.perm_finish here (inside.remembers guarded)).mem_iff.mpr
    (List.mem_append_right _ member)

theorem Guarded.nodup_inside (here : visit entered state item = .enter excursion)
    (distinct : names.Nodup)
    (apart : names.Disjoint (seen excursion.entered excursion.start)) :
    (excursion.fragment.toList ++ names).Nodup ∧
      (excursion.fragment.toList ++ names).Disjoint (seen entered state) := by
  have fresh : excursion.fragment.toList.Disjoint (seen entered state) :=
    fun name member => (guarded.enter here).fresh name (Option.mem_toList.mp member)
  have entering : excursion.fragment.toList.Disjoint names := fun name member inside =>
    apart inside ((guarded.enter here).start.mem_iff.mpr (List.mem_append_left _ member))
  exact ⟨List.nodup_append'.mpr ⟨Option.toList_nodup _, distinct, entering⟩,
    List.disjoint_append_left.mpr ⟨fresh, fun name member before =>
      apart member (guarded.subset_start here before)⟩⟩

theorem Run.nodup (run : Run visit entered items state names result) :
    names.Nodup ∧ names.Disjoint (seen entered state) := by
  induction run with
  | done => exact ⟨.nil, List.disjoint_nil_left _⟩
  | fail => exact ⟨.nil, List.disjoint_nil_left _⟩
  | pass here _ rest =>
      exact ⟨rest.1, fun name member before =>
        rest.2 member ((guarded.pass here).mem_iff.mpr before)⟩
  | broken here _ within => exact guarded.nodup_inside here within.1 within.2
  | enter here inside _ within rest =>
      obtain ⟨distinct, apart⟩ := guarded.nodup_inside here within.1 within.2
      have back := guarded.perm_finish here (inside.remembers guarded)
      refine ⟨List.nodup_append'.mpr ⟨distinct, rest.1, fun name member later => ?_⟩,
        List.disjoint_append_left.mpr ⟨apart, fun name later before => ?_⟩⟩
      · exact rest.2 later (back.mem_iff.mpr (List.mem_append_left _ member))
      · exact rest.2 later (back.mem_iff.mpr (List.mem_append_right _ before))

end Guarded

/-! ## Coming to an end -/

def unseen (known seen : List String) : Nat := (known.toFinset \ seen.toFinset).card

theorem unseen_le_length (known seen : List String) : unseen known seen ≤ known.length :=
  (Finset.card_le_card Finset.sdiff_subset).trans (List.toFinset_card_le known)

theorem sdiff_anti {seen more : List String} (subset : seen ⊆ more) :
    known.toFinset \ more.toFinset ⊆ known.toFinset \ seen.toFinset :=
  Finset.sdiff_subset_sdiff (Finset.Subset.refl _) fun _ member =>
    List.mem_toFinset.mpr (subset (List.mem_toFinset.mp member))

theorem unseen_anti {seen more : List String} (subset : seen ⊆ more) :
    unseen known more ≤ unseen known seen :=
  Finset.card_le_card (sdiff_anti subset)

theorem unseen_lt {seen more : List String} {name : String} (member : name ∈ known)
    (fresh : name ∉ seen) (subset : name :: seen ⊆ more) :
    unseen known more < unseen known seen := by
  obtain ⟨marked, subset⟩ := List.cons_subset.mp subset
  refine Finset.card_lt_card ⟨sdiff_anti subset, fun back => ?_⟩
  have inside := back (Finset.mem_sdiff.mpr
    ⟨List.mem_toFinset.mpr member, fun seen => fresh (List.mem_toFinset.mp seen)⟩)
  exact (Finset.mem_sdiff.mp inside).2 (List.mem_toFinset.mpr marked)

theorem exists_below {seen more : List String} {name : String} (member : name ∈ known)
    (fresh : name ∉ seen) (subset : name :: seen ⊆ more) {levels : Nat}
    (enough : unseen known seen ≤ levels) :
    ∃ below, levels = below + 1 ∧ unseen known more ≤ below := by
  have fewer := Nat.lt_of_lt_of_le (unseen_lt member fresh subset) enough
  obtain ⟨below, rfl⟩ := Nat.exists_eq_add_one_of_ne_zero (Nat.ne_zero_of_lt fewer)
  exact ⟨below, rfl, Nat.le_of_lt_succ fewer⟩

theorem weight_lt_cons (item : ι) (rest : List ι) :
    size item + weight size rest < weight size (item :: rest) := by
  rw [weight]
  omega

theorem lower_of_rest {item : ι} {rest : List ι} {next : σ}
    (subset : seen entered state ⊆ seen entered next) :
    Prod.Lex (· < ·) (· < ·) (unseen known (seen entered next), weight size rest)
      (unseen known (seen entered state), weight size (item :: rest)) :=
  Prod.Lex.right' _ (unseen_anti subset)
    (Nat.lt_of_le_of_lt (Nat.le_add_left _ _) (weight_lt_cons item rest))

/-- An excursion leaves fewer names unseen, or as many with less to go through. -/
theorem Guarded.lower_of_enter (guarded : Guarded visit seen known size) {item : ι}
    {rest : List ι} {excursion : Excursion ι σ}
    (here : visit entered state item = .enter excursion) :
    Prod.Lex (· < ·) (· < ·)
      (unseen known (seen excursion.entered excursion.start), weight size excursion.items)
      (unseen known (seen entered state), weight size (item :: rest)) := by
  have start := (guarded.enter here).start
  rcases (guarded.enter here).near with ⟨name, entering, member⟩ | smaller
  · refine .left _ _ (unseen_lt member ((guarded.enter here).fresh name entering) ?_)
    rw [Option.mem_def.mp entering] at start
    exact start.symm.subset
  · exact Prod.Lex.right' _
      (unseen_anti (guarded.subset_start here))
      (Nat.lt_of_le_of_lt (smaller.trans (Nat.le_add_right _ _)) (weight_lt_cons item rest))

theorem exists_run (guarded : Guarded visit seen known size)
    (entered : List String) (items : List ι) (state : σ) :
    ∃ names result, Run visit entered items state names result := by
  match items with
  | [] => exact ⟨[], .ok state, .done⟩
  | item :: rest =>
      match here : visit entered state item with
      | .fail fault => exact ⟨[], .error fault, .fail here⟩
      | .pass next =>
          have kept := (guarded.pass here).symm.subset
          obtain ⟨names, result, run⟩ := exists_run guarded entered rest next
          exact ⟨names, result, .pass here run⟩
      | .enter excursion =>
          obtain ⟨names, result, inside⟩ :=
            exists_run guarded excursion.entered excursion.items excursion.start
          match result with
          | .error fault => exact ⟨_, .error fault, .broken here inside⟩
          | .ok inner =>
              have kept := guarded.subset_finish here inside
              obtain ⟨more, result, others⟩ :=
                exists_run guarded entered rest (excursion.finish inner)
              exact ⟨_, result, .enter here inside others⟩
termination_by (unseen known (seen entered state), weight size items)
decreasing_by
  · exact lower_of_rest kept
  · exact guarded.lower_of_enter here
  · exact lower_of_rest kept

/-! ## Results -/

/-- What comes of a move, if a way is known to compute what comes of the items of an excursion.
It needs as many levels as there are names unseen. -/
def Yields (seen : List String → σ → List String) (known : List String)
    (answer : Nat → List String → σ → ι → Except ε σ) (result : Except ε σ) : Move ι σ ε → Prop
  | .fail fault => result = .error fault
  | .pass next => result = .ok next
  | .enter excursion =>
      ∃ below, unseen known (seen excursion.entered excursion.start) ≤ below ∧
        result = (excursion.items.foldlM (answer below excursion.entered) excursion.start).map
          excursion.finish

def Answers (visit : Traversal ι σ ε) (seen : List String → σ → List String)
    (known : List String) (answer : Nat → List String → σ → ι → Except ε σ) : Prop :=
  ∀ {levels entered state}, unseen known (seen entered state) ≤ levels → ∀ item,
    Yields seen known answer (answer levels entered state item) (visit entered state item)

variable {answer : Nat → List String → σ → ι → Except ε σ}

theorem Answers.yields (answers : Answers visit seen known answer) {levels : Nat} {item : ι}
    {move : Move ι σ ε} (here : visit entered state item = move)
    (enough : unseen known (seen entered state) ≤ levels) :
    Yields seen known answer (answer levels entered state item) move :=
  here ▸ answers enough item

theorem Run.foldlM_eq (guarded : Guarded visit seen known size)
    (answers : Answers visit seen known answer)
    (run : Run visit entered items state names result) {levels : Nat}
    (enough : unseen known (seen entered state) ≤ levels) :
    items.foldlM (answer levels entered) state = result := by
  induction run generalizing levels with
  | done => rfl
  | fail here =>
      rw [List.foldlM_cons, answers.yields here enough]
      rfl
  | pass here _ rest =>
      rw [List.foldlM_cons, answers.yields here enough, Except.ok_bind]
      exact rest ((unseen_anti (guarded.pass here).symm.subset).trans enough)
  | broken here _ within =>
      obtain ⟨below, enoughBelow, computed⟩ := answers.yields here enough
      rw [List.foldlM_cons, computed, within enoughBelow]
      rfl
  | enter here inside _ within rest =>
      obtain ⟨below, enoughBelow, computed⟩ := answers.yields here enough
      rw [List.foldlM_cons, computed, within enoughBelow, Except.map, Except.ok_bind]
      exact rest ((unseen_anti (guarded.subset_finish here inside)).trans enough)

/-- A traversal comes to an end with a result, and to no other. It enters every fragment at most
once; and unless it fails, what is seen in the end is what has been entered. -/
def EndsOnce (visit : Traversal ι σ ε) (seen : List String → σ → List String) (items : List ι)
    (state : σ) (result : Except ε σ) : Prop :=
  ∃ names, Run visit [] items state names result ∧
    (∀ {others other}, Run visit [] items state others other → others = names ∧ other = result) ∧
    names.Nodup ∧ ∀ final, result = .ok final → seen [] final ~ names

theorem endsOnce (guarded : Guarded visit seen known size)
    (answers : Answers visit seen known answer) (blank : seen [] state = []) (items : List ι)
    {levels : Nat} (enough : known.length ≤ levels) :
    EndsOnce visit seen items state (items.foldlM (answer levels []) state) := by
  obtain ⟨names, result, run⟩ := exists_run guarded [] items state
  rw [run.foldlM_eq guarded answers ((unseen_le_length _ _).trans enough)]
  refine ⟨names, run, run.unique, (run.nodup guarded).1, fun final ended => ?_⟩
  subst ended
  simpa [blank] using run.remembers guarded

end Traversal

end GraphQuery
