import GraphQuery.Proofs.Execution.Journal
import GraphQuery.Proofs.Execution.Reports

/-! Works in order are done one after the other: each begins in the session that the
works before it have left, and all of its events come before those of the next. -/

namespace GraphQuery

variable {σ : Type}

namespace Work

/-! ## One work after another -/

theorem Step.of_andThen {next : Outcome → Work σ} {work : Work σ} {session : Session σ}
    {after : Work σ × Session σ} (step : Step (work.andThen next, session) after) :
    (∃ outcome, work = .done outcome) ∨
      ∃ rest later, after = (rest.andThen next, later) ∧ Step (work, session) (rest, later) := by
  cases work with
  | done outcome => exact .inl ⟨outcome, rfl⟩
  | call place? rest =>
      cases step
      exact .inr ⟨rest _, _, rfl, .call⟩
  | record event rest =>
      cases step
      exact .inr ⟨rest, _, rfl, .record⟩
  | perform effect rest =>
      cases step
      exact .inr ⟨rest _, _, rfl, .perform⟩
  | cancel rest =>
      cases step
      exact .inr ⟨rest, _, rfl, .cancel⟩
  | pause milliseconds rest =>
      cases step with
      | skip => exact .inr ⟨rest, _, rfl, .skip⟩
      | sleep alarm => exact .inr ⟨.asleep alarm rest, _, rfl, .sleep alarm⟩
  | asleep alarm rest =>
      cases step
      exact .inr ⟨rest, _, rfl, .wake⟩
  | group parts rest =>
      cases step with
      | part step => exact .inr ⟨.group _ rest, _, rfl, .part step⟩
      | join => exact .inr ⟨rest _, _, rfl, .join⟩

theorem done_of_andThen {next : Outcome → Work σ} {work : Work σ} {outcome : Outcome}
    (done : work.andThen next = .done outcome) :
    ∃ first, work = .done first ∧ next first = .done outcome := by
  cases work with
  | done first => exact ⟨first, rfl, done⟩
  | _ => cases done

theorem Reaches.of_andThen {next : Outcome → Work σ} {work : Work σ} {session final : Session σ}
    {outcome : Outcome} (reaches : Reaches (work.andThen next, session) (.done outcome, final)) :
    ∃ first between, Reaches (work, session) (.done first, between) ∧
      Reaches (next first, between) (.done outcome, final) := by
  have back := reaches.induction_on
    (fun stage => Reaches stage (.done outcome, final) ∧
      ∀ work session, stage = (work.andThen next, session) →
        ∃ first between, Reaches (work, session) (.done first, between) ∧
          Reaches (next first, between) (.done outcome, final))
    ⟨.refl _, ?_⟩ ?_
  · exact back.2 work session rfl
  · intro work session same
    rcases Prod.mk.inj same with ⟨done, rfl⟩
    rcases done_of_andThen done.symm with ⟨first, rfl, followed⟩
    exact ⟨first, final, .refl _, followed ▸ .refl _⟩
  · rintro before after step ⟨reaches, split⟩
    refine ⟨(step.thenReaches reaches).reaches, ?_⟩
    rintro work session rfl
    rcases step.of_andThen with ⟨first, rfl⟩ | ⟨rest, later, rfl, inner⟩
    · exact ⟨first, session, .refl _, (step.thenReaches reaches).reaches⟩
    · rcases split rest later rfl with ⟨first, between, ends, follows⟩
      exact ⟨first, between, (inner.thenReaches ends).reaches, follows⟩

/-! ## Turns -/

/-- Works, each at its place, that are done one after the other from one session to
another, with their outcomes and events. -/
inductive InTurn : List (Path × Work σ) → Session σ → List Outcome → Session σ →
    List Event → Prop where
  | nil {session : Session σ} : InTurn [] session [] session []
  | cons {place : Path} {work : Work σ} {rest : List (Path × Work σ)}
      {session between final : Session σ} {outcome : Outcome} {outcomes : List Outcome}
      {events others : List Event} (ends : Reaches (work, session) (.done outcome, between))
      (continues : session.Continues (Event.Below place) between events)
      (follow : InTurn rest between outcomes final others) :
      InTurn ((place, work) :: rest) session (outcome :: outcomes) final (events ++ others)

theorem InTurn.grows {works : List (Path × Work σ)} {session final : Session σ}
    {outcomes : List Outcome} {events : List Event}
    (turns : InTurn works session outcomes final events) :
    final.events = session.events ++ events := by
  induction turns with
  | nil => exact (List.append_nil _).symm
  | cons _ continues _ induction => rw [induction, continues.grows, List.append_assoc]

/-- Works in order take turns if each of them only notes events of its place. -/
theorem Reaches.inTurn {works : List (Path × Work σ)} {next : List Outcome → Work σ}
    {session final : Session σ} {outcome : Outcome}
    (notes : ∀ work ∈ works, work.2.Notes (Event.Below work.1))
    (reaches : Reaches (inOrder (works.map Prod.snd) next, session) (.done outcome, final)) :
    ∃ outcomes between events, InTurn works session outcomes between events ∧
      Reaches (next outcomes, between) (.done outcome, final) := by
  induction works generalizing next session with
  | nil => exact ⟨[], session, [], .nil, reaches⟩
  | cons work rest induction =>
      rcases of_andThen reaches with ⟨first, between, ends, follows⟩
      rcases induction (fun other member => notes other (by simp [member])) follows with
        ⟨outcomes, last, others, turns, remaining⟩
      rcases (Notes.of_reaches ends (notes work (by simp))).2 with ⟨events, continues⟩
      exact ⟨_, last, _, .cons ends continues turns, remaining⟩

theorem InTurn.exists_below {works : List (Path × Work σ)} {session final : Session σ}
    {outcomes : List Outcome} {events : List Event}
    (turns : InTurn works session outcomes final events) {event : Event} (member : event ∈ events) :
    ∃ work ∈ works, event.Below work.1 := by
  induction turns with
  | nil => cases member
  | @cons place work _ _ _ _ _ _ _ _ _ continues _ induction =>
      rcases List.mem_append.mp member with member | member
      · exact ⟨(place, work), by simp, continues.allows event member⟩
      · rcases induction member with ⟨other, inside, below⟩
        exact ⟨other, List.mem_cons_of_mem _ inside, below⟩

def Apart (first second : Path × Work σ) : Prop :=
  ∀ event : Event, event.Below first.1 → ¬ event.Below second.1

theorem InTurn.ordered {works : List (Path × Work σ)} {session final : Session σ}
    {outcomes : List Outcome} {events : List Event}
    (turns : InTurn works session outcomes final events) (apart : works.Pairwise Apart)
    {i j : Nat} (before : i < j) {first second : Path × Work σ} (atFirst : works[i]? = some first)
    (atSecond : works[j]? = some second) {earlier later : Event}
    (ofFirst : earlier.Below first.1) (ofSecond : later.Below second.1) :
    ¬ [later, earlier].Sublist events := by
  induction turns generalizing i j with
  | nil => simp at atFirst
  | @cons place work rest _ _ _ _ _ events others _ continues turns induction =>
      have parts := List.pairwise_cons.mp apart
      obtain ⟨j, rfl⟩ := Nat.exists_eq_succ_of_ne_zero (Nat.ne_zero_of_lt before)
      rw [List.getElem?_cons_succ] at atSecond
      have outside : later ∉ events := fun member =>
        parts.1 second (List.mem_of_getElem? atSecond) later (continues.allows later member)
          ofSecond
      intro sublist
      -- the later event is none of the first turn, so neither is the earlier one after it
      have inside : [later, earlier].Sublist others := by
        rcases List.sublist_append_iff.mp sublist with ⟨left, right, same, leftIn, rightIn⟩
        cases left with
        | nil => exact (List.nil_append right).symm.trans same.symm ▸ rightIn
        | cons event left =>
            rw [List.cons_append] at same
            cases (List.cons.inj same).1
            exact absurd (leftIn.subset (by simp)) outside
      cases i with
      | zero =>
          cases atFirst
          rcases turns.exists_below (inside.subset (by simp : earlier ∈ [later, earlier])) with
            ⟨other, member, below⟩
          exact parts.1 other member earlier ofFirst below
      | succ i =>
          rw [List.getElem?_cons_succ] at atFirst
          exact induction parts.2 (Nat.lt_of_succ_lt_succ before) atFirst atSecond inside

end Work

/-! ## Mutations -/

theorem Event.Below.key_unique {first second : String} {event : Event}
    (ofFirst : event.Below [.key first]) (ofSecond : event.Below [.key second]) :
    first = second :=
  PathSegment.key.inj (@segment_unique [] _ _ _ ofFirst ofSecond)

namespace Preparation

def turn (preparation : Preparation σ) (rootValue : Json) (merged : MergedField) :
    Path × Work σ :=
  let depth := preparation.operation.selectionSet.depth preparation.execution.fragments
  ([.key merged.key], preparation.execution.field (preparation.execution.object depth)
    preparation.root rootValue [] merged)

def turns (preparation : Preparation σ) (rootValue : Json) : List (Path × Work σ) :=
  preparation.fields.map (preparation.turn rootValue)

theorem getElem?_turns {preparation : Preparation σ} {rootValue : Json} {i : Nat}
    {merged : MergedField} (found : preparation.fields[i]? = some merged) :
    (preparation.turns rootValue)[i]? = some (preparation.turn rootValue merged) := by
  rw [turns, List.getElem?_map, found]
  rfl

theorem apart_turns {preparation : Preparation σ} {rootValue : Json}
    (nodup : (preparation.fields.map MergedField.key).Nodup) :
    (preparation.turns rootValue).Pairwise Work.Apart := by
  rw [turns, List.pairwise_map]
  refine (List.pairwise_map.mp nodup).imp ?_
  intro first second different event ofFirst ofSecond
  exact different (ofFirst.key_unique ofSecond)

theorem inTurn_of_reaches {preparation : Preparation σ}
    (isMutation : preparation.operation.kind = .mutation) {rootValue : Json}
    {session final : Session σ} {outcome : Outcome}
    (reaches : Work.Reaches (preparation.work true rootValue, session) (.done outcome, final)) :
    ∃ outcomes events, Work.InTurn (preparation.turns rootValue) session outcomes final events ∧
      outcome = .ofFields (preparation.fields.map MergedField.key) outcomes := by
  have arranged : preparation.arrange true = .inOrder := by
    unfold arrange
    rw [isMutation, if_pos ⟨rfl, rfl⟩]
  have inOrder : preparation.work true rootValue =
      .inOrder ((preparation.turns rootValue).map Prod.snd)
        (.done ∘ Outcome.ofFields (preparation.fields.map MergedField.key)) := by
    simp [work, arranged, Execution.fields, turns, turn, Function.comp_def]
  rw [inOrder] at reaches
  have notes : ∀ turn ∈ preparation.turns rootValue, turn.2.Notes (Event.Below turn.1) := by
    intro turn member
    rcases List.mem_map.mp member with ⟨merged, _, rfl⟩
    have notes : (preparation.turn rootValue merged).2.Notes
        (Event.Below ([] ++ [.key merged.key])) :=
      Execution.notes_field fun _ _ _ => Execution.notes_object _
    exact notes
  rcases Work.Reaches.inTurn notes reaches with ⟨outcomes, between, events, turns, ends⟩
  rcases ends with same | steps
  · cases same
    exact ⟨outcomes, events, turns, rfl⟩
  · rcases Relation.TransGen.head'_iff.mp steps with ⟨_, step, _⟩
    cases step

end Preparation

namespace Schema

variable {schema : Schema (Resolver σ)} {configuration : Configuration} {document : Document}
  {request : Request} {context : Context} {state : σ}

/-- The fields of a mutation take turns in merged order, whatever the schedule within
each turn: a field begins in the session that the fields before it have left, with the
state they share, and no event of a field comes before one of a field ahead of it. -/
theorem mutation_fields_take_turns {preparation : Preparation σ}
    (prepared : schema.prepare configuration document request context = .ok preparation)
    (isMutation : preparation.operation.kind = .mutation)
    (sequential : configuration.sequentialMutations = true) :
    let start : Session σ := ⟨⟨state, request.cancelled⟩, []⟩
    let work := preparation.work configuration.sequentialMutations request.rootValue
    (∃ outcome final, Work.Reaches (work, start) (.done outcome, final) ∧
      schema.executeDocument configuration document request context state =
        ⟨.ofOutcome outcome final, final⟩) ∧
    ∀ outcome final, Work.Reaches (work, start) (.done outcome, final) →
      (∃ outcomes, outcome = .ofFields (preparation.fields.map MergedField.key) outcomes ∧
        Work.InTurn (preparation.turns request.rootValue) start outcomes final final.events) ∧
      ∀ (i j : Nat) (first second : MergedField) (earlier later : Event), i < j →
        preparation.fields[i]? = some first → preparation.fields[j]? = some second →
        Event.Below [.key first.key] earlier → Event.Below [.key second.key] later →
        ¬ [later, earlier].Sublist final.events := by
  refine ⟨⟨_, _, Work.run_reaches _ _, executeDocument_of_prepare prepared⟩, ?_⟩
  intro outcome final reaches
  rw [sequential] at reaches
  rcases Preparation.inTurn_of_reaches isMutation reaches with ⟨outcomes, events, turns, same⟩
  have all : final.events = events := turns.grows
  rw [all]
  refine ⟨⟨outcomes, same, turns⟩, ?_⟩
  intro i j first second earlier later before atFirst atSecond ofFirst ofSecond
  rcases exists_plan_of_prepare prepared with ⟨plan, planned, rfl⟩
  have nodup := Expansion.nodup_keys_merge (answers_of_plan planned).fields
  exact turns.ordered (Preparation.apart_turns nodup) before
    (Preparation.getElem?_turns atFirst) (Preparation.getElem?_turns atSecond) ofFirst ofSecond

end Schema

namespace Visit

def inOrder : Document := ⟨[.operation { operation with kind := .mutation }], ⟨0, 32⟩⟩

def count (call : FieldCall) : Resolution Nat :=
  .pause (if call.field = "host" then 20 else 5) (.perform Nat.succ fun _ => .answer (answer call))

def mutable : Schema (Resolver Nat) := { schema count with mutation := some "Query" }

def ordered : Preparation Nat where
  execution := ⟨mutable, [], [], [], none⟩
  operation := { operation with kind := .mutation }
  root := query count
  fields := preparation.fields

theorem guest_waits_for_host :
    mutable.prepare .standard inOrder request [] = .ok ordered ∧
      ordered.operation.kind = .mutation ∧
      Configuration.standard.sequentialMutations = true ∧
      ∃ outcome final, mutable.executeDocument .standard inOrder request [] 0 =
          ⟨.ofOutcome outcome final, final⟩ ∧
        ¬ [Event.called [.key "guest"], .answered [.key "host", .key "name"]].Sublist
          final.events := by
  have prepared : mutable.prepare .standard inOrder request [] = .ok ordered := rfl
  obtain ⟨⟨outcome, final, reaches, executes⟩, turns⟩ :=
    @Schema.mutation_fields_take_turns Nat mutable .standard inOrder request [] 0 ordered
      prepared rfl rfl
  have order := (turns outcome final reaches).2 0 1 _ _ (.answered [.key "host", .key "name"])
    (.called [.key "guest"]) (by simp) rfl rfl ⟨[.key "name"], rfl⟩ ⟨[], rfl⟩
  exact ⟨prepared, rfl, rfl, outcome, final, executes, order⟩

end Visit

end GraphQuery
