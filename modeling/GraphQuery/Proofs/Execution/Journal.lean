import GraphQuery.Execution.Field
import GraphQuery.Execution.Progress

/-! What work notes in the journal of its session, whatever the order of its steps:
the events only concern its own place, and no resolver is called once the request is
cancelled. A step calls whenever the work says so; it is the work of every field that
looks at the cancellation first. -/

namespace GraphQuery

variable {σ : Type}

def Event.isCall : Event → Bool
  | .called _ => true
  | _ => false

def Event.Below (place : Path) (event : Event) : Prop := place <+: event.path

theorem Event.Below.of_prefix {place deeper : Path} {event : Event} (below : event.Below deeper)
    (above : place <+: deeper) : event.Below place :=
  above.trans below

theorem Event.Below.segment_unique {place : Path} {first second : PathSegment} {event : Event}
    (ofFirst : event.Below (place ++ [first])) (ofSecond : event.Below (place ++ [second])) :
    first = second := by
  rcases ofFirst with ⟨rest, same⟩
  rcases ofSecond with ⟨others, alike⟩
  rw [← alike, List.append_assoc, List.append_assoc, List.append_cancel_left_eq] at same
  exact (List.cons.inj same).1

/-! ## Sessions one after the other -/

/-- One session has become another while the events, all of them allowed, were noted. -/
structure Session.Continues (allowed : Event → Prop) (earlier later : Session σ)
    (events : List Event) : Prop where
  grows : later.events = earlier.events ++ events
  allows : ∀ event ∈ events, allowed event
  /-- A request that is cancelled stays so. -/
  stays : earlier.shared.cancelled = true → later.shared.cancelled = true
  quiet : earlier.shared.cancelled = true → ∀ event ∈ events, event.isCall = false

namespace Session.Continues

variable {allowed : Event → Prop}

theorem refl (session : Session σ) : session.Continues allowed session [] where
  grows := (List.append_nil _).symm
  allows := by simp
  stays := id
  quiet := by simp

theorem trans {first second third : Session σ} {events others : List Event}
    (earlier : first.Continues allowed second events)
    (later : second.Continues allowed third others) :
    first.Continues allowed third (events ++ others) where
  grows := by rw [later.grows, earlier.grows, List.append_assoc]
  allows event member := by
    rcases List.mem_append.mp member with member | member
    · exact earlier.allows event member
    · exact later.allows event member
  stays cancelled := later.stays (earlier.stays cancelled)
  quiet cancelled event member := by
    rcases List.mem_append.mp member with member | member
    · exact earlier.quiet cancelled event member
    · exact later.quiet (earlier.stays cancelled) event member

theorem note {session : Session σ} {event : Event} (other : event.isCall = false)
    (isAllowed : allowed event) : session.Continues allowed (session.note event) [event] where
  grows := session.events_note event
  allows := List.forall_mem_singleton.mpr isAllowed
  stays := id
  quiet _ := List.forall_mem_singleton.mpr other

theorem noteCall {session : Session σ} {place? : Option Path}
    (guarded : ∀ path, place? = some path → session.shared.cancelled = false)
    (isAllowed : ∀ path, place? = some path → allowed (.called path)) :
    session.Continues allowed (session.noteCall place?) (place?.toList.map .called) where
  grows := session.events_noteCall place?
  allows := by simpa using isAllowed
  stays cancelled := by rwa [Session.shared_noteCall]
  quiet cancelled event member := by
    rcases List.mem_map.mp member with ⟨path, inside, rfl⟩
    have live := guarded path (Option.mem_toList.mp inside)
    cases cancelled.symm.trans live

theorem cancel (session : Session σ) : session.Continues allowed session.cancel [] where
  grows := (List.append_nil _).symm
  allows := by simp
  stays _ := rfl
  quiet := by simp

theorem perform (effect : σ → σ) (session : Session σ) :
    session.Continues allowed (session.perform effect) [] where
  grows := (List.append_nil _).symm
  allows := by simp
  stays := id
  quiet := by simp

end Session.Continues

/-! ## Work -/

namespace Work

/-- Everything that the work can note is allowed, and whenever it calls a resolver, it has
found in the same step that the request is not cancelled. -/
inductive Notes (allowed : Event → Prop) : Work σ → Prop where
  | done {outcome : Outcome} : Notes allowed (.done outcome)
  | call {place? : Shared σ → Option Path} {next : Shared σ → Work σ}
      (guarded : ∀ shared path, place? shared = some path → shared.cancelled = false)
      (isAllowed : ∀ shared path, place? shared = some path → allowed (.called path))
      (notes : ∀ shared, Notes allowed (next shared)) : Notes allowed (.call place? next)
  | record {event : Event} {next : Work σ} (other : event.isCall = false)
      (isAllowed : allowed event) (notes : Notes allowed next) :
      Notes allowed (.record event next)
  | perform {effect : σ → σ} {next : Shared σ → Work σ}
      (notes : ∀ shared, Notes allowed (next shared)) : Notes allowed (.perform effect next)
  | cancel {next : Work σ} (notes : Notes allowed next) : Notes allowed (.cancel next)
  | pause {milliseconds : Nat} {next : Work σ} (notes : Notes allowed next) :
      Notes allowed (.pause milliseconds next)
  | asleep {alarm : Alarm} {next : Work σ} (notes : Notes allowed next) :
      Notes allowed (.asleep alarm next)
  | group {parts : List (Work σ)} {next : List Outcome → Work σ}
      (all : ∀ part ∈ parts, Notes allowed part)
      (notes : ∀ outcomes, Notes allowed (next outcomes)) :
      Notes allowed (.group parts next)

variable {allowed : Event → Prop}

/-- What remains after a step notes what is allowed, and so did the step. -/
theorem Notes.of_step {before after : Work σ × Session σ} (step : Step before after)
    (notes : before.1.Notes allowed) :
    after.1.Notes allowed ∧ ∃ events, before.2.Continues allowed after.2 events := by
  induction step with
  | call =>
      cases notes with
      | call guarded isAllowed notes =>
          exact ⟨notes _, _, .noteCall (guarded _) (isAllowed _)⟩
  | record =>
      cases notes with
      | record other isAllowed notes => exact ⟨notes, _, .note other isAllowed⟩
  | perform =>
      cases notes with
      | perform notes => exact ⟨notes _, _, .perform _ _⟩
  | cancel =>
      cases notes with
      | cancel notes => exact ⟨notes, _, .cancel _⟩
  | skip =>
      cases notes with
      | pause notes => exact ⟨notes, _, .refl _⟩
  | sleep =>
      cases notes with
      | pause notes => exact ⟨.asleep notes, _, .refl _⟩
  | wake =>
      cases notes with
      | asleep notes => exact ⟨notes, _, .refl _⟩
  | part _ induction =>
      cases notes with
      | group all following =>
          rcases induction (all _ (by simp)) with ⟨notes, continues⟩
          refine ⟨.group ?_ following, continues⟩
          intro part member
          rcases List.mem_append.mp member with member | member
          · exact all part (by simp [member])
          · rcases List.mem_cons.mp member with rfl | member
            · exact notes
            · exact all part (by simp [member])
  | join =>
      cases notes with
      | group _ following => exact ⟨following _, _, .refl _⟩

theorem Notes.of_reaches {before after : Work σ × Session σ} (reaches : Reaches before after)
    (notes : before.1.Notes allowed) :
    after.1.Notes allowed ∧ ∃ events, before.2.Continues allowed after.2 events := by
  rcases reaches with rfl | steps
  · exact ⟨notes, _, .refl _⟩
  · induction steps with
    | single step => exact notes.of_step step
    | tail _ step induction =>
        rcases induction with ⟨between, events, first⟩
        rcases between.of_step step with ⟨last, others, second⟩
        exact ⟨last, _, first.trans second⟩

/-! ## Combined works -/

theorem Notes.mono {more : Event → Prop} {work : Work σ} (notes : work.Notes allowed)
    (allows : ∀ event, allowed event → more event) : work.Notes more := by
  induction notes with
  | done => exact .done
  | call guarded isAllowed _ induction =>
      exact .call guarded (fun shared path calls => allows _ (isAllowed shared path calls))
        induction
  | record other isAllowed _ induction => exact .record other (allows _ isAllowed) induction
  | perform _ induction => exact .perform induction
  | cancel _ induction => exact .cancel induction
  | pause _ induction => exact .pause induction
  | asleep _ induction => exact .asleep induction
  | group _ _ allInduction induction => exact .group allInduction induction

theorem Notes.andThen {next : Outcome → Work σ} {work : Work σ} (notes : work.Notes allowed)
    (following : ∀ outcome, (next outcome).Notes allowed) : (work.andThen next).Notes allowed := by
  induction notes with
  | done => exact following _
  | call guarded isAllowed _ induction => exact .call guarded isAllowed induction
  | record other isAllowed _ induction => exact .record other isAllowed induction
  | perform _ induction => exact .perform induction
  | cancel _ induction => exact .cancel induction
  | pause _ induction => exact .pause induction
  | asleep _ induction => exact .asleep induction
  | group all _ _ induction => exact .group all induction

theorem Notes.map {convert : Outcome → Outcome} {work : Work σ} (notes : work.Notes allowed) :
    (work.map convert).Notes allowed :=
  notes.andThen fun _ => .done

theorem Notes.inOrder {works : List (Work σ)} {next : List Outcome → Work σ}
    (all : ∀ work ∈ works, work.Notes allowed) (notes : ∀ outcomes, (next outcomes).Notes allowed) :
    (Work.inOrder works next).Notes allowed := by
  induction works generalizing next with
  | nil => exact notes []
  | cons work rest induction =>
      refine (all work (by simp)).andThen fun outcome => ?_
      exact induction (fun other member => all other (by simp [member])) fun _ => notes _

theorem Notes.ofResolution {next : Except ResolverFault Json → Work σ}
    (notes : ∀ result, (next result).Notes allowed) (resolution : Resolution σ) :
    (Work.ofResolution next resolution).Notes allowed := by
  induction resolution with
  | answer result => exact notes result
  | perform effect rest induction => exact .perform induction
  | cancel rest induction => exact .cancel induction
  | pause milliseconds rest induction => exact .pause induction

end Work

/-- An opening may call the resolver of its place, and what follows notes what is allowed. -/
structure Opening.Notes (allowed : Event → Prop) (opening : Opening σ) : Prop where
  isAllowed : ∀ path, opening.place? = some path → allowed (.called path)
  next : opening.next.Notes allowed

namespace Opening.Notes

variable {allowed : Event → Prop}

theorem quiet {next : Work σ} (notes : next.Notes allowed) : (Opening.quiet next).Notes allowed :=
  ⟨nofun, notes⟩

theorem calling {path : Path} {next : Work σ} (isAllowed : allowed (.called path))
    (notes : next.Notes allowed) : (Opening.calling path next).Notes allowed :=
  ⟨fun _ same => Option.some.inj same ▸ isAllowed, notes⟩

theorem unlessCancelled {opening : Opening σ} (notes : opening.Notes allowed) :
    (Work.begin opening.unlessCancelled).Notes allowed := by
  have either : ∀ shared, (opening.unlessCancelled shared).Notes allowed := by
    intro shared
    unfold Opening.unlessCancelled
    split
    · exact .quiet .done
    · exact notes
  refine .call ?_ (fun shared => (either shared).isAllowed) fun shared => (either shared).next
  intro shared path calls
  cases cancelled : shared.cancelled with
  | false => rfl
  | true =>
      rw [Opening.unlessCancelled_of_cancelled cancelled] at calls
      cases calls

end Opening.Notes

/-! ## The work of a request -/

theorem FieldSite.notes_fail {site : FieldSite} {path : Path} {cause : FieldCause}
    {outcome : Outcome} : (site.fail (σ := σ) path cause outcome).Notes (Event.Below path) :=
  .record rfl (List.prefix_refl path) .done

namespace Completion

variable {completion : Completion σ}

theorem notes_leaf {path : Path} {coerced : Coerced} :
    (completion.leaf path coerced).Notes (Event.Below path) := by
  cases coerced with
  | error fault => exact FieldSite.notes_fail
  | ok value => cases value <;> exact .done

variable (below : ∀ object value path,
  (completion.object object value path).Notes (Event.Below path))

include below

theorem notes_abstractly {type : TypeDefinition (Resolver σ)} {name : String} {value : Json}
    {path : Path} : (completion.abstractly type name value path).Notes (Event.Below path) := by
  unfold abstractly
  split
  · exact below _ _ _
  · exact FieldSite.notes_fail

theorem notes_named {name : String} {value : Json} {path : Path} :
    (completion.named name value path).Notes (Event.Below path) := by
  unfold named
  split
  · exact notes_leaf
  · exact notes_leaf
  · exact below _ _ _
  · exact notes_abstractly below
  · exact notes_abstractly below
  · exact FieldSite.notes_fail

theorem notes_unsettled {type : TypeRef} {value : Json} {path : Path} :
    (completion.unsettled type value path).Notes (Event.Below path) := by
  induction type generalizing value path with
  | named name =>
      unfold unsettled
      split
      · exact .done
      · exact notes_named below
  | list item induction =>
      unfold unsettled
      split
      · exact .done
      · refine .group ?_ fun _ => .done
        intro part member
        rcases List.mem_mapIdx.mp member with ⟨position, _, rfl⟩
        exact induction.map.mono fun event inside => inside.of_prefix (List.prefix_append _ _)
      · exact FieldSite.notes_fail
  | nonNull inner induction =>
      refine induction.andThen fun outcome => ?_
      cases outcome with
      | null => exact FieldSite.notes_fail
      | _ => exact .done

end Completion

namespace Execution

variable {execution : Execution σ}

theorem notes_definedField {below : ObjectWork σ}
    (notes : ∀ object value path, (below object value path).Notes (Event.Below path))
    {object : ObjectDefinition (Resolver σ)} {parent : Json} {path : Path} {merged : MergedField}
    {field : FieldDefinition (Resolver σ)} :
    (execution.definedField below object parent path merged field).Notes (Event.Below path) := by
  unfold definedField
  split
  · exact .quiet FieldSite.notes_fail
  · refine .calling (List.prefix_refl _) (.ofResolution (fun result => ?_) _)
    refine .record rfl (List.prefix_refl _) ?_
    cases result with
    | ok value => exact (Completion.notes_unsettled notes).map
    | error fault => exact FieldSite.notes_fail

/-- A field notes what concerns its own place, and looks at the cancellation as it calls
its resolver. -/
theorem notes_field {below : MergedField → ObjectWork σ} {merged : MergedField}
    (notes : ∀ object value path, (below merged object value path).Notes (Event.Below path))
    {object : ObjectDefinition (Resolver σ)} {parent : Json} {path : Path} :
    (execution.field below object parent path merged).Notes
      (Event.Below (path ++ [.key merged.key])) := by
  apply Opening.Notes.unlessCancelled
  split
  · exact .quiet .done
  · split
    · exact .quiet FieldSite.notes_fail
    · exact notes_definedField notes

theorem notes_fields {below : MergedField → ObjectWork σ}
    (notes : ∀ merged object value path,
      (below merged object value path).Notes (Event.Below path))
    {arrange : List (Work σ) → (List Outcome → Work σ) → Work σ}
    (arranged : arrange = .group ∨ arrange = .inOrder) {fields : FieldMap}
    {object : ObjectDefinition (Resolver σ)} {value : Json} {path : Path} :
    (execution.fields below arrange fields object value path).Notes (Event.Below path) := by
  have all : ∀ work ∈ fields.map (execution.field below object value path),
      work.Notes (Event.Below path) := by
    intro work member
    rcases List.mem_map.mp member with ⟨merged, _, rfl⟩
    exact (notes_field (notes merged)).mono fun event inside =>
      inside.of_prefix (List.prefix_append _ _)
  rcases arranged with rfl | rfl
  · exact .group all fun _ => .done
  · exact .inOrder all fun _ => .done

theorem notes_object (levels : Nat) {merged : MergedField}
    {object : ObjectDefinition (Resolver σ)} {value : Json} {path : Path} :
    (execution.object levels merged object value path).Notes (Event.Below path) := by
  induction levels generalizing merged object value path with
  | zero => exact .done
  | succ levels induction =>
      unfold Execution.object
      split
      · exact FieldSite.notes_fail
      · exact notes_fields (fun _ _ _ _ => induction) (.inl rfl)

end Execution

end GraphQuery
