import GraphQuery.Proofs.Execution.ErrorPlaces
import GraphQuery.Proofs.Execution.Objects
import GraphQuery.Proofs.Execution.Succession

/-! Nothing happens twice at a place of a response: its resolver is called at most once, and
at most one fault is found there. -/

namespace GraphQuery

variable {σ : Type}

/-! ## Events that do not repeat -/

namespace Event

inductive Kind where
  | called
  | answered
  | failed
deriving DecidableEq, Repr

def kind : Event → Kind
  | .called _ => .called
  | .answered _ => .answered
  | .failed _ => .failed

def label (event : Event) : Kind × Path := (event.kind, event.path)

def called? : Event → Option Path
  | .called path => some path
  | _ => none

end Event

/-- Events of a place and those below it, of which none happens again. -/
structure Once (place : Path) (events : List Event) : Prop where
  nodup : (events.map Event.label).Nodup
  below : ∀ event ∈ events, event.Below place

namespace Once

variable {place : Path} {events others : List Event}

theorem nil : Once place [] := ⟨by simp, by simp⟩

theorem singleton {event : Event} (below : event.Below place) : Once place [event] :=
  ⟨by simp, by simpa using below⟩

end Once

/-- What a value notes that is completed at a place: only faults at the place itself, and
nothing if the value becomes null. -/
structure Tidy (place : Path) (events : List Event) (outcome : Outcome) : Prop
    extends Once place events where
  own : ∀ event ∈ events, event.path = place → event.kind = .failed
  quiet : outcome = .null → events = []

namespace Tidy

variable {place : Path} {events : List Event} {outcome : Outcome}

theorem nil : Tidy place [] outcome := ⟨.nil, by simp, fun _ => rfl⟩

theorem failed (fault : FieldFault) (here : fault.path = place) :
    Tidy place [.failed fault] .bubble where
  toOnce := .singleton ⟨[], by simp [Event.path, here]⟩
  own := by simp [Event.kind]
  quiet := nofun

theorem of_inside (nodup : (events.map Event.label).Nodup)
    (inside : ∀ event ∈ events, ∃ segment, event.Below (place ++ [segment]))
    (present : outcome ≠ .null) : Tidy place events outcome where
  nodup := nodup
  below event member := by
    rcases inside event member with ⟨segment, below⟩
    exact below.of_prefix (List.prefix_append _ _)
  own event member here := by
    rcases inside event member with ⟨segment, rest, below⟩
    have longer := congrArg List.length (below.trans here)
    simp at longer
  quiet null := absurd null present

/-- The call of a resolver, its answer, and what follows from it. -/
theorem answered (tidy : Tidy place events outcome) :
    Once place (.called place :: .answered place :: events) where
  nodup := by
    have fresh : ∀ kind, kind ≠ .failed → (kind, place) ∉ events.map Event.label := by
      intro kind other member
      rcases List.mem_map.mp member with ⟨event, inside, same⟩
      have parts := Prod.mk.inj same
      exact other (parts.1.symm.trans (tidy.own event inside parts.2))
    simp only [List.map_cons, List.nodup_cons, List.mem_cons, not_or]
    exact ⟨⟨by simp [Event.label, Event.kind], fresh _ (by simp [Event.kind])⟩,
      fresh _ (by simp [Event.kind]), tidy.nodup⟩
  below event member := by
    rcases List.mem_cons.mp member with rfl | member
    · exact List.prefix_refl _
    · rcases List.mem_cons.mp member with rfl | member
      · exact List.prefix_refl _
      · exact tidy.below event member

end Tidy

/-! ## Work -/

namespace Work

variable {calm : Bool} {events : List Event} {outcome : Outcome}

def NotesOnce (place : Path) (work : Work σ) : Prop :=
  ∀ calm events outcome, Ends calm work events outcome → Once place events

def NotesTidily (place : Path) (work : Work σ) : Prop :=
  ∀ calm events outcome, Ends calm work events outcome → Tidy place events outcome

theorem NotesTidily.once {place : Path} {work : Work σ} (tidily : work.NotesTidily place) :
    work.NotesOnce place :=
  fun _ _ _ ends => (tidily _ _ _ ends).toOnce

theorem NotesOnce.map {place : Path} {convert : Outcome → Outcome} {work : Work σ}
    (once : work.NotesOnce place) : (work.map convert).NotesOnce place := by
  intro calm events outcome ends
  rcases ends.of_map with ⟨between, ended, _⟩
  exact once _ _ _ ended

theorem Ends.exists_of_ofResolution {next : Except ResolverFault Json → Work σ}
    {resolution : Resolution σ} (ends : Ends calm (ofResolution next resolution) events outcome) :
    ∃ result, Ends calm (next result) events outcome := by
  induction resolution with
  | answer result => exact ⟨result, ends⟩
  | perform effect rest induction =>
      cases ends with
      | perform _ ends => exact induction _ ends
  | cancel rest induction =>
      cases ends with
      | cancel _ ends => exact induction ends
  | pause milliseconds rest induction =>
      cases ends with
      | pause ends => exact induction ends

theorem EndAll.once {works : List (Path × Work σ)} (apart : works.Pairwise Apart)
    (each : ∀ work ∈ works, work.2.NotesOnce work.1) {outcomes : List Outcome}
    (all : EndAll calm (works.map Prod.snd) events outcomes) :
    (events.map Event.label).Nodup ∧ ∀ event ∈ events, ∃ work ∈ works, event.Below work.1 := by
  induction works generalizing events outcomes with
  | nil =>
      cases all
      simp
  | cons work rest induction =>
      cases all with
      | @cons _ _ events others _ _ ends all =>
          rw [List.pairwise_cons] at apart
          rw [List.forall_mem_cons] at each
          have here := each.1 _ _ _ ends
          rcases induction apart.2 each.2 all with ⟨nodup, below⟩
          constructor
          · rw [List.map_append]
            refine List.nodup_append'.mpr ⟨here.nodup, nodup, ?_⟩
            intro label first second
            rcases List.mem_map.mp first with ⟨event, member, rfl⟩
            rcases List.mem_map.mp second with ⟨other, otherMember, same⟩
            rcases below other otherMember with ⟨later, inside, ofRest⟩
            have ofFirst : other.Below work.1 := by
              rw [Event.Below, (Prod.mk.inj same).2]
              exact here.below event member
            exact apart.1 later inside other ofFirst ofRest
          · intro event member
            rcases List.mem_append.mp member with member | member
            · exact ⟨work, List.mem_cons_self, here.below event member⟩
            · rcases below event member with ⟨other, inside, ofRest⟩
              exact ⟨other, List.mem_cons_of_mem _ inside, ofRest⟩

theorem notesTidily_group {place : Path} {works : List (PathSegment × Work σ)}
    (nodup : (works.map Prod.fst).Nodup)
    (each : ∀ work ∈ works, work.2.NotesOnce (place ++ [work.1]))
    {conclude : List Outcome → Outcome} (present : ∀ outcomes, conclude outcomes ≠ .null) :
    NotesTidily place (.group (works.map Prod.snd) (.done ∘ conclude)) := by
  intro calm events outcome ends
  cases ends with
  | group all ends =>
      cases ends
      have placed : works.map Prod.snd =
          (works.map fun work => (place ++ [work.1], work.2)).map Prod.snd := by
        rw [List.map_map]
        rfl
      rw [placed] at all
      have apart : (works.map fun work => (place ++ [work.1], work.2)).Pairwise Apart := by
        rw [List.pairwise_map]
        exact (List.pairwise_map.mp nodup).imp fun different event ofFirst ofSecond =>
          different (ofFirst.segment_unique ofSecond)
      rcases EndAll.once apart (List.forall_mem_map.mpr each) all with ⟨nodup, below⟩
      rw [List.append_nil]
      refine .of_inside nodup (fun event member => ?_) (present _)
      rcases below event member with ⟨work, inside, ofWork⟩
      rcases List.mem_map.mp inside with ⟨source, _, rfl⟩
      exact ⟨source.1, ofWork⟩

theorem notesTidily_items {α : Type} {place : Path} {items : List α} {work : Nat → α → Work σ}
    (each : ∀ index item, (work index item).NotesOnce (place ++ [.index index]))
    {conclude : List Outcome → Outcome} (present : ∀ outcomes, conclude outcomes ≠ .null) :
    NotesTidily place (.group (items.mapIdx work) (.done ∘ conclude)) := by
  have parts : items.mapIdx work = (items.zipIdx.map fun entry =>
      (PathSegment.index entry.2, work entry.2 entry.1)).map Prod.snd := by
    rw [List.mapIdx_eq_zipIdx_map, List.map_map]
    rfl
  rw [parts]
  refine notesTidily_group ?_ ?_ present
  · have indices : (items.zipIdx.map Prod.snd).Nodup := by
      rw [List.zipIdx_map_snd]
      exact List.nodup_range' 1
    have distinct := indices.map fun first second => PathSegment.index.inj
    rwa [List.map_map] at distinct ⊢
  · intro placed member
    rcases List.mem_map.mp member with ⟨entry, _, rfl⟩
    exact each entry.2 entry.1

end Work

/-! ## The work of a request -/

theorem FieldSite.notesTidily_fail {site : FieldSite} {place : Path} {cause : FieldCause} :
    (site.fail (σ := σ) place cause .bubble).NotesTidily place := by
  intro calm events outcome ends
  cases ends with
  | record ends =>
      cases ends
      exact .failed _ rfl

namespace Completion

variable {completion : Completion σ}

theorem notesTidily_leaf {place : Path} {coerced : Coerced} :
    (completion.leaf place coerced).NotesTidily place := by
  cases coerced with
  | error fault => exact FieldSite.notesTidily_fail
  | ok value =>
      intro calm events outcome ends
      cases value <;> (cases ends; exact .nil)

variable (below : ∀ object value place,
  (completion.object object value place).NotesTidily place)

include below

theorem notesTidily_abstractly {type : TypeDefinition (Resolver σ)} {name : String} {value : Json}
    {place : Path} : (completion.abstractly type name value place).NotesTidily place := by
  unfold abstractly
  split
  · exact below _ _ _
  · exact FieldSite.notesTidily_fail

theorem notesTidily_named {name : String} {value : Json} {place : Path} :
    (completion.named name value place).NotesTidily place := by
  unfold named
  split
  · exact notesTidily_leaf
  · exact notesTidily_leaf
  · exact below _ _ _
  · exact notesTidily_abstractly below
  · exact notesTidily_abstractly below
  · exact FieldSite.notesTidily_fail

theorem notesTidily_unsettled {type : TypeRef} {value : Json} {place : Path} :
    (completion.unsettled type value place).NotesTidily place := by
  induction type generalizing value place with
  | named name =>
      unfold unsettled
      split
      · intro calm events outcome ends
        cases ends
        exact .nil
      · exact notesTidily_named below
  | list item induction =>
      unfold unsettled
      split
      · intro calm events outcome ends
        cases ends
        exact .nil
      · exact Work.notesTidily_items (fun _ _ => induction.once.map) Outcome.ofItems_ne_null
      · exact FieldSite.notesTidily_fail
  | nonNull inner induction =>
      intro calm events outcome ends
      rcases ends.of_andThen with ⟨first, between, second, ended, following, rfl⟩
      have tidy := induction _ _ _ ended
      cases between with
      | null =>
          -- the refusal is the first that is told of the place
          rw [tidy.quiet rfl, List.nil_append]
          exact FieldSite.notesTidily_fail _ _ _ following
      | _ =>
          cases following
          rwa [List.append_nil]

end Completion

namespace Execution

variable {execution : Execution σ}

theorem once_of_definedField {below : ObjectWork σ}
    (tidily : ∀ object value place, (below object value place).NotesTidily place)
    {object : ObjectDefinition (Resolver σ)} {parent : Json} {place : Path} {merged : MergedField}
    {field : FieldDefinition (Resolver σ)} {calm : Bool} {events : List Event}
    {outcome : Outcome}
    (ends : (execution.definedField below object parent place merged field).Ends calm events
      outcome) : Once place events := by
  unfold definedField at ends
  split at ends
  · cases Opening.ends_quiet.mp ends with
    | record ends =>
        cases ends
        exact .singleton (List.prefix_refl _)
  · rcases Opening.ends_calling.mp ends with ⟨later, rfl, following⟩
    rcases following.exists_of_ofResolution with ⟨result, ends⟩
    cases ends with
    | record ends =>
        cases result with
        | error fault =>
            cases ends with
            | record ends =>
                cases ends
                have tidy := Tidy.failed ⟨.resolver fault, merged.location, place⟩ rfl
                exact tidy.answered
        | ok value =>
            rcases ends.of_map with ⟨between, ended, _⟩
            exact (Completion.notesTidily_unsettled tidily _ _ _ ended).answered

theorem notesOnce_field {below : MergedField → ObjectWork σ} {merged : MergedField}
    (tidily : ∀ object value place, (below merged object value place).NotesTidily place)
    {object : ObjectDefinition (Resolver σ)} {parent : Json} {place : Path} :
    (execution.field below object parent place merged).NotesOnce
      (place ++ [.key merged.key]) := by
  intro calm events outcome ends
  rcases Opening.ends_of_begin ends with ⟨_, rfl⟩ | started
  · exact .nil
  · split at started
    · cases Opening.ends_quiet.mp started
      exact .nil
    · split at started
      · cases Opening.ends_quiet.mp started with
        | record ends =>
            cases ends
            exact .singleton (List.prefix_refl _)
      · exact once_of_definedField tidily started

theorem notesTidily_fields {below : MergedField → ObjectWork σ}
    (tidily : ∀ merged object value place, (below merged object value place).NotesTidily place)
    {arrange : List (Work σ) → (List Outcome → Work σ) → Work σ}
    (arranged : arrange = .group ∨ arrange = .inOrder) {fields : FieldMap}
    (nodup : (fields.map MergedField.key).Nodup) {object : ObjectDefinition (Resolver σ)}
    {value : Json} {place : Path} :
    (execution.fields below arrange fields object value place).NotesTidily place := by
  have sideBySide : (execution.fields below .group fields object value place).NotesTidily
      place := by
    have parts : fields.map (execution.field below object value place) =
        (fields.map fun merged => (PathSegment.key merged.key,
          execution.field below object value place merged)).map Prod.snd := by
      rw [List.map_map]
      rfl
    rw [Execution.fields, parts]
    refine Work.notesTidily_group ?_ ?_ (Outcome.ofFields_ne_null _)
    · have distinct := nodup.map fun first second => PathSegment.key.inj
      rwa [List.map_map] at distinct ⊢
    · intro placed member
      rcases List.mem_map.mp member with ⟨merged, _, rfl⟩
      exact notesOnce_field (tidily merged)
  rcases arranged with rfl | rfl
  · exact sideBySide
  · exact fun calm events outcome ends => sideBySide _ _ _ (.of_inOrder ends)

theorem notesTidily_object (levels : Nat) (merged : MergedField)
    (object : ObjectDefinition (Resolver σ)) (value : Json) (place : Path) :
    (execution.object levels merged object value place).NotesTidily place := by
  induction levels generalizing merged object value place with
  | zero =>
      intro calm events outcome ends
      cases ends
      exact .nil
  | succ levels induction =>
      unfold Execution.object
      split
      · exact FieldSite.notesTidily_fail
      · rename_i fields collected
        exact notesTidily_fields induction (.inl rfl) (Expansion.nodup_keys_merge collected)

end Execution

/-! ## Reports -/

namespace Event

variable {events : List Event}

theorem eq_called_of_called? {event : Event} {path : Path} (found : event.called? = some path) :
    event = .called path := by
  cases event with
  | called => exact congrArg Event.called (Option.some.inj found)
  | _ => cases found

theorem nodup_calls (nodup : (events.map label).Nodup) : (events.filterMap called?).Nodup := by
  refine List.pairwise_filterMap.mpr ((List.pairwise_map.mp nodup).imp ?_)
  rintro first second different path isCall other isOther rfl
  rw [eq_called_of_called? isCall, eq_called_of_called? isOther] at different
  exact different rfl

theorem nodup_faults (nodup : (events.map label).Nodup) :
    ((events.filterMap fault?).map FieldFault.path).Nodup := by
  refine List.pairwise_map.mpr (List.pairwise_filterMap.mpr ((List.pairwise_map.mp nodup).imp ?_))
  intro first second different fault isFault other isOther same
  rw [eq_failed_of_fault? isFault, eq_failed_of_fault? isOther] at different
  exact different (Prod.ext rfl same)

end Event

namespace Schema.MayReport

variable {schema : Schema (Resolver σ)} {configuration : Configuration} {document : Document}
  {request : Request} {context : Context} {state : σ} {report : Report σ}

theorem nodup_labels
    (reports : schema.MayReport configuration document request context state report) :
    (report.session.events.map Event.label).Nodup := by
  cases reports with
  | empty => simp [Session.events]
  | refused => simp [Session.events]
  | carriedOut _ prepared arranged reaches =>
      rcases exists_plan_of_prepare prepared with ⟨plan, planned, rfl⟩
      have nodup := Expansion.nodup_keys_merge (answers_of_plan planned).fields
      rcases reaches.ends with ⟨events, ends, same⟩
      have tidy := Execution.notesTidily_fields (Execution.notesTidily_object _) arranged nodup
        _ _ _ ends
      exact (same.map Event.label).nodup_iff.mpr tidy.nodup

theorem nodup_errors
    (reports : schema.MayReport configuration document request context state report) :
    ((report.response.errors.getD []).map ResponseError.path).Nodup := by
  have faults := Event.nodup_faults reports.nodup_labels
  cases reports with
  | empty => exact List.nodup_nil
  | refused => exact List.nodup_singleton _
  | @carriedOut _ _ outcome final =>
      simp only [Response.ofOutcome]
      split
      · exact List.nodup_singleton _
      · rw [Response.errors_withErrors, Session.errors_reporter, List.map_map,
          Session.faults_eq_filterMap]
        exact faults

/-- Whatever the order in which things happen, no resolver is called twice for the same
place and no two errors have the same path. A call is one for a response key of an object
that is being completed, and of each place that fails there is one error. -/
theorem happens_once
    (reports : schema.MayReport configuration document request context state report) :
    (report.session.events.filterMap Event.called?).Nodup ∧
    ((report.response.errors.getD []).map ResponseError.path).Nodup ∧
    (∀ earlier path later, report.session.events = earlier ++ .called path :: later →
      ∃ preparation place merged,
        schema.prepare configuration document request context = .ok preparation ∧
        preparation.Asks request.rootValue earlier place merged ∧
        path = place ++ [.key merged.key]) ∧
    ∀ data, report.response.data = some data → ∃ preparation traces,
      schema.prepare configuration document request context = .ok preparation ∧
      preparation.execution.setting.CompletesFields preparation.root request.rootValue []
        preparation.fields traces ∧
      ∀ path fault, (Trace.object traces).FailsAt path fault →
        fault.toError ∈ report.response.errors.getD [] ∧
        ((report.response.errors.getD []).map ResponseError.path).count path = 1 := by
  refine ⟨Event.nodup_calls reports.nodup_labels, reports.nodup_errors, ?_, ?_⟩
  · intro earlier path later same
    rcases reports.governed with nothing | ⟨preparation, prepared, governs⟩
    · rw [nothing] at same
      cases earlier <;> cases same
    · cases governs earlier _ later same with
      | called asks => exact ⟨preparation, _, _, prepared, asks, rfl⟩
  · intro data present
    rcases reports.exists_trace present with ⟨preparation, traces, prepared, completes, _, errors⟩
    refine ⟨preparation, traces, prepared, completes, fun path fault fails => ?_⟩
    rcases exists_plan_of_prepare prepared with ⟨plan, planned, rfl⟩
    have located : (Trace.object traces).Located [] :=
      Setting.located_fields (answers_of_plan planned).fields completes completes.located
    have member : fault.toError ∈ report.response.errors.getD [] :=
      errors.mem_iff.mpr (List.mem_map_of_mem (located.distinct.mem_faults_iff.mpr ⟨path, fails⟩))
    have place : fault.toError.path = path := located.path_eq fails
    exact ⟨member, List.count_eq_one_of_mem reports.nodup_errors
      (List.mem_map.mpr ⟨_, member, place⟩)⟩

end Schema.MayReport

/-- The host is asked for the name once the host is there. -/
theorem Visit.host_is_asked_once :
    (schema (.pure answer)).MayReport .standard document request [] () report ∧
      (session.events.filterMap Event.called?).Nodup ∧
      ∃ preparation place merged,
        (schema (.pure answer : Resolver Unit)).prepare .standard document request [] =
          .ok preparation ∧
        preparation.Asks .null [.called [.key "host"], .answered [.key "host"]] place merged ∧
        [.key "host", .key "name"] = place ++ [.key merged.key] :=
  ⟨mayReport, mayReport.happens_once.1, mayReport.happens_once.2.2.1 _ _ _ rfl⟩

end GraphQuery
