import GraphQuery.Proofs.Execution.History
import GraphQuery.Proofs.Execution.Reports
import GraphQuery.Proofs.Schema.References

/-! The objects that are completed for a request, and what the work on them may note:
only the merged fields of an object that has been entered are called, answered or
reported. -/

namespace GraphQuery

variable {σ : Type}

/-! ## Objects inside values -/

/-- Completing a value as a type comes, at an item of lists inside it, to a value of an
object type. -/
inductive Schema.FindsObject {ρ : Type} (schema : Schema ρ) (context : Context) :
    TypeRef → Json → List Nat → ObjectDefinition ρ → Json → Prop where
  | nonNull {inner : TypeRef} {value found : Json} {positions : List Nat}
      {object : ObjectDefinition ρ}
      (finds : FindsObject schema context inner value positions object found) :
      FindsObject schema context (.nonNull inner) value positions object found
  | item {item : TypeRef} {items : List Json} {position : Nat} {value found : Json}
      {positions : List Nat} {object : ObjectDefinition ρ} (inside : items[position]? = some value)
      (finds : FindsObject schema context item value positions object found) :
      FindsObject schema context (.list item) (.array items) (position :: positions) object found
  | object {name : String} {object : ObjectDefinition ρ} {value : Json}
      (present : value.isNull = false) (isObject : schema.type? name = some (.object object)) :
      FindsObject schema context (.named name) value [] object value
  | abstract {name : String} {type : TypeDefinition ρ} {object : ObjectDefinition ρ}
      {value : Json} (present : value.isNull = false) (isType : schema.type? name = some type)
      (isAbstract : type.isAbstract = true)
      (resolved : schema.runtimeType? type value context = some object) :
      FindsObject schema context (.named name) value [] object value

def Path.item (place : Path) (positions : List Nat) : Path :=
  place ++ positions.map PathSegment.index

@[simp] theorem Path.item_nil (place : Path) : place.item [] = place := List.append_nil place

theorem Path.item_cons (place : Path) (position : Nat) (positions : List Nat) :
    place.item (position :: positions) = Path.item (place ++ [.index position]) positions := by
  simp [Path.item]

def FieldCause.isOfValue : FieldCause → Bool
  | .selections _ => false
  | .notOutputType _ _ => false
  | _ => true

namespace Completion

variable {completion : Completion σ} {law : Law} {known : List Event}

/-- Faults of values may be noted at the items of a place, and those of a type that is not one
of output. -/
structure MayFail (completion : Completion σ) (law : Law) (known : List Event) (type : TypeRef)
    (place : Path) : Prop where
  value : ∀ positions cause, cause.isOfValue = true →
    law.allows known (.failed ⟨cause, completion.site.location, place.item positions⟩)
  output : ∀ positions, ¬ completion.schema.Plays TypeDefinition.isOutput type →
    law.allows known (.failed ⟨.notOutputType type.base completion.site.qualifiedName,
      completion.site.location, place.item positions⟩)

theorem MayFail.item {item : TypeRef} {place : Path}
    (fails : completion.MayFail law known (.list item) place) (position : Nat) :
    completion.MayFail law known item (place ++ [.index position]) := by
  constructor
  · intro positions cause ofValue
    rw [← Path.item_cons]
    exact fails.value (position :: positions) cause ofValue
  · intro positions lacks
    rw [← Path.item_cons]
    exact fails.output (position :: positions) lacks

theorem MayFail.inner {inner : TypeRef} {place : Path}
    (fails : completion.MayFail law known (.nonNull inner) place) :
    completion.MayFail law known inner place :=
  ⟨fails.value, fails.output⟩

theorem MayFail.obeys_fail {type : TypeRef} {place : Path}
    (fails : completion.MayFail law known type place) {cause : FieldCause} {outcome : Outcome}
    (ofValue : cause.isOfValue = true) :
    (completion.site.fail (σ := σ) place cause outcome).Obeys law known :=
  .record (by simpa using fails.value [] cause ofValue) .done

theorem MayFail.obeys_leaf {type : TypeRef} {place : Path}
    (fails : completion.MayFail law known type place) {coerced : Coerced} :
    (completion.leaf place coerced).Obeys law known := by
  cases coerced with
  | error fault => exact fails.obeys_fail rfl
  | ok value => cases value <;> exact .done

theorem MayFail.obeys_named {name : String} {place : Path}
    (fails : completion.MayFail law known (.named name) place) {value : Json}
    (present : value.isNull = false)
    (below : ∀ object, completion.schema.FindsObject completion.context (.named name) value []
      object value → (completion.object object value place).Obeys law known) :
    (completion.named name value place).Obeys law known := by
  have abstractly : ∀ {type}, completion.schema.type? name = some type → type.isAbstract = true →
      (completion.abstractly type name value place).Obeys law known := by
    intro type isType isAbstract
    unfold Completion.abstractly
    split
    · rename_i object resolved
      exact below object (.abstract present isType isAbstract resolved)
    · exact fails.obeys_fail rfl
  unfold named
  split
  · exact fails.obeys_leaf
  · exact fails.obeys_leaf
  · rename_i object isObject
    exact below object (.object present isObject)
  · rename_i isType
    exact abstractly isType rfl
  · rename_i isType
    exact abstractly isType rfl
  · rename_i noScalar noEnum noObject noInterface noUnion
    have lacks : ¬ completion.schema.Plays TypeDefinition.isOutput (.named name) := by
      rintro ⟨target, found, isOutput⟩
      cases target with
      | scalar definition => exact noScalar definition found
      | enum definition => exact noEnum definition found
      | object definition => exact noObject definition found
      | interface definition => exact noInterface definition found
      | union definition => exact noUnion definition found
      | inputObject definition => cases isOutput
    have allowed := fails.output [] lacks
    rw [Path.item_nil] at allowed
    exact .record allowed .done

/-- Completing a value obeys a law if the work on each of the objects inside it does. -/
theorem MayFail.obeys_unsettled {type : TypeRef} {value : Json} {place : Path}
    (fails : completion.MayFail law known type place)
    (below : ∀ positions object found,
      completion.schema.FindsObject completion.context type value positions object found →
        (completion.object object found (place.item positions)).Obeys law known) :
    (completion.unsettled type value place).Obeys law known := by
  induction type generalizing value place with
  | named name =>
      unfold unsettled
      cases null : value.isNull with
      | true => exact .done
      | false => exact fails.obeys_named null fun object finds => by simpa using below [] _ _ finds
  | list item induction =>
      unfold unsettled
      split
      · exact .done
      · rename_i items
        refine .group ?_ fun _ => .done
        intro part member
        rcases List.mem_mapIdx.mp member with ⟨position, bound, rfl⟩
        refine (induction (fails.item position) fun positions object found finds => ?_).map
        rw [← Path.item_cons]
        exact below _ _ _ (.item (List.getElem?_eq_getElem bound) finds)
      · exact fails.obeys_fail rfl
  | nonNull inner induction =>
      refine (induction fails.inner fun positions object found finds =>
        below positions object found (.nonNull finds)).andThen fun outcome => ?_
      cases outcome with
      | null => exact fails.obeys_fail rfl
      | _ => exact .done

end Completion

/-! ## Entering objects -/

/-- An object is found in an answer of the resolver that a merged field of an object calls. -/
inductive Execution.Finds (execution : Execution σ) (parent : ObjectDefinition (Resolver σ))
    (value : Json) (place : Path) (merged : MergedField) :
    List Nat → ObjectDefinition (Resolver σ) → Json → Prop where
  | intro {field : FieldDefinition (Resolver σ)} {arguments : Arguments} {answer found : Json}
      {positions : List Nat} {object : ObjectDefinition (Resolver σ)}
      (defined : Entries.get? merged.name parent.fields = some field)
      (accepted : execution.schema.coerceArguments field merged.arguments execution.bindings =
        .ok arguments)
      (answers : (execution.resolution field ⟨value, arguments, execution.context, merged.name,
        parent.name, field.type, place ++ [.key merged.key]⟩).CanAnswer (.ok answer))
      (finds : execution.schema.FindsObject execution.context field.type answer positions object
        found) :
      Finds execution parent value place merged positions object found

namespace Preparation

variable {preparation : Preparation σ} {rootValue : Json}

/-- The objects that can be completed for a request, each with its place, its value and
the merged fields that are asked of it. -/
inductive Enters (preparation : Preparation σ) (rootValue : Json) :
    Path → ObjectDefinition (Resolver σ) → Json → FieldMap → Prop where
  | root : Enters preparation rootValue [] preparation.root rootValue preparation.fields
  | inside {place : Path} {parent object : ObjectDefinition (Resolver σ)} {value found : Json}
      {fields inner : FieldMap} {merged : MergedField} {positions : List Nat}
      (enters : Enters preparation rootValue place parent value fields) (member : merged ∈ fields)
      (finds : preparation.execution.Finds parent value place merged positions object found)
      (collected : (preparation.execution.expansion object).merge merged.selectionSets =
        .ok inner) :
      Enters preparation rootValue (Path.item (place ++ [.key merged.key]) positions) object found
        inner

/-- The object of a place is being completed: it is the root, or the field that it is found
in has answered. -/
def Begun (known : List Event) (place : Path) : Prop :=
  place = [] ∨ ∃ above positions, Event.answered above ∈ known ∧ place = above.item positions

theorem Begun.mono {earlier later : List Event} {place : Path} (begun : Begun earlier place)
    (subset : earlier ⊆ later) : Begun later place := by
  rcases begun with root | ⟨above, positions, answered, same⟩
  · exact .inl root
  · exact .inr ⟨above, positions, subset answered, same⟩

/-- A merged field of an object that is being completed. -/
structure Asks (preparation : Preparation σ) (rootValue : Json) (known : List Event) (place : Path)
    (merged : MergedField) : Prop where
  begun : Begun known place
  entered : ∃ object value fields, preparation.Enters rootValue place object value fields ∧
    merged ∈ fields

/-- An event concerns a merged field of an object that is being completed. What fails is the
field, an item of its value, or the merging of its selections for an object there; its type
only if that is not one of output. -/
inductive Allows (preparation : Preparation σ) (rootValue : Json) (known : List Event) :
    Event → Prop where
  | called {place : Path} {merged : MergedField}
      (asks : preparation.Asks rootValue known place merged) :
      Allows preparation rootValue known (.called (place ++ [.key merged.key]))
  | answered {place : Path} {merged : MergedField}
      (asks : preparation.Asks rootValue known place merged) :
      Allows preparation rootValue known (.answered (place ++ [.key merged.key]))
  | failed {place : Path} {merged : MergedField} {fault : FieldFault} {positions : List Nat}
      (asks : preparation.Asks rootValue known place merged)
      (found : fault.path = Path.item (place ++ [.key merged.key]) positions)
      (selections : ∀ cause, fault.cause = .selections cause →
        ∃ object, (preparation.execution.expansion object).merge merged.selectionSets =
          .error cause)
      (types : ∀ type name, fault.cause = .notOutputType type name →
        ∃ object value fields field, preparation.Enters rootValue place object value fields ∧
          Entries.get? merged.name object.fields = some field ∧
          ¬ preparation.execution.schema.Plays TypeDefinition.isOutput field.type) :
      Allows preparation rootValue known (.failed fault)

def law (preparation : Preparation σ) (rootValue : Json) : Law where
  allows := preparation.Allows rootValue
  mono subset allows := by
    have widen : ∀ {place merged}, preparation.Asks rootValue _ place merged →
        preparation.Asks rootValue _ place merged :=
      fun asks => ⟨asks.begun.mono subset, asks.entered⟩
    cases allows with
    | called asks => exact .called (widen asks)
    | answered asks => exact .answered (widen asks)
    | failed asks found selections types => exact .failed (widen asks) found selections types

variable {known : List Event}

theorem Asks.allows_failed {place : Path} {merged : MergedField}
    (asks : preparation.Asks rootValue known place merged) (positions : List Nat)
    {cause : FieldCause} (ofValue : cause.isOfValue = true) (location : Location) :
    (preparation.law rootValue).allows known
      (.failed ⟨cause, location, Path.item (place ++ [.key merged.key]) positions⟩) := by
  apply Allows.failed asks rfl
  · rintro fault rfl
    cases ofValue
  · rintro type name rfl
    cases ofValue

theorem Asks.obeys_fail {place : Path} {merged : MergedField}
    (asks : preparation.Asks rootValue known place merged) {site : FieldSite} {cause : FieldCause}
    {outcome : Outcome} (ofValue : cause.isOfValue = true) :
    (site.fail (σ := σ) (place ++ [.key merged.key]) cause outcome).Obeys
      (preparation.law rootValue) known :=
  .record (by simpa using asks.allows_failed [] ofValue site.location) .done

/-! ## The work of a request -/

def ObeysBelow (preparation : Preparation σ) (rootValue : Json)
    (object : ObjectDefinition (Resolver σ)) (value : Json) (place : Path) (merged : MergedField)
    (below : ObjectWork σ) : Prop :=
  ∀ known positions inner found, Begun known place →
    Event.answered (place ++ [.key merged.key]) ∈ known →
    preparation.execution.Finds object value place merged positions inner found →
      (below inner found (Path.item (place ++ [.key merged.key]) positions)).Obeys
        (preparation.law rootValue) known

variable {object : ObjectDefinition (Resolver σ)} {value : Json} {place : Path} {fields : FieldMap}

theorem obeys_definedField {below : ObjectWork σ} {merged : MergedField}
    {field : FieldDefinition (Resolver σ)} (begun : Begun known place)
    (enters : preparation.Enters rootValue place object value fields) (member : merged ∈ fields)
    (defined : Entries.get? merged.name object.fields = some field)
    (obeys : preparation.ObeysBelow rootValue object value place merged below) :
    (preparation.execution.definedField below object value (place ++ [.key merged.key]) merged
      field).Obeys (preparation.law rootValue) known := by
  have asks : ∀ {more}, Begun more place → preparation.Asks rootValue more place merged :=
    fun begun => ⟨begun, object, value, fields, enters, member⟩
  have begunLater : ∀ {first second}, Begun (second :: first :: known) place :=
    begun.mono fun event inside => List.mem_cons_of_mem _ (List.mem_cons_of_mem _ inside)
  unfold Execution.definedField
  split
  · exact .quiet ((asks begun).obeys_fail rfl)
  · rename_i arguments accepted
    refine .calling (.called (asks begun)) (.ofResolution fun result answers => ?_)
    refine .record (.answered (asks (begun.mono (List.subset_cons_self _ _)))) ?_
    cases result with
    | error fault => exact (asks begunLater).obeys_fail rfl
    | ok answer =>
        refine (Completion.MayFail.obeys_unsettled ⟨?_, ?_⟩
          fun positions inner found finds => ?_).map
        · exact fun positions cause ofValue => (asks begunLater).allows_failed positions ofValue _
        · intro positions lacks
          refine .failed (asks begunLater) rfl nofun fun type name _ => ?_
          exact ⟨object, value, fields, field, enters, defined, lacks⟩
        · exact obeys _ positions inner found begunLater List.mem_cons_self
            (.intro defined accepted answers finds)

theorem obeys_field {below : MergedField → ObjectWork σ} {merged : MergedField}
    (begun : Begun known place) (enters : preparation.Enters rootValue place object value fields)
    (member : merged ∈ fields)
    (obeys : preparation.ObeysBelow rootValue object value place merged (below merged)) :
    (preparation.execution.field below object value place merged).Obeys
      (preparation.law rootValue) known := by
  apply Opening.Obeys.unlessCancelled
  split
  · exact .quiet .done
  · split
    · have asks : preparation.Asks rootValue known place merged :=
        ⟨begun, object, value, fields, enters, member⟩
      exact .quiet (asks.obeys_fail rfl)
    · rename_i field defined
      exact obeys_definedField begun enters member defined obeys

theorem obeys_fields {below : MergedField → ObjectWork σ}
    {arrange : List (Work σ) → (List Outcome → Work σ) → Work σ}
    (arranged : arrange = .group ∨ arrange = .inOrder) (begun : Begun known place)
    (enters : preparation.Enters rootValue place object value fields)
    (obeys : ∀ merged ∈ fields,
      preparation.ObeysBelow rootValue object value place merged (below merged)) :
    (preparation.execution.fields below arrange fields object value place).Obeys
      (preparation.law rootValue) known := by
  have all : ∀ work ∈ fields.map (preparation.execution.field below object value place),
      work.Obeys (preparation.law rootValue) known := by
    intro work member
    rcases List.mem_map.mp member with ⟨merged, asked, rfl⟩
    exact obeys_field begun enters asked (obeys merged asked)
  rcases arranged with rfl | rfl
  · exact .group all fun _ => .done
  · exact .inOrder all fun _ => .done

/-- An object that is found is entered, unless its selections cannot be merged. -/
theorem obeysBelow_object (levels : Nat) {merged : MergedField}
    (enters : preparation.Enters rootValue place object value fields) (member : merged ∈ fields) :
    preparation.ObeysBelow rootValue object value place merged
      (preparation.execution.object levels merged) := by
  induction levels generalizing place object value fields merged with
  | zero => exact fun _ _ _ _ _ _ _ => .done
  | succ levels induction =>
      intro known positions inner found begun answered finds
      unfold Execution.object
      split
      · rename_i fault refused
        refine .record (.failed ⟨begun, object, value, fields, enters, member⟩ rfl ?_ nofun) .done
        rintro _ ⟨⟩
        exact ⟨inner, refused⟩
      · rename_i innerFields collected
        have inside := enters.inside member finds collected
        exact obeys_fields (.inl rfl) (.inr ⟨_, positions, answered, rfl⟩) inside
          fun other otherMember => induction inside otherMember

theorem obeys_workAs {arrange : List (Work σ) → (List Outcome → Work σ) → Work σ}
    (arranged : arrange = .group ∨ arrange = .inOrder) :
    (preparation.workAs arrange rootValue).Obeys (preparation.law rootValue) known :=
  obeys_fields arranged (.inl rfl) .root fun _ member => obeysBelow_object _ .root member

end Preparation

/-! ## Reports -/

theorem Response.mem_errors_ofOutcome {outcome : Outcome} {session : Session σ}
    {error : ResponseError}
    (member : error ∈ (Response.ofOutcome outcome session).errors.getD []) :
    error = OperationFault.cancelled.toError ∨
      ∃ fault, Event.failed fault ∈ session.events ∧ error = fault.toError := by
  simp only [Response.ofOutcome] at member
  split at member
  · exact .inl (List.mem_singleton.mp member)
  · rw [Response.errors_withErrors, Session.errors_reporter] at member
    rcases List.mem_map.mp member with ⟨fault, found, rfl⟩
    rw [Session.faults_eq_filterMap] at found
    rcases List.mem_filterMap.mp found with ⟨event, happened, isFault⟩
    exact .inr ⟨fault, Event.eq_failed_of_fault? isFault ▸ happened, rfl⟩

namespace Schema.MayReport

variable {schema : Schema (Resolver σ)} {configuration : Configuration} {document : Document}
  {request : Request} {context : Context} {state : σ} {report : Report σ}

theorem governed
    (reports : schema.MayReport configuration document request context state report) :
    report.session.events = [] ∨ ∃ preparation,
      schema.prepare configuration document request context = .ok preparation ∧
      (preparation.law request.rootValue).Governs report.session.events := by
  cases reports with
  | empty => exact .inl rfl
  | refused => exact .inl rfl
  | @carriedOut preparation _ _ _ _ prepared arranged reaches =>
      have lawful := Work.Lawful.of_reaches reaches
        ⟨preparation.obeys_workAs arranged, Law.governs_nil⟩
      exact .inr ⟨preparation, prepared, lawful.governs⟩

theorem exists_fault_of_error
    (reports : schema.MayReport configuration document request context state report)
    {error : ResponseError} (member : error ∈ report.response.errors.getD []) :
    error.path = [] ∨ ∃ fault, Event.failed fault ∈ report.session.events ∧
      error = fault.toError := by
  cases reports with
  | empty => cases member
  | refused => exact .inl (List.mem_singleton.mp member ▸ rfl)
  | carriedOut =>
      rcases Response.mem_errors_ofOutcome member with rfl | failed
      · exact .inl rfl
      · exact .inr failed

end Schema.MayReport

end GraphQuery
