import GraphQuery.Inspection
import GraphQuery.Proofs.Execution.CheckedSpreads
import GraphQuery.Proofs.Execution.Refusals

/-! A document that has been checked is not refused for anything the check looks at, and what
the check finds wrong with a document is what every request for it is refused for. -/

namespace GraphQuery

/-! ## What a check finds -/

inductive SelectionFault.IsStatic : SelectionFault → Prop
  | unknownFragment (name : String) (location : Location) :
      IsStatic (.unknownFragment name location)
  | fragmentCycle (name : String) (location : Location) :
      IsStatic (.fragmentCycle name location)

theorem SelectionFault.IsDirective.not_isStatic {fault : SelectionFault}
    (isDirective : fault.IsDirective) : ¬ fault.IsStatic := by
  rcases isDirective with ⟨name, location, rfl⟩
  exact nofun

/-- The text of the request is to blame, its depth, or the choice of an operation. -/
inductive OperationFault.IsStatic : OperationFault → Prop
  | malformed (error : SyntaxError) : IsStatic (.malformed error)
  | selections {fault : SelectionFault} (isStatic : fault.IsStatic) : IsStatic (.selections fault)
  | unknownOperation (name : String) : IsStatic (.unknownOperation name)
  | ambiguousOperation : IsStatic .ambiguousOperation
  | tooDeep (depth limit : Nat) : IsStatic (.tooDeep depth limit)

/-- Only the spreads can be to blame for a single place. -/
inductive FieldCause.IsStatic : FieldCause → Prop
  | selections {fault : SelectionFault} (isStatic : fault.IsStatic) : IsStatic (.selections fault)

namespace Document

variable {document : Document} {maxDepth : Option Nat} {operations fragments : Nat}
  {problems : List Problem} {fault : SelectionFault}

theorem checkSpreads_of_valid (checked : document.check maxDepth = .valid operations fragments) :
    document.checkSpreads = .ok () := by
  unfold check at checked
  split at checked
  · cases checked
  next passed => exact passed

theorem depth_le_of_valid {limit : Nat}
    (checked : document.check (some limit) = .valid operations fragments)
    {operation : OperationDefinition} (member : operation ∈ document.operations) :
    operation.selectionSet.depth document.fragments ≤ limit := by
  simp only [check, checkSpreads_of_valid checked] at checked
  split at checked
  next none =>
    have shallow := (List.append_eq_nil_iff.mp none).1
    have passed := List.filterMap_eq_nil_iff.mp shallow operation member
    by_contra deep
    simp [Nat.lt_of_not_le deep] at passed
  · cases checked

theorem selection_not_mem_depthProblems (limit : Nat) :
    .selection fault ∉ document.depthProblems limit := by
  intro member
  rcases List.mem_filterMap.mp member with ⟨operation, _, found⟩
  dsimp only at found
  split at found <;> cases found

theorem selection_not_mem_namingProblems : .selection fault ∉ document.namingProblems := by
  unfold namingProblems
  split <;> simp

theorem checkSpreads_of_problem (checked : document.check maxDepth = .invalid problems)
    (member : .selection fault ∈ problems) : document.checkSpreads = .error fault := by
  unfold check at checked
  split at checked
  next found =>
    cases checked
    cases List.mem_singleton.mp member
    exact found
  · dsimp only at checked
    split at checked
    · cases checked
    · cases checked
      rcases List.mem_append.mp member with deep | unnamed
      · cases maxDepth with
        | none => cases deep
        | some limit => exact absurd deep (selection_not_mem_depthProblems limit)
      · exact absurd unnamed selection_not_mem_namingProblems

/-- A request that gives this name asks for an operation of the document. -/
def Offers (document : Document) : Option String → Prop
  | some name => ∃ operation ∈ document.operations, operation.name.map Name.text = some name
  | none => document.operations.length ≤ 1

theorem Offers.selects {name : Option String} (offers : document.Offers name)
    (something : document.operations ≠ []) :
    ∃ operation, document.selectOperation name = .ok operation := by
  cases name with
  | some name =>
      rcases offers with ⟨operation, member, named⟩
      rcases Option.map_eq_some_iff.mp named with ⟨label, found, rfl⟩
      have isSome : (document.operation? label.text).isSome = true := by
        apply List.find?_isSome.mpr
        exact ⟨operation, member, by simp [found]⟩
      rcases Option.isSome_iff_exists.mp isSome with ⟨chosen, selected⟩
      exact ⟨chosen, by simp only [selectOperation, selected]⟩
  | none =>
      rcases List.exists_cons_of_ne_nil something with ⟨operation, rest, found⟩
      have few : document.operations.length ≤ 1 := offers
      rw [found, List.length_cons] at few
      cases List.length_eq_zero_iff.mp (Nat.le_zero.mp (Nat.le_of_succ_le_succ few))
      exact ⟨operation, by simp only [selectOperation, found]⟩

theorem check_ne_malformed {error : SyntaxError} : document.check maxDepth ≠ .malformed error := by
  unfold check
  split
  · nofun
  · dsimp only
    split <;> nofun

end Document

section Sources

variable {source : String} {maxDepth : Option Nat} {document : Document}

theorem check_of_checkSource (parsed : Document.parse source = .ok document) :
    checkSource source maxDepth = document.check maxDepth := by
  simp only [checkSource, parsed]

theorem parse_of_malformed {error : SyntaxError}
    (checked : checkSource source maxDepth = .malformed error) :
    Document.parse source = .error error := by
  unfold checkSource at checked
  split at checked
  · cases checked
    assumption
  · exact absurd checked Document.check_ne_malformed

end Sources

/-! ## What a checked request comes upon -/

namespace Schema

section Steps

variable {ρ : Type} {schema : Schema ρ} {configuration : Configuration} {document : Document}
  {request : Request} {fault : OperationFault} {limit operations fragments : Nat}

theorem Refuses.not_isStatic (refuses : schema.Refuses configuration document request fault)
    (checked : document.check (some limit) = .valid operations fragments)
    (limited : configuration.maxDepth = some limit) (something : document.operations ≠ [])
    (offers : document.Offers request.operationName) : ¬ fault.IsStatic := by
  have passed := document.checkSpreads_of_valid checked
  rcases document.exists_order_of_checkSpreads passed with ⟨names, order⟩
  -- A step that can still fail asks for more than the document: the schema, the variables or
  -- the value of a condition.
  cases refuses with
  | spreads fails =>
      rw [passed] at fails
      cases fails
  | operation spreads fails =>
      rcases offers.selects something with ⟨operation, selected⟩
      rw [selected] at fails
      cases fails
  | root => exact nofun
  | bindings => exact nofun
  | @depth operation root bindings most spreads selected supported bound same fails =>
      rw [limited] at same
      cases same
      have shallow := document.depth_le_of_valid checked
        (Document.mem_operations_of_selectOperation selected)
      exact absurd fails (Nat.not_lt.mpr shallow)
  | @fields operation root bindings fault spreads selected supported bound within fails =>
      have isDirective : fault.IsDirective := by
        apply order.isDirective_of_merge rfl _ fails
        intro set only
        rw [List.mem_singleton.mp only]
        exact .operation (Document.mem_operations_of_selectOperation selected)
      intro isStatic
      cases isStatic with
      | selections isStatic => exact isDirective.not_isStatic isStatic

theorem FirstFault.not_isStatic (first : schema.FirstFault configuration request fault)
    (parsed : Document.parse request.query = .ok document)
    (checked : document.check (some limit) = .valid operations fragments)
    (limited : configuration.maxDepth = some limit)
    (offers : document.Offers request.operationName) : ¬ fault.IsStatic := by
  cases first with
  | parsing malformed =>
      rw [parsed] at malformed
      cases malformed
  | later again something refuses =>
      rw [parsed] at again
      cases again
      exact refuses.not_isStatic checked limited something offers

end Steps

variable {σ : Type} {schema : Schema (Resolver σ)} {configuration : Configuration}
  {document : Document} {request : Request} {context : Context} {state : σ} {report : Report σ}

theorem MayReport.not_isStatic
    (reports : schema.MayReport configuration document request context state report)
    (passed : document.checkSpreads = .ok ()) {fault : FieldFault}
    (happened : Event.failed fault ∈ report.session.events) : ¬ fault.cause.IsStatic := by
  rcases document.exists_order_of_checkSpreads passed with ⟨names, order⟩
  rcases reports.governed with nothing | ⟨preparation, prepared, governs⟩
  · rw [nothing] at happened
    cases happened
  cases governs.allows_of_mem happened with
  | failed asks _ selections =>
      intro isStatic
      cases same : fault.cause with
      | selections cause =>
          rcases asks.entered with ⟨_, _, _, enters, member⟩
          rcases selections cause same with ⟨object, refused⟩
          have occur := hasSet_of_enters prepared enters _ member
          rcases exists_plan_of_prepare prepared with ⟨plan, _, rfl⟩
          have isDirective := order.isDirective_of_merge rfl occur refused
          rw [same] at isStatic
          cases isStatic with
          | selections isStatic => exact isDirective.not_isStatic isStatic
      | _ =>
          rw [same] at isStatic
          cases isStatic

theorem MayRespond.exists_origin
    (responds : schema.MayRespond configuration request context state report)
    {error : ResponseError} (member : error ∈ report.response.errors.getD []) :
    (∃ fault, (schema.FirstFault configuration request fault ∨ fault = .cancelled) ∧
      error = fault.toError) ∨
    ∃ fault, Event.failed fault ∈ report.session.events ∧ error = fault.toError := by
  cases responds with
  | malformed refused => exact .inl ⟨_, .inl (.parsing refused), List.mem_singleton.mp member⟩
  | parsed parsed reports =>
      cases reports with
      | empty => cases member
      | refused something failed =>
          have first := FirstFault.later parsed (List.isEmpty_eq_false_iff.mp something)
            (refuses_of_prepare failed)
          exact .inl ⟨_, .inl first, List.mem_singleton.mp member⟩
      | carriedOut =>
          rcases Response.mem_errors_ofOutcome member with withdrawn | failed
          · exact .inl ⟨.cancelled, .inr rfl, withdrawn⟩
          · exact .inr failed

/-- A check and an execution agree. If the text of a request passes the check for a limit of
depth and the request asks for one of its operations, then under that limit neither the request
nor any of its places fails for anything the check looks at, and its errors are about other
faults. If the check finds the text malformed, or a fault in the spreads of a document with
operations, then the response is this fault, without data. -/
theorem MayRespond.agrees_with_check
    (responds : schema.MayRespond configuration request context state report) :
    (∀ limit operations fragments document,
      checkSource request.query (some limit) = .valid operations fragments →
      configuration.maxDepth = some limit → Document.parse request.query = .ok document →
      document.Offers request.operationName →
        (∀ fault, schema.FirstFault configuration request fault → ¬ fault.IsStatic) ∧
        (∀ fault, Event.failed fault ∈ report.session.events → ¬ fault.cause.IsStatic) ∧
        ∀ error ∈ report.response.errors.getD [],
          (∃ fault, (schema.FirstFault configuration request fault ∨ fault = .cancelled) ∧
            ¬ fault.IsStatic ∧ error = fault.toError) ∨
          ∃ fault, Event.failed fault ∈ report.session.events ∧ ¬ fault.cause.IsStatic ∧
            error = fault.toError) ∧
    (∀ maxDepth error, checkSource request.query maxDepth = .malformed error →
      report.response = .ofErrors [(OperationFault.malformed error).toError]) ∧
    ∀ maxDepth problems fault document, checkSource request.query maxDepth = .invalid problems →
      .selection fault ∈ problems → Document.parse request.query = .ok document →
      document.operations ≠ [] →
        report.response = .ofErrors [(OperationFault.selections fault).toError] := by
  have refused : ∀ fault, schema.FirstFault configuration request fault →
      report.response = .ofErrors [fault.toError] := by
    intro fault first
    have different := OperationFault.toError_ne_cancelled first.ne_cancelled
    exact (responds.concludes.refusal_iff different).mpr ⟨fault, first, rfl⟩
  refine ⟨?_, ?_, ?_⟩
  · intro limit operations fragments document checked limited parsed offers
    rw [check_of_checkSource parsed] at checked
    have requestFaults : ∀ fault, schema.FirstFault configuration request fault →
        ¬ fault.IsStatic :=
      fun fault first => first.not_isStatic parsed checked limited offers
    have fieldFaults : ∀ fault, Event.failed fault ∈ report.session.events →
        ¬ fault.cause.IsStatic := by
      intro fault happened
      cases responds with
      | malformed => cases happened
      | parsed again reports =>
          rw [parsed] at again
          cases again
          exact reports.not_isStatic (document.checkSpreads_of_valid checked) happened
    refine ⟨requestFaults, fieldFaults, fun error member => ?_⟩
    rcases responds.exists_origin member with ⟨fault, first | rfl, same⟩ | ⟨fault, happened, same⟩
    · exact .inl ⟨fault, .inl first, requestFaults fault first, same⟩
    · exact .inl ⟨.cancelled, .inr rfl, nofun, same⟩
    · exact .inr ⟨fault, happened, fieldFaults fault happened, same⟩
  · intro maxDepth error checked
    exact refused _ (.parsing (parse_of_malformed checked))
  · intro maxDepth problems fault document checked member parsed something
    rw [check_of_checkSource parsed] at checked
    have spreads := document.checkSpreads_of_problem checked member
    exact refused _ (.later parsed something (.spreads spreads))

end Schema

namespace Visit

def shallow : Configuration := { Configuration.standard with maxDepth := some 2 }

def unclosed : Request := .ofQuery "\x7b host"

def unfounded : Request := .ofQuery "\x7b ...Absent \x7d"

def visited (request : Request) : Report Unit :=
  (schema (.pure answer)).execute shallow request [] ()

theorem check_request : checkSource request.query (some 2) = .valid 1 0 := by cbv

theorem check_unclosed : checkSource unclosed.query none = .malformed
    ⟨⟨.unexpected .name, ⟨.endOfInput, "", ⟨6, 6⟩, ⟨1, 7⟩⟩⟩, ⟨1, 1⟩, 256⟩ := by cbv

theorem check_unfounded : checkSource unfounded.query none =
    .invalid [.selection (.unknownFragment "Absent" ⟨1, 3⟩)] := by cbv

theorem single_operation : ∀ asked, asked = request ∨ asked = unfounded → ∃ found,
    Document.parse asked.query = .ok found ∧ found.operations.length = 1 := by
  have counted : ∀ asked, asked = request ∨ asked = unfounded →
      (Document.parse asked.query).toOption.map (fun found => found.operations.length) =
        some 1 := by
    rintro _ (rfl | rfl) <;> cbv
  intro asked known
  rcases Option.map_eq_some_iff.mp (counted asked known) with ⟨found, parsed, only⟩
  exact ⟨found, Except.eq_ok_of_toOption parsed, only⟩

theorem checked_visits :
    (∀ fault, Event.failed fault ∈ (visited request).session.events → ¬ fault.cause.IsStatic) ∧
      (visited unclosed).response =
        .ofErrors [⟨"Expected Name, found end of input at line 1 char 7", [⟨1, 1⟩], []⟩] ∧
      (visited unfounded).response =
        .ofErrors [⟨"Fragment Absent was used, but not defined", [⟨1, 3⟩], []⟩] := by
  have responds (request : Request) :
      (schema (.pure answer)).MayRespond shallow request [] () (visited request) :=
    Schema.mayRespond_execute ..
  refine ⟨?_, ?_, ?_⟩
  · rcases single_operation request (.inl rfl) with ⟨found, parsed, only⟩
    have agrees := (responds request).agrees_with_check.1 2 1 0 found check_request rfl parsed
      (Nat.le_of_eq only)
    exact agrees.2.1
  · exact (responds unclosed).agrees_with_check.2.1 none _ check_unclosed
  · rcases single_operation unfounded (.inr rfl) with ⟨found, parsed, only⟩
    have something : found.operations ≠ [] := List.ne_nil_of_length_eq_add_one only
    exact (responds unfounded).agrees_with_check.2.2 none _ _ found check_unfounded
      (List.mem_singleton_self _) parsed something

end Visit

end GraphQuery
