import GraphQuery.Proofs.Execution.Ends
import GraphQuery.Proofs.Execution.Reports

/-! Requests that nobody cancels. If no resolver cancels its request, it stays that way
through all of its work. -/

namespace GraphQuery

variable {σ : Type}

/-- As long as the request is not cancelled, a resolution ends in this answer, whatever
state it finds, and does not cancel the request. -/
inductive Resolution.AlwaysAnswers : Resolution σ → Except ResolverFault Json → Prop where
  | answer {result : Except ResolverFault Json} : AlwaysAnswers (.answer result) result
  | perform {effect : σ → σ} {next : Shared σ → Resolution σ} {result : Except ResolverFault Json}
      (answers : ∀ shared, shared.cancelled = false → AlwaysAnswers (next shared) result) :
      AlwaysAnswers (.perform effect next) result
  | pause {milliseconds : Nat} {next : Resolution σ} {result : Except ResolverFault Json}
      (answers : AlwaysAnswers next result) : AlwaysAnswers (.pause milliseconds next) result

theorem Resolution.AlwaysAnswers.eq_of_mayAnswer {resolution : Resolution σ}
    {result other : Except ResolverFault Json} (always : resolution.AlwaysAnswers result)
    (may : resolution.MayAnswer other) : other = result := by
  induction always with
  | answer =>
      cases may
      rfl
  | perform _ induction =>
      cases may with
      | perform live may => exact induction _ live may
  | pause _ induction =>
      cases may with
      | pause may => exact induction may

namespace Work

/-- Work that does not cancel the request, as long as nothing else does. -/
inductive Calm : Work σ → Prop where
  | done {outcome : Outcome} : Calm (.done outcome)
  | call {place? : Shared σ → Option Path} {next : Shared σ → Work σ}
      (calm : ∀ shared, shared.cancelled = false → Calm (next shared)) : Calm (.call place? next)
  | record {event : Event} {next : Work σ} (calm : Calm next) : Calm (.record event next)
  | perform {effect : σ → σ} {next : Shared σ → Work σ}
      (calm : ∀ shared, shared.cancelled = false → Calm (next shared)) :
      Calm (.perform effect next)
  | pause {milliseconds : Nat} {next : Work σ} (calm : Calm next) :
      Calm (.pause milliseconds next)
  | asleep {alarm : Alarm} {next : Work σ} (calm : Calm next) : Calm (.asleep alarm next)
  | group {parts : List (Work σ)} {next : List Outcome → Work σ}
      (all : ∀ part ∈ parts, Calm part) (calm : ∀ outcomes, Calm (next outcomes)) :
      Calm (.group parts next)

theorem Calm.of_step {before after : Work σ × Session σ} (step : Step before after)
    (calm : before.1.Calm) (live : before.2.shared.cancelled = false) :
    after.1.Calm ∧ after.2.shared.cancelled = false := by
  induction step with
  | call =>
      cases calm with
      | call calm => exact ⟨calm _ live, by rwa [Session.shared_noteCall]⟩
  | record =>
      cases calm with
      | record calm => exact ⟨calm, live⟩
  | perform =>
      cases calm with
      | perform calm => exact ⟨calm _ live, live⟩
  | cancel => cases calm
  | skip =>
      cases calm with
      | pause calm => exact ⟨calm, live⟩
  | sleep =>
      cases calm with
      | pause calm => exact ⟨.asleep calm, live⟩
  | wake =>
      cases calm with
      | asleep calm => exact ⟨calm, live⟩
  | part _ induction =>
      cases calm with
      | group all calm =>
          rcases induction (all _ (by simp)) live with ⟨calmer, lively⟩
          refine ⟨.group ?_ calm, lively⟩
          intro part member
          rcases List.mem_append.mp member with member | member
          · exact all part (by simp [member])
          · rcases List.mem_cons.mp member with rfl | member
            · exact calmer
            · exact all part (by simp [member])
  | join =>
      cases calm with
      | group _ calm => exact ⟨calm _, live⟩

/-- Calm work leaves the request uncancelled, whatever the order of its steps. -/
theorem Calm.of_reaches {before after : Work σ × Session σ} (reaches : Reaches before after)
    (calm : before.1.Calm) (live : before.2.shared.cancelled = false) :
    after.1.Calm ∧ after.2.shared.cancelled = false := by
  rcases reaches with rfl | steps
  · exact ⟨calm, live⟩
  · induction steps with
    | single step => exact calm.of_step step live
    | tail _ step induction => exact induction.1.of_step step induction.2

/-! ## Combined works -/

theorem Calm.andThen {next : Outcome → Work σ} {work : Work σ} (calm : work.Calm)
    (following : ∀ outcome, (next outcome).Calm) : (work.andThen next).Calm := by
  induction calm with
  | done => exact following _
  | call _ induction => exact .call induction
  | record _ induction => exact .record induction
  | perform _ induction => exact .perform induction
  | pause _ induction => exact .pause induction
  | asleep _ induction => exact .asleep induction
  | group all _ _ induction => exact .group all induction

theorem Calm.map {convert : Outcome → Outcome} {work : Work σ} (calm : work.Calm) :
    (work.map convert).Calm :=
  calm.andThen fun _ => .done

theorem Calm.inOrder {works : List (Work σ)} {next : List Outcome → Work σ}
    (all : ∀ work ∈ works, work.Calm) (calm : ∀ outcomes, (next outcomes).Calm) :
    (Work.inOrder works next).Calm := by
  induction works generalizing next with
  | nil => exact calm []
  | cons work rest induction =>
      apply Calm.andThen (all work (by simp))
      intro outcome
      exact induction (fun other member => all other (by simp [member])) fun _ => calm _

theorem Calm.unlessCancelled {opening : Opening σ} (calm : opening.next.Calm) :
    (begin opening.unlessCancelled).Calm := by
  refine .call fun shared live => ?_
  rw [Opening.unlessCancelled_of_live live]
  exact calm

theorem Calm.ofResolution {next : Except ResolverFault Json → Work σ} {resolution : Resolution σ}
    {result : Except ResolverFault Json} (always : resolution.AlwaysAnswers result)
    (calm : ∀ result, (next result).Calm) : (Work.ofResolution next resolution).Calm := by
  induction always with
  | answer => exact calm _
  | perform _ induction => exact .perform induction
  | pause _ induction => exact .pause induction

end Work

/-! ## The work of a request -/

theorem FieldSite.calm_fail {site : FieldSite} {path : Path} {cause : FieldCause}
    {outcome : Outcome} : (site.fail (σ := σ) path cause outcome).Calm :=
  .record .done

namespace Completion

variable {completion : Completion σ}

theorem calm_leaf {path : Path} {coerced : Coerced} : (completion.leaf path coerced).Calm := by
  cases coerced with
  | error fault => exact FieldSite.calm_fail
  | ok value => cases value <;> exact .done

variable (below : ∀ object value path, completion.schema.HasObject object →
  (completion.object object value path).Calm)

include below

theorem calm_abstractly {type : TypeDefinition (Resolver σ)} {name : String} {value : Json}
    {path : Path} : (completion.abstractly type name value path).Calm := by
  unfold abstractly
  split
  · rename_i object resolved
    exact below _ _ _ (Schema.hasObject_of_runtimeType? resolved)
  · exact FieldSite.calm_fail

theorem calm_named {name : String} {value : Json} {path : Path} :
    (completion.named name value path).Calm := by
  unfold named
  split
  · exact calm_leaf
  · exact calm_leaf
  · rename_i object found
    exact below _ _ _ ⟨name, by simp [Schema.object?, found]⟩
  · exact calm_abstractly below
  · exact calm_abstractly below
  · exact FieldSite.calm_fail

theorem calm_unsettled {type : TypeRef} {value : Json} {path : Path} :
    (completion.unsettled type value path).Calm := by
  induction type generalizing value path with
  | named name =>
      unfold unsettled
      split
      · exact .done
      · exact calm_named below
  | list item induction =>
      unfold unsettled
      split
      · exact .done
      · refine .group ?_ fun _ => .done
        intro part member
        rcases List.mem_mapIdx.mp member with ⟨position, _, rfl⟩
        exact induction.map
      · exact FieldSite.calm_fail
  | nonNull inner induction =>
      refine induction.andThen fun outcome => ?_
      cases outcome with
      | null => exact FieldSite.calm_fail
      | _ => exact .done

end Completion

namespace Execution

variable {execution : Execution σ}

/-- Every call of a resolver of the schema is always answered, and alike. -/
def Settled (execution : Execution σ) : Prop :=
  ∀ object name field call, execution.schema.HasObject object →
    Entries.get? name object.fields = some field →
    ∃ result, (execution.resolution field call).AlwaysAnswers result

variable (settled : execution.Settled)

include settled

theorem calm_field {below : MergedField → ObjectWork σ} {merged : MergedField}
    (calm : ∀ object value path, execution.schema.HasObject object →
      (below merged object value path).Calm)
    {object : ObjectDefinition (Resolver σ)} (known : execution.schema.HasObject object)
    {parent : Json} {path : Path} : (execution.field below object parent path merged).Calm := by
  apply Work.Calm.unlessCancelled
  split
  · exact .done
  · split
    · exact FieldSite.calm_fail
    · rename_i field defined
      unfold definedField
      split
      · exact FieldSite.calm_fail
      · rcases settled object merged.name field _ known defined with ⟨result, always⟩
        refine .ofResolution always fun result => .record ?_
        cases result with
        | ok value => exact (Completion.calm_unsettled calm).map
        | error fault => exact FieldSite.calm_fail

theorem calm_fields {below : MergedField → ObjectWork σ}
    (calm : ∀ merged object value path, execution.schema.HasObject object →
      (below merged object value path).Calm)
    {arrange : List (Work σ) → (List Outcome → Work σ) → Work σ}
    (arranged : arrange = .group ∨ arrange = .inOrder) {fields : FieldMap}
    {object : ObjectDefinition (Resolver σ)} (known : execution.schema.HasObject object)
    {value : Json} {path : Path} :
    (execution.fields below arrange fields object value path).Calm := by
  have all : ∀ work ∈ fields.map (execution.field below object value path), work.Calm := by
    intro work member
    rcases List.mem_map.mp member with ⟨merged, _, rfl⟩
    exact calm_field settled (calm merged) known
  rcases arranged with rfl | rfl
  · exact .group all fun _ => .done
  · exact .inOrder all fun _ => .done

theorem calm_object (levels : Nat) {merged : MergedField} {object : ObjectDefinition (Resolver σ)}
    {value : Json} {path : Path} (known : execution.schema.HasObject object) :
    (execution.object levels merged object value path).Calm := by
  induction levels generalizing merged object value path with
  | zero => exact .done
  | succ levels induction =>
      unfold Execution.object
      split
      · exact FieldSite.calm_fail
      · exact calm_fields settled (fun _ _ _ _ => induction) (.inl rfl) known

end Execution

theorem Preparation.live_of_reaches {preparation : Preparation σ}
    (settled : preparation.execution.Settled)
    (known : preparation.execution.schema.HasObject preparation.root)
    {arrange : List (Work σ) → (List Outcome → Work σ) → Work σ}
    (arranged : arrange = .group ∨ arrange = .inOrder) {rootValue : Json}
    {session final : Session σ} {outcome : Outcome} (live : session.shared.cancelled = false)
    (reaches : Work.Reaches (preparation.workAs arrange rootValue, session)
      (.done outcome, final)) :
    final.shared.cancelled = false :=
  (Work.Calm.of_reaches reaches (Execution.calm_fields settled
    (fun _ _ _ _ known => Execution.calm_object settled _ known) arranged known) live).2

end GraphQuery
