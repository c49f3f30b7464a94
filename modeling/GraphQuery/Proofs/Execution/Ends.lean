import GraphQuery.Execution.Schedule
import Mathlib.Logic.Relation

/-! How work can end, without regard to the order in which its parts go on. Events
are listed in the order of the parts; whatever the schedule, the same events happen. -/

namespace GraphQuery

variable {σ : Type}

/-- A resolution can come to an answer while the request is not cancelled. -/
inductive Resolution.MayAnswer : Resolution σ → Except ResolverFault Json → Prop where
  | answer {result : Except ResolverFault Json} : MayAnswer (.answer result) result
  | perform {effect : σ → σ} {next : Shared σ → Resolution σ} {shared : Shared σ}
      {result : Except ResolverFault Json} (live : shared.cancelled = false)
      (answers : MayAnswer (next shared) result) : MayAnswer (.perform effect next) result
  | pause {milliseconds : Nat} {next : Resolution σ} {result : Except ResolverFault Json}
      (answers : MayAnswer next result) : MayAnswer (.pause milliseconds next) result

namespace Work

mutual

/-- Work can end in an outcome with these events. It is `calm` if the request is not
cancelled until then. -/
inductive Ends (calm : Bool) : Work σ → List Event → Outcome → Prop where
  | done {outcome : Outcome} : Ends calm (.done outcome) [] outcome
  | call {place? : Shared σ → Option Path} {next : Shared σ → Work σ} {shared : Shared σ}
      {events : List Event} {outcome : Outcome}
      (live : calm = true → shared.cancelled = false)
      (ends : Ends calm (next shared) events outcome) :
      Ends calm (.call place? next) ((place? shared).toList.map .called ++ events) outcome
  | record {event : Event} {next : Work σ} {events : List Event} {outcome : Outcome}
      (ends : Ends calm next events outcome) :
      Ends calm (.record event next) (event :: events) outcome
  | perform {effect : σ → σ} {next : Shared σ → Work σ} {shared : Shared σ}
      {events : List Event} {outcome : Outcome}
      (live : calm = true → shared.cancelled = false)
      (ends : Ends calm (next shared) events outcome) :
      Ends calm (.perform effect next) events outcome
  | cancel {next : Work σ} {events : List Event} {outcome : Outcome}
      (cancelled : calm = false) (ends : Ends calm next events outcome) :
      Ends calm (.cancel next) events outcome
  | pause {milliseconds : Nat} {next : Work σ} {events : List Event} {outcome : Outcome}
      (ends : Ends calm next events outcome) :
      Ends calm (.pause milliseconds next) events outcome
  | asleep {alarm : Alarm} {next : Work σ} {events : List Event} {outcome : Outcome}
      (ends : Ends calm next events outcome) : Ends calm (.asleep alarm next) events outcome
  | group {parts : List (Work σ)} {next : List Outcome → Work σ} {events later : List Event}
      {outcomes : List Outcome} {outcome : Outcome} (all : EndAll calm parts events outcomes)
      (ends : Ends calm (next outcomes) later outcome) :
      Ends calm (.group parts next) (events ++ later) outcome

inductive EndAll (calm : Bool) : List (Work σ) → List Event → List Outcome → Prop where
  | nil : EndAll calm [] [] []
  | cons {work : Work σ} {rest : List (Work σ)} {events others : List Event}
      {outcome : Outcome} {outcomes : List Outcome} (ends : Ends calm work events outcome)
      (all : EndAll calm rest others outcomes) :
      EndAll calm (work :: rest) (events ++ others) (outcome :: outcomes)

end

variable {calm : Bool}

theorem EndAll.done (outcomes : List Outcome) :
    EndAll (σ := σ) calm (outcomes.map .done) [] outcomes := by
  induction outcomes with
  | nil => exact .nil
  | cons outcome rest induction => exact .cons .done induction

theorem EndAll.exchange {left right : List (Work σ)} {before after : Work σ}
    {events : List Event} {outcomes : List Outcome} {earlier later : List Event}
    (all : EndAll calm (left ++ after :: right) events outcomes)
    (exchange : ∀ inner outcome, Ends calm after inner outcome →
      ∃ more, Ends calm before more outcome ∧ (earlier ++ more).Perm (later ++ inner)) :
    ∃ more, EndAll calm (left ++ before :: right) more outcomes ∧
      (earlier ++ more).Perm (later ++ events) := by
  induction left generalizing events outcomes with
  | nil =>
      cases all with
      | @cons _ _ inner others outcome rest ends all =>
          rcases exchange inner outcome ends with ⟨more, ended, same⟩
          refine ⟨more ++ others, .cons ended all, ?_⟩
          rw [← List.append_assoc, ← List.append_assoc]
          exact same.append_right others
  | cons work left induction =>
      cases all with
      | @cons _ _ inner others outcome rest ends all =>
          rcases induction all with ⟨more, ended, same⟩
          refine ⟨inner ++ more, .cons ends ended, ?_⟩
          calc earlier ++ (inner ++ more)
              _ = (earlier ++ inner) ++ more := by rw [List.append_assoc]
              _ |>.Perm ((inner ++ earlier) ++ more) := List.perm_append_comm.append_right more
              _ = inner ++ (earlier ++ more) := by rw [List.append_assoc]
              _ |>.Perm (inner ++ (later ++ others)) := same.append_left inner
              _ = (inner ++ later) ++ others := by rw [List.append_assoc]
              _ |>.Perm ((later ++ inner) ++ others) := List.perm_append_comm.append_right others
              _ = later ++ (inner ++ others) := by rw [List.append_assoc]

/-! ## Steps -/

/-- A request that has been cancelled stays so. -/
theorem live_of_step {before after : Work σ × Session σ} (step : Step before after)
    (live : after.2.shared.cancelled = false) : before.2.shared.cancelled = false := by
  induction step with
  | call => rwa [Session.shared_noteCall] at live
  | cancel => cases live
  | part _ induction => exact induction live
  | _ => exact live

theorem Ends.of_step {before after : Work σ × Session σ} (step : Step before after)
    (quiet : calm = true → after.2.shared.cancelled = false) {events : List Event}
    {outcome : Outcome} (ends : Ends calm after.1 events outcome) :
    ∃ more, Ends calm before.1 more outcome ∧
      (before.2.events ++ more).Perm (after.2.events ++ events) := by
  induction step generalizing events outcome with
  | call =>
      rw [Session.shared_noteCall] at quiet
      exact ⟨_, .call quiet ends, by simp⟩
  | record => exact ⟨_, .record ends, by simp⟩
  | perform => exact ⟨_, .perform quiet ends, .refl _⟩
  | cancel =>
      refine ⟨_, .cancel ?_ ends, .refl _⟩
      cases calm with
      | false => rfl
      | true => exact absurd (quiet rfl) (by simp [Session.cancel])
  | skip => exact ⟨_, .pause ends, .refl _⟩
  | sleep alarm =>
      cases ends with
      | asleep ends => exact ⟨_, .pause ends, .refl _⟩
  | wake => exact ⟨_, .asleep ends, .refl _⟩
  | part step induction =>
      cases ends with
      | group all ends =>
          rcases all.exchange (fun inner outcome ends => induction quiet ends)
            with ⟨more, all, same⟩
          refine ⟨_, .group all ends, ?_⟩
          rw [← List.append_assoc, ← List.append_assoc]
          exact same.append_right _
  | join => exact ⟨_, .group (.done _) ends, by simp⟩

theorem Reaches.induction_on (property : Work σ × Session σ → Prop)
    {before after : Work σ × Session σ} (reaches : Reaches before after)
    (last : property after)
    (step : ∀ {before between}, Step before between → property between → property before) :
    property before := by
  rcases reaches with rfl | steps
  · exact last
  · induction steps using Relation.TransGen.head_induction_on with
    | single first => exact step first last
    | head first _ induction => exact step first induction

/-- Whatever the order of its steps, work ends as it can end, and the events that
happened are the ones that belong to that end. -/
theorem Reaches.ends {work : Work σ} {session final : Session σ} {outcome : Outcome}
    (reaches : Reaches (work, session) (.done outcome, final)) :
    ∃ events, Ends (!final.shared.cancelled) work events outcome ∧
      final.events.Perm (session.events ++ events) := by
  have back := reaches.induction_on
    (fun stage =>
      (final.shared.cancelled = false → stage.2.shared.cancelled = false) ∧
      ∃ events, Ends (!final.shared.cancelled) stage.1 events outcome ∧
        final.events.Perm (stage.2.events ++ events))
    ⟨id, [], .done, by simp⟩ ?_
  · exact back.2
  · rintro before between step ⟨live, events, ends, same⟩
    rcases ends.of_step step (by simpa using live) with ⟨more, ended, moved⟩
    exact ⟨fun quiet => live_of_step step (live quiet), more, ended, same.trans moved.symm⟩

/-! ## Combined works -/

theorem Ends.of_andThen {next : Outcome → Work σ} : (work : Work σ) →
    {events : List Event} → {outcome : Outcome} →
    Ends calm (work.andThen next) events outcome →
    ∃ first between second, Ends calm work first between ∧
      Ends calm (next between) second outcome ∧ events = first ++ second
  | .done between, events, _, ends => ⟨[], between, events, .done, ends, rfl⟩
  | .call place? rest, _, _, ends => by
      cases ends with
      | call live ends =>
          rcases of_andThen (rest _) ends with ⟨first, between, second, ended, following, rfl⟩
          exact ⟨_, between, second, .call live ended, following, (List.append_assoc _ _ _).symm⟩
  | .record event rest, _, _, ends => by
      cases ends with
      | record ends =>
          rcases of_andThen rest ends with ⟨first, between, second, ended, following, rfl⟩
          exact ⟨_, between, second, .record ended, following, rfl⟩
  | .perform effect rest, _, _, ends => by
      cases ends with
      | perform live ends =>
          rcases of_andThen (rest _) ends with ⟨first, between, second, ended, following, rfl⟩
          exact ⟨_, between, second, .perform live ended, following, rfl⟩
  | .cancel rest, _, _, ends => by
      cases ends with
      | cancel cancelled ends =>
          rcases of_andThen rest ends with ⟨first, between, second, ended, following, rfl⟩
          exact ⟨_, between, second, .cancel cancelled ended, following, rfl⟩
  | .pause milliseconds rest, _, _, ends => by
      cases ends with
      | pause ends =>
          rcases of_andThen rest ends with ⟨first, between, second, ended, following, rfl⟩
          exact ⟨_, between, second, .pause ended, following, rfl⟩
  | .asleep alarm rest, _, _, ends => by
      cases ends with
      | asleep ends =>
          rcases of_andThen rest ends with ⟨first, between, second, ended, following, rfl⟩
          exact ⟨_, between, second, .asleep ended, following, rfl⟩
  | .group parts rest, _, _, ends => by
      cases ends with
      | group all ends =>
          rcases of_andThen (rest _) ends with ⟨first, between, second, ended, following, rfl⟩
          exact ⟨_, between, second, .group all ended, following, (List.append_assoc _ _ _).symm⟩

theorem Ends.of_map {convert : Outcome → Outcome} {work : Work σ} {events : List Event}
    {outcome : Outcome} (ends : Ends calm (work.map convert) events outcome) :
    ∃ between, Ends calm work events between ∧ outcome = convert between := by
  rcases of_andThen work ends with ⟨first, between, second, ended, following, rfl⟩
  cases following
  exact ⟨between, by simpa using ended, rfl⟩

theorem Ends.of_inOrder {works : List (Work σ)} {next : List Outcome → Work σ}
    {events : List Event} {outcome : Outcome}
    (ends : Ends calm (inOrder works next) events outcome) :
    Ends calm (.group works next) events outcome := by
  induction works generalizing next events with
  | nil =>
      have ended : Ends calm (.group [] next) ([] ++ events) outcome := .group .nil ends
      exact ended
  | cons work rest induction =>
      rcases of_andThen work ends with ⟨first, between, second, ended, following, rfl⟩
      cases induction following with
      | group all ends =>
          rw [← List.append_assoc]
          exact .group (.cons ended all) ends

theorem Ends.of_ofResolution {next : Except ResolverFault Json → Work σ} :
    (resolution : Resolution σ) → {events : List Event} → {outcome : Outcome} →
    Ends true (ofResolution next resolution) events outcome →
    ∃ result, resolution.MayAnswer result ∧ Ends true (next result) events outcome
  | .answer result, _, _, ends => ⟨result, .answer, ends⟩
  | .perform effect rest, _, _, ends => by
      cases ends with
      | perform live ends =>
          rcases of_ofResolution (rest _) ends with ⟨result, answers, ended⟩
          exact ⟨result, .perform (live rfl) answers, ended⟩
  | .cancel rest, _, _, ends => by
      cases ends with
      | cancel cancelled _ => cases cancelled
  | .pause milliseconds rest, _, _, ends => by
      cases ends with
      | pause ends =>
          rcases of_ofResolution rest ends with ⟨result, answers, ended⟩
          exact ⟨result, .pause answers, ended⟩

end Work

/-! ## Openings -/

def Opening.Ends (calm : Bool) (opening : Opening σ) (events : List Event) (outcome : Outcome) :
    Prop :=
  ∃ later, events = opening.place?.toList.map .called ++ later ∧
    opening.next.Ends calm later outcome

namespace Opening

variable {calm : Bool} {events : List Event} {outcome : Outcome}

theorem ends_quiet {next : Work σ} :
    (quiet next).Ends calm events outcome ↔ next.Ends calm events outcome := by
  simp [Ends, quiet]

theorem ends_calling {path : Path} {next : Work σ} :
    (calling path next).Ends calm events outcome ↔
      ∃ later, events = .called path :: later ∧ next.Ends calm later outcome := by
  rfl

theorem ends_of_begin {opening : Opening σ}
    (ends : (Work.begin opening.unlessCancelled).Ends calm events outcome) :
    calm = false ∧ events = [] ∨ opening.Ends calm events outcome := by
  cases ends with
  | @call _ _ shared events _ live ends =>
      cases cancelled : shared.cancelled with
      | true =>
          left
          simp only [unlessCancelled_of_cancelled cancelled] at ends ⊢
          cases ends
          cases calm with
          | false => exact ⟨rfl, rfl⟩
          | true => cases cancelled.symm.trans (live rfl)
      | false =>
          simp only [unlessCancelled_of_live cancelled] at ends ⊢
          exact .inr ⟨events, rfl, ends⟩

end Opening

end GraphQuery
