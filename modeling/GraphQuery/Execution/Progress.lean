import GraphQuery.Execution.Work

namespace GraphQuery.Work

/-! What can happen to work, one thing at a time and in any order. Whatever
happens, it comes to an end: there is no endless succession of works each of which
remains of the one before. -/

variable {σ : Type}

/-- One thing that happens to work or to any of its parts, and to the session. -/
inductive Step : Work σ × Session σ → Work σ × Session σ → Prop where
  | call {place? : Shared σ → Option Path} {next : Shared σ → Work σ} {session : Session σ} :
      Step (.call place? next, session)
        (next session.shared, session.noteCall (place? session.shared))
  | record {event : Event} {next : Work σ} {session : Session σ} :
      Step (.record event next, session) (next, session.note event)
  | perform {effect : σ → σ} {next : Shared σ → Work σ} {session : Session σ} :
      Step (.perform effect next, session)
        (next (session.perform effect).shared, session.perform effect)
  | cancel {next : Work σ} {session : Session σ} :
      Step (.cancel next, session) (next, session.cancel)
  | skip {next : Work σ} {session : Session σ} : Step (.pause 0 next, session) (next, session)
  | sleep {milliseconds : Nat} {next : Work σ} {session : Session σ} (alarm : Alarm) :
      Step (.pause milliseconds next, session) (.asleep alarm next, session)
  | wake {alarm : Alarm} {next : Work σ} {session : Session σ} :
      Step (.asleep alarm next, session) (next, session)
  | part {left right : List (Work σ)} {next : List Outcome → Work σ}
      {before after : Work σ} {earlier later : Session σ}
      (step : Step (before, earlier) (after, later)) :
      Step (.group (left ++ before :: right) next, earlier)
        (.group (left ++ after :: right) next, later)
  | join {outcomes : List Outcome} {next : List Outcome → Work σ} {session : Session σ} :
      Step (.group (outcomes.map .done) next, session) (next outcomes, session)

/-! ## Steps in succession -/

abbrev Steps : Work σ × Session σ → Work σ × Session σ → Prop := Relation.TransGen Step

def Reaches (before after : Work σ × Session σ) : Prop := after = before ∨ Steps before after

theorem Reaches.refl (stage : Work σ × Session σ) : Reaches stage stage := .inl rfl

theorem Steps.reaches {before after : Work σ × Session σ} (steps : Steps before after) :
    Reaches before after := .inr steps

theorem Step.thenReaches {before between after : Work σ × Session σ} (step : Step before between)
    (reaches : Reaches between after) : Steps before after := by
  rcases reaches with rfl | steps
  · exact .single step
  · exact .trans (.single step) steps

theorem Steps.thenReaches {before between after : Work σ × Session σ}
    (steps : Steps before between) (reaches : Reaches between after) : Steps before after := by
  rcases reaches with rfl | more
  · exact steps
  · exact steps.trans more

theorem Reaches.thenSteps {before between after : Work σ × Session σ}
    (reaches : Reaches before between) (steps : Steps between after) : Steps before after := by
  rcases reaches with rfl | fewer
  · exact steps
  · exact fewer.trans steps

theorem Reaches.trans {before between after : Work σ × Session σ}
    (first : Reaches before between) (second : Reaches between after) : Reaches before after := by
  rcases second with rfl | steps
  · exact first
  · exact .inr (first.thenSteps steps)

theorem Steps.part {left right : List (Work σ)} {next : List Outcome → Work σ}
    {before after : Work σ × Session σ} (steps : Steps before after) :
    Steps (.group (left ++ before.1 :: right) next, before.2)
      (.group (left ++ after.1 :: right) next, after.2) := by
  induction steps with
  | single step => exact .single (.part step)
  | tail _ step induction => exact induction.tail (.part step)

theorem Steps.set {parts : List (Work σ)} {index : Nat} {next : List Outcome → Work σ}
    {before after : Work σ} {earlier later : Session σ} (found : parts[index]? = some before)
    (steps : Steps (before, earlier) (after, later)) :
    Steps (.group parts next, earlier) (.group (parts.set index after) next, later) := by
  obtain ⟨bound, rfl⟩ := List.getElem?_eq_some_iff.mp found
  rw [List.set_eq_take_append_cons_drop, if_pos bound]
  have whole : parts = parts.take index ++ parts[index] :: parts.drop (index + 1) := by simp
  conv => lhs; rw [whole]
  exact steps.part

/-! ## Nothing goes on for ever -/

def Remains (after before : Work σ) : Prop :=
  ∃ earlier later, Step (before, earlier) (after, later)

inductive RemainsAmong : List (Work σ) → List (Work σ) → Prop where
  | head {after before : Work σ} {rest : List (Work σ)} (remains : Remains after before) :
      RemainsAmong (after :: rest) (before :: rest)
  | tail {work : Work σ} {after before : List (Work σ)} (remains : RemainsAmong after before) :
      RemainsAmong (work :: after) (work :: before)

theorem Remains.among {after before : Work σ} (remains : Remains after before)
    (left right : List (Work σ)) :
    RemainsAmong (left ++ after :: right) (left ++ before :: right) := by
  induction left with
  | nil => exact .head remains
  | cons work left induction => exact .tail induction

theorem acc_cons {work : Work σ} {rest : List (Work σ)} (workAccessible : Acc Remains work)
    (restAccessible : Acc RemainsAmong rest) : Acc RemainsAmong (work :: rest) := by
  induction workAccessible generalizing rest with
  | intro work _ workInduction =>
      induction restAccessible with
      | intro rest below restInduction =>
          constructor
          intro after remains
          cases remains with
          | head remains => exact workInduction _ remains ⟨_, below⟩
          | tail remains => exact restInduction _ remains

theorem acc_group {parts : List (Work σ)} {next : List Outcome → Work σ}
    (partsAccessible : Acc RemainsAmong parts)
    (nextAccessible : ∀ outcomes, Acc Remains (next outcomes)) :
    Acc Remains (.group parts next) := by
  induction partsAccessible with
  | intro parts _ induction =>
      constructor
      intro after ⟨_, _, step⟩
      cases step with
      | part step => exact induction _ (Remains.among ⟨_, _, step⟩ _ _)
      | join => exact nextAccessible _

theorem acc_asleep {next : Work σ} (alarm : Alarm) (accessible : Acc Remains next) :
    Acc Remains (.asleep alarm next) := by
  constructor
  intro after ⟨_, _, step⟩
  cases step
  exact accessible

mutual

theorem acc : (work : Work σ) → Acc Remains work
  | .done outcome => ⟨_, fun _ ⟨_, _, step⟩ => nomatch step⟩
  | .call place? next => ⟨_, fun _ ⟨_, _, step⟩ => by cases step; exact acc (next _)⟩
  | .record event next => ⟨_, fun _ ⟨_, _, step⟩ => by cases step; exact acc next⟩
  | .perform effect next => ⟨_, fun _ ⟨_, _, step⟩ => by cases step; exact acc (next _)⟩
  | .cancel next => ⟨_, fun _ ⟨_, _, step⟩ => by cases step; exact acc next⟩
  | .pause milliseconds next => ⟨_, fun _ ⟨_, _, step⟩ => by
      cases step with
      | skip => exact acc next
      | sleep alarm => exact acc_asleep alarm (acc next)⟩
  | .asleep alarm next => acc_asleep alarm (acc next)
  | .group parts next => acc_group (acc_among parts) fun outcomes => acc (next outcomes)

theorem acc_among : (parts : List (Work σ)) → Acc RemainsAmong parts
  | [] => ⟨_, fun _ remains => nomatch remains⟩
  | part :: rest => acc_cons (acc part) (acc_among rest)

end

abbrev RemainsLater : Work σ → Work σ → Prop := Relation.TransGen Remains

instance : WellFoundedRelation (Work σ) where
  rel := RemainsLater
  wf := WellFounded.transGen ⟨acc⟩

theorem Steps.remainsLater {before after : Work σ × Session σ} (steps : Steps before after) :
    RemainsLater after.1 before.1 := by
  induction steps with
  | single step => exact .single ⟨_, _, step⟩
  | tail _ step induction => exact .trans (.single ⟨_, _, step⟩) induction

end GraphQuery.Work
