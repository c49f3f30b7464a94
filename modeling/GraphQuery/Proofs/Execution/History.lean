import GraphQuery.Execution.Progress

/-! Laws that tell which event may come after which others. Work that obeys a law leaves a
lawful journal behind, whatever the order of its steps. -/

namespace GraphQuery

variable {σ : Type}

/-! ## Laws -/

/-- Whether an event may happen, given the events that have happened before. It still may
when more has happened. -/
structure Law where
  allows : List Event → Event → Prop
  mono : ∀ {earlier later event}, earlier ⊆ later → allows earlier event → allows later event

namespace Law

variable {law : Law}

def Governs (law : Law) (events : List Event) : Prop :=
  ∀ earlier event later, events = earlier ++ event :: later → law.allows earlier event

theorem governs_nil : law.Governs [] := by
  intro earlier event later same
  cases earlier <;> cases same

theorem Governs.concat {events : List Event} (governs : law.Governs events) {event : Event}
    (allowed : law.allows events event) : law.Governs (events ++ [event]) := by
  intro earlier other later same
  rcases List.append_eq_append_iff.mp same with ⟨between, rfl, single⟩ | ⟨between, rfl, rest⟩
  · -- `other` is not among the events, so it is the last one
    rcases List.singleton_eq_append_iff.mp single with ⟨rfl, last⟩ | ⟨_, none⟩
    · cases last
      rwa [List.append_nil]
    · cases none
  · cases between with
    | nil =>
        cases rest
        rwa [List.append_nil] at allowed
    | cons first between =>
        cases rest
        exact governs earlier other between rfl

theorem Governs.allows_of_mem {events : List Event} (governs : law.Governs events) {event : Event}
    (member : event ∈ events) : law.allows events event := by
  rcases List.append_of_mem member with ⟨earlier, later, rfl⟩
  exact law.mono (List.subset_append_left _ _) (governs earlier event later rfl)

end Law

/-! ## Lawful work -/

namespace Work

/-- Everything that the work can note is allowed when it is noted, if some events are known
to have happened. -/
inductive Obeys (law : Law) : List Event → Work σ → Prop where
  | done {known : List Event} {outcome : Outcome} : Obeys law known (.done outcome)
  | call {known : List Event} {place? : Shared σ → Option Path} {next : Shared σ → Work σ}
      (allowed : ∀ shared path, place? shared = some path → law.allows known (.called path))
      (obeys : ∀ shared, Obeys law ((place? shared).toList.map .called ++ known) (next shared)) :
      Obeys law known (.call place? next)
  | record {known : List Event} {event : Event} {next : Work σ}
      (allowed : law.allows known event) (obeys : Obeys law (event :: known) next) :
      Obeys law known (.record event next)
  | perform {known : List Event} {effect : σ → σ} {next : Shared σ → Work σ}
      (obeys : ∀ shared, Obeys law known (next shared)) : Obeys law known (.perform effect next)
  | cancel {known : List Event} {next : Work σ} (obeys : Obeys law known next) :
      Obeys law known (.cancel next)
  | pause {known : List Event} {milliseconds : Nat} {next : Work σ}
      (obeys : Obeys law known next) : Obeys law known (.pause milliseconds next)
  | asleep {known : List Event} {alarm : Alarm} {next : Work σ} (obeys : Obeys law known next) :
      Obeys law known (.asleep alarm next)
  | group {known : List Event} {parts : List (Work σ)} {next : List Outcome → Work σ}
      (all : ∀ part ∈ parts, Obeys law known part)
      (obeys : ∀ outcomes, Obeys law known (next outcomes)) :
      Obeys law known (.group parts next)

variable {law : Law} {known : List Event}

theorem Obeys.mono {more : List Event} {work : Work σ} (obeys : work.Obeys law known)
    (subset : known ⊆ more) : work.Obeys law more := by
  induction obeys generalizing more with
  | done => exact .done
  | call allowed _ induction =>
      exact .call (fun shared path calls => law.mono subset (allowed shared path calls))
        fun shared => induction shared (List.append_subset.mpr
          ⟨List.subset_append_left _ _, List.Subset.trans subset (List.subset_append_right _ _)⟩)
  | record allowed _ induction =>
      exact .record (law.mono subset allowed) (induction (List.cons_subset_cons _ subset))
  | perform _ induction => exact .perform fun shared => induction shared subset
  | cancel _ induction => exact .cancel (induction subset)
  | pause _ induction => exact .pause (induction subset)
  | asleep _ induction => exact .asleep (induction subset)
  | group _ _ allInduction induction =>
      exact .group (fun part member => allInduction part member subset)
        fun outcomes => induction outcomes subset

/-! ## Steps -/

/-- Work that obeys a law, in a session whose events are lawful. -/
structure Lawful (law : Law) (stage : Work σ × Session σ) : Prop where
  obeys : stage.1.Obeys law stage.2.events
  governs : law.Governs stage.2.events

theorem obeys_noteCall {place? : Option Path} {next : Work σ} {session : Session σ}
    (obeys : next.Obeys law (place?.toList.map .called ++ session.events)) :
    next.Obeys law (session.noteCall place?).events := by
  refine obeys.mono ?_
  rw [Session.events_noteCall]
  exact List.perm_append_comm.subset

theorem governs_noteCall {place? : Option Path} {session : Session σ}
    (governs : law.Governs session.events)
    (allowed : ∀ path, place? = some path → law.allows session.events (.called path)) :
    law.Governs (session.noteCall place?).events := by
  rw [Session.events_noteCall]
  cases place? with
  | none => simpa using governs
  | some path => exact governs.concat (allowed path rfl)

theorem obeys_note {event : Event} {next : Work σ} {session : Session σ}
    (obeys : next.Obeys law (event :: session.events)) :
    next.Obeys law (session.note event).events := by
  refine obeys.mono ?_
  rw [Session.events_note]
  exact (List.perm_append_singleton event session.events).symm.subset

theorem Step.events_subset {before after : Work σ × Session σ} (step : Step before after) :
    before.2.events ⊆ after.2.events := by
  induction step with
  | call => simp
  | record => simp
  | part _ induction => exact induction
  | _ => exact List.Subset.refl _

theorem Lawful.of_step {before after : Work σ × Session σ} (step : Step before after)
    (lawful : Lawful law before) : Lawful law after := by
  rcases lawful with ⟨obeys, governs⟩
  induction step with
  | call =>
      cases obeys with
      | call allowed obeys =>
          exact ⟨obeys_noteCall (obeys _), governs_noteCall governs (allowed _)⟩
  | record =>
      cases obeys with
      | record allowed obeys => exact ⟨obeys_note obeys, by simpa using governs.concat allowed⟩
  | perform =>
      cases obeys with
      | perform obeys => exact ⟨obeys _, governs⟩
  | cancel =>
      cases obeys with
      | cancel obeys => exact ⟨obeys, governs⟩
  | skip =>
      cases obeys with
      | pause obeys => exact ⟨obeys, governs⟩
  | sleep =>
      cases obeys with
      | pause obeys => exact ⟨.asleep obeys, governs⟩
  | wake =>
      cases obeys with
      | asleep obeys => exact ⟨obeys, governs⟩
  | part step induction =>
      cases obeys with
      | group all following =>
          have later := step.events_subset
          rcases induction (all _ (by simp)) governs with ⟨obeys, governs⟩
          refine ⟨.group ?_ fun outcomes => (following outcomes).mono later, governs⟩
          intro part member
          rcases List.mem_append.mp member with member | member
          · exact (all part (by simp [member])).mono later
          · rcases List.mem_cons.mp member with rfl | member
            · exact obeys
            · exact (all part (by simp [member])).mono later
  | join =>
      cases obeys with
      | group _ following => exact ⟨following _, governs⟩

theorem Lawful.of_reaches {before after : Work σ × Session σ} (reaches : Reaches before after)
    (lawful : Lawful law before) : Lawful law after := by
  rcases reaches with rfl | steps
  · exact lawful
  · induction steps with
    | single step => exact lawful.of_step step
    | tail _ step induction => exact induction.of_step step

/-! ## Combined works -/

theorem Obeys.andThen {next : Outcome → Work σ} {work : Work σ} (obeys : work.Obeys law known)
    (following : ∀ outcome, (next outcome).Obeys law known) :
    (work.andThen next).Obeys law known := by
  induction obeys with
  | done => exact following _
  | call allowed _ induction =>
      exact .call allowed fun shared =>
        induction shared fun outcome => (following outcome).mono (List.subset_append_right _ _)
  | record allowed _ induction =>
      exact .record allowed
        (induction fun outcome => (following outcome).mono (List.subset_cons_self _ _))
  | perform _ induction => exact .perform fun shared => induction shared following
  | cancel _ induction => exact .cancel (induction following)
  | pause _ induction => exact .pause (induction following)
  | asleep _ induction => exact .asleep (induction following)
  | group all _ _ induction => exact .group all fun outcomes => induction outcomes following

theorem Obeys.map {convert : Outcome → Outcome} {work : Work σ} (obeys : work.Obeys law known) :
    (work.map convert).Obeys law known :=
  obeys.andThen fun _ => .done

theorem Obeys.inOrder {works : List (Work σ)} {next : List Outcome → Work σ}
    (all : ∀ work ∈ works, work.Obeys law known)
    (obeys : ∀ outcomes, (next outcomes).Obeys law known) :
    (Work.inOrder works next).Obeys law known := by
  induction works generalizing next with
  | nil => exact obeys []
  | cons work rest induction =>
      refine (all work (by simp)).andThen fun outcome => ?_
      exact induction (fun other member => all other (by simp [member])) fun _ => obeys _

end Work

structure Opening.Obeys (law : Law) (known : List Event) (opening : Opening σ) : Prop where
  allowed : ∀ path, opening.place? = some path → law.allows known (.called path)
  next : opening.next.Obeys law (opening.place?.toList.map .called ++ known)

namespace Opening.Obeys

variable {law : Law} {known : List Event}

theorem quiet {next : Work σ} (obeys : next.Obeys law known) :
    (Opening.quiet next).Obeys law known :=
  ⟨nofun, obeys⟩

theorem calling {path : Path} {next : Work σ} (allowed : law.allows known (.called path))
    (obeys : next.Obeys law (.called path :: known)) :
    (Opening.calling path next).Obeys law known :=
  ⟨fun _ same => Option.some.inj same ▸ allowed, obeys⟩

theorem unlessCancelled {opening : Opening σ} (obeys : opening.Obeys law known) :
    (Work.begin opening.unlessCancelled).Obeys law known := by
  have either : ∀ shared, (opening.unlessCancelled shared).Obeys law known := by
    intro shared
    unfold Opening.unlessCancelled
    split
    · exact .quiet .done
    · exact obeys
  exact .call (fun shared => (either shared).allowed) fun shared => (either shared).next

end Opening.Obeys

/-! ## Answers -/

/-- A resolution can come to an answer, whatever it finds in the shared state. -/
inductive Resolution.CanAnswer : Resolution σ → Except ResolverFault Json → Prop where
  | answer {result : Except ResolverFault Json} : CanAnswer (.answer result) result
  | perform {effect : σ → σ} {next : Shared σ → Resolution σ} {shared : Shared σ}
      {result : Except ResolverFault Json} (answers : CanAnswer (next shared) result) :
      CanAnswer (.perform effect next) result
  | cancel {next : Resolution σ} {result : Except ResolverFault Json}
      (answers : CanAnswer next result) : CanAnswer (.cancel next) result
  | pause {milliseconds : Nat} {next : Resolution σ} {result : Except ResolverFault Json}
      (answers : CanAnswer next result) : CanAnswer (.pause milliseconds next) result

theorem Work.Obeys.ofResolution {law : Law} {known : List Event}
    {next : Except ResolverFault Json → Work σ} {resolution : Resolution σ}
    (obeys : ∀ result, resolution.CanAnswer result → (next result).Obeys law known) :
    (Work.ofResolution next resolution).Obeys law known := by
  induction resolution with
  | answer result => exact obeys result .answer
  | perform effect rest induction =>
      exact .perform fun shared => induction shared fun result answers =>
        obeys result (.perform answers)
  | cancel rest induction =>
      exact .cancel (induction fun result answers => obeys result (.cancel answers))
  | pause milliseconds rest induction =>
      exact .pause (induction fun result answers => obeys result (.pause answers))

end GraphQuery
