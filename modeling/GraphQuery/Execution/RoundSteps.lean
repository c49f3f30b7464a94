import GraphQuery.Execution.Round

namespace GraphQuery

/-! A round does nothing to work but steps, whatever its order, and it takes at least
one step if something is due. -/

variable {σ : Type}

structure Advances (work : Work σ) (session : Session σ) (clock : Clock) (progress : Progress σ) :
    Prop where
  reaches : Work.Reaches (work, session) (progress.work, progress.session)
  moves : work.isDue clock.now → 0 < clock.room →
    Work.Steps (work, session) (progress.work, progress.session)

theorem Advances.still (work : Work σ) (session : Session σ) (clock : Clock) (progress : Progress σ)
    (unready : ¬ (work.isDue clock.now ∧ 0 < clock.room)) (sameWork : progress.work = work)
    (sameSession : progress.session = session) : Advances work session clock progress where
  reaches := .inl (by rw [sameWork, sameSession])
  moves isDue room := absurd ⟨isDue, room⟩ unready

theorem Advances.ofStep {work next : Work σ} {session between : Session σ} {clock later : Clock}
    {progress : Progress σ} (step : Work.Step (work, session) (next, between))
    (advances : Advances next between later progress) : Advances work session clock progress where
  reaches := .inr (step.thenReaches advances.reaches)
  moves _ _ := step.thenReaches advances.reaches

def Slot.Sound (slot : Slot σ) : Prop :=
  ∀ advance, slot.advance? = some advance →
    ∀ session clock, Advances slot.work session clock (advance session clock)

/-! ## Serving -/

namespace Service

theorem slots_receive (service : Service σ) (index : Nat) (progress : Progress σ) :
    (service.receive index progress).slots =
      service.slots.set index ⟨progress.work, progress.agenda, none⟩ := by
  unfold receive finishOne
  split
  · rfl
  · split
    · rfl
    · split <;> rfl

theorem session_receive (service : Service σ) (index : Nat) (progress : Progress σ) :
    (service.receive index progress).session = progress.session := by
  unfold receive finishOne
  split
  · rfl
  · split
    · rfl
    · split <;> rfl

theorem works_receive (service : Service σ) (index : Nat) (progress : Progress σ) :
    (service.receive index progress).works = service.works.set index progress.work := by
  simp [works, slots_receive, List.map_set]

theorem sound_receive {service : Service σ} (sound : ∀ slot ∈ service.slots, slot.Sound)
    (index : Nat) (progress : Progress σ) :
    ∀ slot ∈ (service.receive index progress).slots, slot.Sound := by
  intro slot member
  rw [slots_receive] at member
  rcases List.mem_or_eq_of_mem_set member with member | rfl
  · exact sound slot member
  · intro advance found
    cases found

theorem serve_reaches (wide : Bool) (order : List Nat) (service : Service σ)
    (sound : ∀ slot ∈ service.slots, slot.Sound) (next : List Outcome → Work σ) :
    Work.Reaches (.group service.works next, service.session)
      (.group (service.serve wide order).1.works next, (service.serve wide order).1.session) := by
  induction order generalizing service with
  | nil => exact .refl _
  | cons index rest induction =>
      simp only [serve]
      split
      · rename_i work agenda advance found
        split
        · exact induction service.finishOne sound
        · split
          · have advances := sound _ (List.mem_of_getElem? found) advance rfl
              service.session service.clock
            generalize advance service.session service.clock = progress at advances ⊢
            have served : Work.Reaches (.group service.works next, service.session)
                (.group (service.receive index progress).works next,
                  (service.receive index progress).session) := by
              have found : service.works[index]? = some work := by simp [works, found]
              rw [works_receive, session_receive]
              rcases advances.reaches with equal | steps
              · obtain ⟨bound, rfl⟩ := List.getElem?_eq_some_iff.mp found
                obtain ⟨sameWork, sameSession⟩ := Prod.mk.inj equal
                rw [sameWork, sameSession, List.set_getElem_self]
                exact .refl _
              · exact .inr (steps.set found)
            split
            · exact served
            · exact served.trans (induction _ (sound_receive sound index progress))
          · exact induction service sound
      · exact induction service sound

theorem serve_moves (wide : Bool) (order : List Nat) (service : Service σ)
    (sound : ∀ slot ∈ service.slots, slot.Sound) (next : List Outcome → Work σ)
    (room : 0 < service.clock.room)
    (due : ∃ index ∈ order, ∃ slot, service.slots[index]? = some slot ∧
      slot.advance?.isSome ∧ slot.work.isDue service.clock.now) :
    Work.Steps (.group service.works next, service.session)
      (.group (service.serve wide order).1.works next, (service.serve wide order).1.session) := by
  induction order generalizing service with
  | nil => simp at due
  | cons index rest induction =>
      have later : ∀ {slot : Slot σ}, service.slots[index]? = some slot →
          ¬ (slot.advance?.isSome ∧ slot.work.isDue service.clock.now) →
          ∃ index ∈ rest, ∃ slot, service.slots[index]? = some slot ∧
            slot.advance?.isSome ∧ slot.work.isDue service.clock.now := by
        intro slot found idle
        obtain ⟨other, member, slot', found', ready⟩ := due
        rcases List.mem_cons.mp member with rfl | member
        · rw [found] at found'
          cases found'
          exact absurd ready idle
        · exact ⟨other, member, slot', found', ready⟩
      simp only [serve]
      split
      · rename_i work agenda advance found
        split
        · rename_i finished
          have idle : ¬ (work.isDue service.clock.now) := by
            cases work <;> simp_all [Work.outcome?, Work.isDue, Work.alarm?]
          exact induction service.finishOne sound room (later found (by simp [idle]))
        · split
          · rename_i ready
            have steps := (sound _ (List.mem_of_getElem? found) advance rfl
              service.session service.clock).moves ready room
            generalize advance service.session service.clock = progress at steps ⊢
            have served : Work.Steps (.group service.works next, service.session)
                (.group (service.receive index progress).works next,
                  (service.receive index progress).session) := by
              rw [works_receive, session_receive]
              exact steps.set (by simp [works, found])
            split
            · exact served
            · exact served.thenReaches
                (serve_reaches wide rest _ (sound_receive sound index progress) next)
          · rename_i idle
            exact induction service sound room (later found (by simp [idle]))
      · rename_i unserved
        refine induction service sound room ?_
        obtain ⟨other, member, slot, found, ready⟩ := due
        rcases List.mem_cons.mp member with rfl | member
        · obtain ⟨work, agenda, advance?⟩ := slot
          obtain ⟨advance, rfl⟩ := Option.isSome_iff_exists.mp ready.1
          exact absurd found (unserved _ _ _)
        · exact ⟨other, member, slot, found, ready⟩

theorem works_serve_of_done (wide : Bool) (order : List Nat) (service : Service σ)
    (done : ∀ work ∈ service.works, work.outcome?.isSome) :
    (service.serve wide order).1.works = service.works := by
  induction order generalizing service with
  | nil => rfl
  | cons index rest induction =>
      simp only [serve]
      split
      · rename_i work agenda advance found
        have finished : work.outcome?.isSome :=
          done work (List.mem_of_getElem? (by simp [works, found] : service.works[index]? = _))
        rw [if_pos finished]
        exact induction service.finishOne done
      · exact induction service done

end Service

/-! ## Going on -/

namespace Work

theorem map_work_slots (parts : List (Work σ)) (agendas : List Agenda) :
    (slots parts agendas).map Slot.work = parts := by
  induction parts generalizing agendas with
  | nil => rfl
  | cons part rest induction => simp [slots, induction]

theorem advance?_isSome_of_mem_slots {parts : List (Work σ)} {agendas : List Agenda}
    {slot : Slot σ} (member : slot ∈ slots parts agendas) : slot.advance?.isSome := by
  induction parts generalizing agendas with
  | nil => simp [slots] at member
  | cons part rest induction =>
      rcases List.mem_cons.mp member with rfl | member
      · rfl
      · exact induction member

theorem mem_dueParts {now : Nat} {parts : List (Work σ)} {index : Nat} {part : Work σ}
    (found : parts[index]? = some part) (isDue : part.isDue now) :
    index ∈ dueParts now parts := by
  obtain ⟨alarm, alarmFound, rings⟩ : ∃ alarm, part.alarm? = some alarm ∧ alarm.rings now := by
    cases alarmFound : part.alarm? <;> simp_all [Work.isDue]
  simp only [dueParts, List.mem_map, List.mem_mergeSort, List.mem_filterMap]
  refine ⟨(alarm, index), ⟨(part, index), List.mem_zipIdx_iff_getElem?.mpr found, ?_⟩, rfl⟩
  simp [alarmFound, rings]

theorem mem_order {now : Nat} {parts : List (Work σ)} (agenda : Agenda) {index : Nat}
    {part : Work σ} (found : parts[index]? = some part) (isDue : part.isDue now) :
    index ∈ order now parts agenda := by
  have bound : index < parts.length := (List.getElem?_eq_some_iff.mp found).1
  unfold order
  split
  · simpa using bound
  · split
    · rename_i queue _ _
      by_cases queued : index ∈ queue
      · simp [queued]
      · simp [queued, mem_dueParts found isDue]
    · simpa using bound

theorem exists_outcomes_of_done {parts : List (Work σ)}
    (done : ∀ part ∈ parts, part.outcome?.isSome) :
    ∃ outcomes : List Outcome, parts = outcomes.map .done := by
  induction parts with
  | nil => exact ⟨[], rfl⟩
  | cons part rest induction =>
      obtain ⟨outcome, found⟩ := Option.isSome_iff_exists.mp (done part (by simp))
      obtain ⟨outcomes, rfl⟩ := induction fun other member => done other (by simp [member])
      exact ⟨outcome :: outcomes, by simp [outcome?_eq_some_iff.mp found]⟩

theorem advances_group {parts : List (Work σ)} {next : List Outcome → Work σ} (agenda : Agenda)
    (session : Session σ) (clock : Clock)
    (sound : ∀ slot ∈ slots parts agenda.parts, slot.Sound)
    (following : ∀ outcomes session clock,
      Advances (next outcomes) session clock ((next outcomes).advance .fresh session clock)) :
    Advances (.group parts next) session clock
      ((Work.group parts next).advance agenda session clock) := by
  let service : Service σ :=
    .start (order clock.now parts agenda) (slots parts agenda.parts) session clock
  have works : service.works = parts := map_work_slots parts agenda.parts
  have reaches := service.serve_reaches (isWide parts) (order clock.now parts agenda) sound next
  have moves := service.serve_moves (isWide parts) (order clock.now parts agenda) sound next
  have stays := service.works_serve_of_done (isWide parts) (order clock.now parts agenda)
  rw [works] at reaches moves stays
  simp only [advance]
  split
  · rename_i outcomes found
    rw [mapM_outcome?_eq_some_iff] at found
    rw [found] at reaches
    have joined := reaches.thenSteps (.single .join)
    exact ⟨.inr (joined.thenReaches (following _ _ _).reaches),
      fun _ _ => joined.thenReaches (following _ _ _).reaches⟩
  · rename_i unfinished
    refine ⟨reaches, fun isDue room => ?_⟩
    rcases isDue_group isDue with ⟨part, member, isDue⟩ | done
    · obtain ⟨index, found⟩ := List.getElem?_of_mem member
      refine moves room ⟨index, mem_order agenda found isDue, ?_⟩
      have found : ((slots parts agenda.parts).map Slot.work)[index]? = some part := by
        rw [map_work_slots, found]
      rw [List.getElem?_map, Option.map_eq_some_iff] at found
      obtain ⟨slot, slotFound, rfl⟩ := found
      exact ⟨slot, slotFound, advance?_isSome_of_mem_slots (List.mem_of_getElem? slotFound), isDue⟩
    · obtain ⟨outcomes, all⟩ := exists_outcomes_of_done done
      rw [stays done, mapM_outcome?_eq_some_iff.mpr all] at unfinished
      cases unfinished

mutual

/-- A round takes steps, and at least one if something is due. -/
theorem advances (agenda : Agenda) (session : Session σ) (clock : Clock) :
    (work : Work σ) → Advances work session clock (work.advance agenda session clock)
  | .done outcome => by
      simp only [advance]
      exact .still _ _ _ _ (by simp [isDue, alarm?]) rfl rfl
  | .call place? next => by
      simp only [advance]
      exact .ofStep .call (advances .fresh _ _ (next _))
  | .record event next => by
      simp only [advance]
      split
      · exact .ofStep .record (advances .fresh _ _ next)
      · rename_i full
        refine .still _ _ _ _ ?_ rfl rfl
        intro ready
        cases event <;> simp [Clock.takeFor?, Clock.take?] at full
        omega
  | .perform effect next => by
      simp only [advance]
      exact .ofStep .perform (advances .fresh _ _ (next _))
  | .cancel next => by
      simp only [advance]
      exact .ofStep .cancel (advances .fresh _ _ next)
  | .pause milliseconds next => by
      simp only [advance]
      split
      · split
        · rename_i instant
          subst instant
          exact .ofStep .skip (advances .fresh _ _ next)
        · have step : Step (.pause milliseconds next, session)
            (.asleep (clock.alarm milliseconds) next, session) := .sleep _
          exact ⟨.inr (.single step), fun _ _ => .single step⟩
      · rename_i full
        refine .still _ _ _ _ ?_ rfl rfl
        intro ready
        simp [Clock.take?] at full
        omega
  | .asleep alarm next => by
      simp only [advance]
      split
      · split
        · exact .ofStep .wake (advances .fresh _ _ next)
        · rename_i full
          refine .still _ _ _ _ ?_ rfl rfl
          intro ready
          simp [Clock.take?] at full
          omega
      · rename_i silent
        exact .still _ _ _ _ (by simp [isDue, alarm?, silent]) rfl rfl
  | .group parts next =>
      advances_group agenda session clock (sound_slots parts agenda.parts)
        fun outcomes session clock => advances .fresh session clock (next outcomes)

theorem sound_slots : (parts : List (Work σ)) → (agendas : List Agenda) →
    ∀ slot ∈ slots parts agendas, slot.Sound
  | [], _ => by simp [slots]
  | part :: rest, agendas => by
      intro slot member
      rcases List.mem_cons.mp member with rfl | member
      · intro advance found session clock
        cases found
        exact advances _ session clock part
      · exact sound_slots rest agendas.tail slot member

end

end Work

end GraphQuery
