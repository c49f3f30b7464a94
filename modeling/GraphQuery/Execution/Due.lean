import GraphQuery.Execution.Work

namespace GraphQuery

/-! When work can go on. Work that does not sleep can go on at once. -/

namespace Alarm

def atOnce : Alarm := ⟨0, 0⟩

def rings (alarm : Alarm) (now : Nat) : Bool := alarm.due ≤ now

def atOrBefore (left right : Alarm) : Bool :=
  left.due < right.due || (left.due == right.due && left.turn ≤ right.turn)

def sooner (left right : Alarm) : Alarm :=
  if left.atOrBefore right then left else right

theorem sooner_eq (left right : Alarm) : left.sooner right = left ∨ left.sooner right = right := by
  unfold sooner
  split
  · exact .inl rfl
  · exact .inr rfl

end Alarm

namespace Work

variable {σ : Type}

mutual

def alarm? : Work σ → Option Alarm
  | .done _ => none
  | .asleep alarm _ => some alarm
  | .group parts _ => some ((soonest? parts).getD .atOnce)
  | _ => some .atOnce

def soonest? : List (Work σ) → Option Alarm
  | [] => none
  | work :: rest => Option.merge Alarm.sooner work.alarm? (soonest? rest)

end

def isDue (now : Nat) (work : Work σ) : Bool := work.alarm?.any (·.rings now)

def due (work : Work σ) : Nat := (work.alarm?.map Alarm.due).getD 0

theorem alarm?_isSome {work : Work σ} (unfinished : work.outcome? = none) :
    work.alarm?.isSome := by
  cases work <;> simp_all [alarm?, outcome?]

theorem isDue_of_due_le {work : Work σ} {now : Nat} (unfinished : work.outcome? = none)
    (come : work.due ≤ now) : work.isDue now := by
  obtain ⟨alarm, found⟩ := Option.isSome_iff_exists.mp (alarm?_isSome unfinished)
  simpa [isDue, due, found, Alarm.rings] using come

theorem exists_of_soonest? {works : List (Work σ)} {alarm : Alarm}
    (found : soonest? works = some alarm) : ∃ work ∈ works, work.alarm? = some alarm := by
  induction works generalizing alarm with
  | nil => simp [soonest?] at found
  | cons work rest induction =>
      rcases Option.merge_eq_some_iff.mp found with
        ⟨here, _⟩ | ⟨_, there⟩ | ⟨left, right, here, there, sooner⟩
      · exact ⟨work, by simp, here⟩
      · obtain ⟨later, member, found⟩ := induction there
        exact ⟨later, by simp [member], found⟩
      · rcases Alarm.sooner_eq left right with equal | equal
        · exact ⟨work, by simp, by rw [here, ← sooner, equal]⟩
        · obtain ⟨later, member, found⟩ := induction there
          exact ⟨later, by simp [member], by rw [found, ← sooner, equal]⟩

theorem outcome?_isSome_of_soonest? {works : List (Work σ)} (none : soonest? works = none) :
    ∀ work ∈ works, work.outcome?.isSome := by
  induction works with
  | nil => simp
  | cons work rest induction =>
      obtain ⟨here, there⟩ := Option.merge_eq_none_iff.mp none
      intro other member
      rcases List.mem_cons.mp member with rfl | member
      · cases found : other.outcome? with
        | none => exact absurd (alarm?_isSome found) (by simp [here])
        | some outcome => rfl
      · exact induction there other member

theorem isDue_group {parts : List (Work σ)} {next : List Outcome → Work σ} {now : Nat}
    (isDue : (Work.group parts next).isDue now) :
    (∃ part ∈ parts, part.isDue now) ∨ ∀ part ∈ parts, part.outcome?.isSome := by
  cases found : soonest? parts with
  | none => exact .inr (outcome?_isSome_of_soonest? found)
  | some alarm =>
      obtain ⟨part, member, alarmFound⟩ := exists_of_soonest? found
      refine .inl ⟨part, member, ?_⟩
      simpa [Work.isDue, alarm?, found, alarmFound] using isDue

end Work

end GraphQuery
