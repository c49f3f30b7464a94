import GraphQuery.Execution.RoundSteps

namespace GraphQuery.Work

/-! Doing work to its end, round after round. Time passes only while everything
waits: it then jumps to the next instant at which something is due. -/

variable {σ : Type}

theorem steps_advance (work : Work σ) (agenda : Agenda) (session : Session σ) (clock : Clock)
    (unfinished : work.outcome? = none) :
    Steps (work, session)
      ((work.advance agenda session (clock.next work.due)).work,
        (work.advance agenda session (clock.next work.due)).session) :=
  (advances agenda session (clock.next work.due) work).moves
    (isDue_of_due_le unfinished (Nat.le_max_right _ _)) (by decide : 0 < Clock.capacity)

def finish (work : Work σ) (agenda : Agenda) (session : Session σ) (clock : Clock) :
    Outcome × Session σ :=
  match _ : work.outcome? with
  | some outcome => (outcome, session)
  | none =>
      let progress := work.advance agenda session (clock.next work.due)
      finish progress.work progress.agenda progress.session progress.clock
termination_by work
decreasing_by exact (steps_advance work agenda session clock ‹_›).remainsLater

def run (work : Work σ) (session : Session σ) : Outcome × Session σ :=
  finish work .fresh session .start

theorem finish_reaches (work : Work σ) (agenda : Agenda) (session : Session σ) (clock : Clock) :
    Reaches (work, session)
      (.done (finish work agenda session clock).1, (finish work agenda session clock).2) := by
  fun_induction finish work agenda session clock with
  | case1 work agenda session clock outcome found =>
      rw [outcome?_eq_some_iff.mp found]
      exact .refl _
  | case2 work agenda session clock unfinished progress induction =>
      exact (steps_advance work agenda session clock unfinished).reaches.trans induction

theorem run_reaches (work : Work σ) (session : Session σ) :
    Reaches (work, session) (.done (work.run session).1, (work.run session).2) :=
  finish_reaches work .fresh session .start

end GraphQuery.Work
