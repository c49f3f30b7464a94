import GraphQuery.Execution.Fault
import GraphQuery.Execution.Outcome

namespace GraphQuery

/-! Work that is done for a request. It reports what happens, may wait, and may
consist of parts that are done beside one another. While a part waits, the
others go on. -/

/-! ## Sessions -/

inductive Event where
  | called (path : Path)
  | answered (path : Path)
  | failed (fault : FieldFault)

def Event.path : Event → Path
  | .called path => path
  | .answered path => path
  | .failed fault => fault.path

structure Session (σ : Type) where
  shared : Shared σ
  /-- The events so far, the last one first. -/
  journal : List Event

namespace Session

variable {σ : Type}

def note (event : Event) (session : Session σ) : Session σ :=
  { session with journal := event :: session.journal }

def noteCall (place? : Option Path) (session : Session σ) : Session σ :=
  match place? with
  | some path => session.note (.called path)
  | none => session

def perform (effect : σ → σ) (session : Session σ) : Session σ :=
  { session with shared := { session.shared with state := effect session.shared.state } }

def cancel (session : Session σ) : Session σ :=
  { session with shared := { session.shared with cancelled := true } }

def events (session : Session σ) : List Event := session.journal.reverse

@[simp] theorem events_note (event : Event) (session : Session σ) :
    (session.note event).events = session.events ++ [event] := by
  simp [events, note]

@[simp] theorem events_noteCall (place? : Option Path) (session : Session σ) :
    (session.noteCall place?).events = session.events ++ place?.toList.map .called := by
  cases place? <;> simp [noteCall]

@[simp] theorem shared_noteCall (place? : Option Path) (session : Session σ) :
    (session.noteCall place?).shared = session.shared := by
  cases place? <;> rfl

def faults (session : Session σ) : List FieldFault :=
  session.events.filterMap fun
    | .failed fault => some fault
    | _ => none

end Session

/-! ## Work -/

/-- When sleeping work goes on. Turns tell in which order waits began. -/
structure Alarm where
  due : Nat
  turn : Nat
deriving DecidableEq, Repr

inductive Work (σ : Type) where
  | done (outcome : Outcome)
  /-- Look at what is shared and, before anything else can happen, call the resolver of
  a place or go on without a call. -/
  | call (place? : Shared σ → Option Path) (next : Shared σ → Work σ)
  | record (event : Event) (next : Work σ)
  | perform (effect : σ → σ) (next : Shared σ → Work σ)
  | cancel (next : Work σ)
  | pause (milliseconds : Nat) (next : Work σ)
  | asleep (alarm : Alarm) (next : Work σ)
  /-- Parts that are done side by side, and what follows once all of them are done. -/
  | group (parts : List (Work σ)) (next : List Outcome → Work σ)

/-- How work begins: with the call of the resolver of a place, if there is one, and what
follows from there. -/
structure Opening (σ : Type) where
  place? : Option Path
  next : Work σ

namespace Opening

variable {σ : Type}

def quiet (next : Work σ) : Opening σ := ⟨none, next⟩

def calling (path : Path) (next : Work σ) : Opening σ := ⟨some path, next⟩

/-- Begin like this, or end in null at once if the request is cancelled. -/
def unlessCancelled (opening : Opening σ) (shared : Shared σ) : Opening σ :=
  if shared.cancelled then quiet (.done .null) else opening

variable {opening : Opening σ} {shared : Shared σ}

@[simp] theorem unlessCancelled_of_live (live : shared.cancelled = false) :
    opening.unlessCancelled shared = opening := by
  rw [unlessCancelled, live]
  rfl

@[simp] theorem unlessCancelled_of_cancelled (cancelled : shared.cancelled = true) :
    opening.unlessCancelled shared = quiet (.done .null) := if_pos cancelled

end Opening

namespace Work

variable {σ : Type}

/-- Begin as what is shared at that moment has it. -/
def begin (opening : Shared σ → Opening σ) : Work σ :=
  .call (fun shared => (opening shared).place?) fun shared => (opening shared).next

def ofResolution (next : Except ResolverFault Json → Work σ) : Resolution σ → Work σ
  | .answer result => next result
  | .perform effect rest => .perform effect fun shared => ofResolution next (rest shared)
  | .cancel rest => .cancel (ofResolution next rest)
  | .pause milliseconds rest => .pause milliseconds (ofResolution next rest)

def andThen (next : Outcome → Work σ) : Work σ → Work σ
  | .done outcome => next outcome
  | .call place? rest => .call place? fun shared => (rest shared).andThen next
  | .record event rest => .record event (rest.andThen next)
  | .perform effect rest => .perform effect fun shared => (rest shared).andThen next
  | .cancel rest => .cancel (rest.andThen next)
  | .pause milliseconds rest => .pause milliseconds (rest.andThen next)
  | .asleep alarm rest => .asleep alarm (rest.andThen next)
  | .group parts rest => .group parts fun outcomes => (rest outcomes).andThen next

def map (convert : Outcome → Outcome) (work : Work σ) : Work σ :=
  work.andThen fun outcome => .done (convert outcome)

/-- Do one work after the other, where a group does them side by side. -/
def inOrder : List (Work σ) → (List Outcome → Work σ) → Work σ
  | [], next => next []
  | work :: rest, next =>
      work.andThen fun outcome => inOrder rest fun outcomes => next (outcome :: outcomes)

def outcome? : Work σ → Option Outcome
  | .done outcome => some outcome
  | _ => none

theorem outcome?_eq_some_iff {work : Work σ} {outcome : Outcome} :
    work.outcome? = some outcome ↔ work = .done outcome := by
  cases work <;> simp [outcome?]

theorem mapM_outcome?_eq_some_iff {parts : List (Work σ)} {outcomes : List Outcome} :
    parts.mapM outcome? = some outcomes ↔ parts = outcomes.map .done := by
  induction parts generalizing outcomes with
  | nil => cases outcomes <;> simp
  | cons part rest induction =>
      cases outcomes with
      | nil => cases part <;> cases found : rest.mapM outcome? <;> simp [outcome?, found]
      | cons outcome outcomes =>
          cases part <;> cases found : rest.mapM outcome? <;>
            simp_all [outcome?, ← induction]

end Work

end GraphQuery
