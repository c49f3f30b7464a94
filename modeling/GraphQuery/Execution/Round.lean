import GraphQuery.Execution.Due
import GraphQuery.Execution.Progress

namespace GraphQuery

/-! A round takes work as far as it goes at one instant. The parts of a group go on from
left to right, except in a wide group: there they go on in the order in which they
became ready, and now and then the group gives way to what stands beside it. A round
has room for so many waits that end and faults that are told; the others are put off.
What a round leaves over goes on in the next one, at the same instant. -/

/-! ## Clocks -/

structure Clock where
  now : Nat
  waits : Nat
  room : Nat

namespace Clock

def capacity : Nat := 128

def start : Clock := ⟨0, 0, capacity⟩

def next (clock : Clock) (due : Nat) : Clock :=
  { clock with now := max clock.now due, room := capacity }

def take? (clock : Clock) : Option Clock :=
  if clock.room = 0 then none else some { clock with room := clock.room - 1 }

def takeFor? (clock : Clock) : Event → Option Clock
  | .failed _ => clock.take?
  | _ => some clock

def beginWait (clock : Clock) : Clock := { clock with waits := clock.waits + 1 }

def alarm (clock : Clock) (milliseconds : Nat) : Alarm :=
  ⟨clock.now + milliseconds, clock.waits + 1⟩

end Clock

/-! ## Serving the parts of a group -/

/-- What a group remembers from round to round. -/
inductive Agenda where
  | fresh
  /-- The parts that the last round left over, in the order in which they are to go on,
  and what each part remembers. -/
  | begun (queue : List Nat) (parts : List Agenda)

def Agenda.parts : Agenda → List Agenda
  | .fresh => []
  | .begun _ parts => parts

structure Progress (σ : Type) where
  work : Work σ
  agenda : Agenda
  session : Session σ
  clock : Clock
  /-- Whether something in the work has given way to what stands beside it. -/
  gaveWay : Bool
  putOff : Bool

structure Slot (σ : Type) where
  work : Work σ
  agenda : Agenda
  /-- How the part goes on, unless it has been served in this round. -/
  advance? : Option (Session σ → Clock → Progress σ)

structure Service (σ : Type) where
  slots : List (Slot σ)
  session : Session σ
  clock : Clock
  unfinished : Nat
  /-- Whether each of the parts that were served since one was last finished has given
  way, the last one first. -/
  passed : List Bool
  gaveWay : List Nat
  /-- The parts that have been put off, the last one first. -/
  putOff : List Nat

namespace Service

variable {σ : Type}

/-- Begin to serve parts in an order. A part in the order is unfinished even if there is
nothing to do for it. -/
def start (order : List Nat) (slots : List (Slot σ)) (session : Session σ) (clock : Clock) :
    Service σ where
  slots := slots
  session := session
  clock := clock
  unfinished :=
    slots.countP (·.work.outcome?.isNone) +
      order.countP fun index => slots[index]?.any (·.work.outcome?.isSome)
  passed := []
  gaveWay := []
  putOff := []

def works (service : Service σ) : List (Work σ) := service.slots.map Slot.work

def finishOne (service : Service σ) : Service σ :=
  { service with unfinished := service.unfinished - 1, passed := [] }

def receive (service : Service σ) (index : Nat) (progress : Progress σ) : Service σ :=
  let received : Service σ :=
    { service with
      slots := service.slots.set index ⟨progress.work, progress.agenda, none⟩
      session := progress.session
      clock := progress.clock }
  if progress.work.outcome?.isSome then received.finishOne
  else if progress.gaveWay then
    { received with passed := true :: service.passed, gaveWay := service.gaveWay ++ [index] }
  else if progress.putOff then
    { received with passed := false :: service.passed, putOff := index :: service.putOff }
  else { received with passed := false :: service.passed }

/-- A wide group gives way once two of its parts have given way, or as many as are
unfinished have been served, since one was last finished. -/
def givesWay (service : Service σ) : Bool :=
  !service.passed.isEmpty &&
    (2 ≤ service.passed.count true || service.passed.length == service.unfinished)

/-- Serve parts in order. The parts after the one at which the group gives way are left
over. -/
def serve (wide : Bool) : List Nat → Service σ → Service σ × List Nat
  | [], service => (service, [])
  | index :: rest, service =>
      match service.slots[index]? with
      | some ⟨work, _, some advance⟩ =>
          if work.outcome?.isSome then serve wide rest service.finishOne
          else if work.isDue service.clock.now then
            let served := service.receive index (advance service.session service.clock)
            if wide && served.givesWay then (served, rest) else serve wide rest served
          else serve wide rest service
      | _ => serve wide rest service

/-- What has become of a group that is not done. Its next round begins with the parts
left over; the last part that was put off comes first of those put off. -/
def toProgress (service : Service σ) (wide : Bool) (left : List Nat)
    (next : List Outcome → Work σ) : Progress σ :=
  let isDue := fun index =>
    service.slots[index]?.any fun slot => slot.work.isDue service.clock.now
  { work := .group service.works next
    agenda :=
      .begun (left ++ service.gaveWay.filter isDue ++ service.putOff)
        (service.slots.map Slot.agenda)
    session := service.session
    clock := service.clock
    gaveWay := wide && service.givesWay || !service.gaveWay.isEmpty
    putOff := !service.putOff.isEmpty }

end Service

namespace Work

variable {σ : Type}

/-! ## Going on -/

def narrow : Nat := 30

def isWide (parts : List (Work σ)) : Bool := narrow < parts.length

def dueParts (now : Nat) (parts : List (Work σ)) : List Nat :=
  let alarms := parts.zipIdx.filterMap fun (part, index) =>
    (part.alarm?.filter (·.rings now)).map fun alarm => (alarm, index)
  (alarms.mergeSort fun left right => left.1.atOrBefore right.1).map Prod.snd

def order (now : Nat) (parts : List (Work σ)) : Agenda → List Nat
  | .fresh => List.range parts.length
  | .begun queue _ =>
      if isWide parts then
        queue ++ (dueParts now parts).filter fun index => !queue.contains index
      else List.range parts.length

mutual

/-- Take work as far as it goes in a round. -/
def advance : Work σ → Agenda → Session σ → Clock → Progress σ
  | .done outcome, _, session, clock =>
      ⟨.done outcome, .fresh, session, clock, false, false⟩
  | .call place? next, _, session, clock =>
      (next session.shared).advance .fresh (session.noteCall (place? session.shared)) clock
  | .record event next, _, session, clock =>
      match clock.takeFor? event with
      | some clock => next.advance .fresh (session.note event) clock
      | none => ⟨.record event next, .fresh, session, clock, false, true⟩
  | .perform effect next, _, session, clock =>
      (next (session.perform effect).shared).advance .fresh (session.perform effect) clock
  | .cancel next, _, session, clock => next.advance .fresh session.cancel clock
  | .pause milliseconds next, _, session, clock =>
      match clock.take? with
      | some taken =>
          if milliseconds = 0 then next.advance .fresh session taken
          else
            ⟨.asleep (clock.alarm milliseconds) next, .fresh, session, clock.beginWait, false,
              false⟩
      | none => ⟨.pause milliseconds next, .fresh, session, clock, false, true⟩
  | .asleep alarm next, _, session, clock =>
      if alarm.rings clock.now then
        match clock.take? with
        | some clock => next.advance .fresh session clock
        | none => ⟨.asleep alarm next, .fresh, session, clock, false, true⟩
      else ⟨.asleep alarm next, .fresh, session, clock, false, false⟩
  | .group parts next, agenda, session, clock =>
      let order := order clock.now parts agenda
      let (service, left) :=
        (Service.start order (slots parts agenda.parts) session clock).serve (isWide parts) order
      match service.works.mapM outcome? with
      | some outcomes => (next outcomes).advance .fresh service.session service.clock
      | none => service.toProgress (isWide parts) left next

def slots : List (Work σ) → List Agenda → List (Slot σ)
  | [], _ => []
  | part :: rest, agendas =>
      ⟨part, agendas.headD .fresh, some (part.advance (agendas.headD .fresh))⟩ ::
        slots rest agendas.tail

end

end Work

end GraphQuery
