import Fibers.Lib.Bitmap
import Fibers.Lib.DoublyLinked
import Fibers.Lib.Run
import Mathlib.Data.BitVec

/-!
# A cell of the testbed's model

`ProcessEvent` of `model.c` with `allocation` and `deallocation` of `channel.c`. A cell keeps which
of its channels are busy in a counter, in a packed bitmap, in a doubly linked list of records in
the heap, and in the `END_CALL` events that it has put into its queue.

The outcomes of `Random` and `Expent` and the address that `malloc` returns are inputs of an event.
`ta`, which only scales the delays, and the signal data of a channel, which are numbers drawn at
random, are left out. A loop over the list is followed for more nodes than there are channels;
one that goes on, a pointer to no record and an `abort` are faults.

The queue hands the pending events back in any order.

## Main definitions

- `Cell.processEvent` — the handler of an event
- `Cell.EventStep` — the delivery of a pending event
-/

namespace Fibers.Testbed.Cell

open DoublyLinked (Heap Node)

/-- Where a cell leaves what C defines, or aborts. -/
inductive Fault
  | allocation
  | deallocation
  | unknownEvent
  | pointer
  deriving DecidableEq

/-- `CHANNELS_PER_CELL`. -/
def channelsPerCell : ℕ := 1000

/-- `COMPLETE_CALLS`. -/
def completeCallsLimit : ℕ := 15000

/-- The nodes that a loop over the list is followed for. -/
def loopBound : ℕ := 1001

/-- `BITS`. -/
def bits : ℕ := 32

inductive EventType
  | INIT
  | START_CALL
  | END_CALL
  | other
  deriving DecidableEq

structure Msg (τ : Type) where
  sender : ℕ
  receiver : ℕ
  type : EventType
  timestamp : τ
  channel : ℤ
  deriving DecidableEq

structure LpState (τ : Type) where
  channelCounter : BitVec 32
  arrivingCalls : BitVec 32
  completeCalls : BitVec 32
  blockedOnSetup : BitVec 32
  executedEvents : BitVec 32
  lvt : Option τ
  channelsPerCell : ℕ
  channelState : ℕ → BitVec bits
  channels : Option ℕ

/-- A pointer that the code follows without a test. -/
def orFault {α : Type*} (x : Option α) : Except Fault α :=
  match x with
  | some a => .ok a
  | none => .error .pointer

/-! ## Channels -/

section Channels

variable {τ : Type}

def checkChannel (s : LpState τ) (i : ℕ) : BitVec bits := Bitmap.check s.channelState i

def setChannel (s : LpState τ) (i : ℕ) : LpState τ :=
  { s with channelState := Bitmap.set s.channelState i }

def resetChannel (s : LpState τ) (i : ℕ) : LpState τ :=
  { s with channelState := Bitmap.reset s.channelState i }

/-- The loop of `fading_recheck`. -/
def fadingRecheck (H : Heap ℕ) (s : LpState τ) : Except Fault Unit := do
  let _ ← orFault (DoublyLinked.walk H loopBound s.channels)
  return ()

/-- `allocation`, with a record at the address `a`. -/
def allocation (H : Heap ℕ) (s : LpState τ) (a : ℕ) : Except Fault (Heap ℕ × LpState τ × ℕ) :=
  match (List.range s.channelsPerCell).find? (fun i => checkChannel s i = 0) with
  | none => .error .allocation
  | some index => do
    let s := setChannel s index
    let c : Node ℕ := { value := index, next := none, prev := s.channels }
    let H ← orFault (DoublyLinked.setNext (Function.update H a (some c)) s.channels (some a))
    let s := { s with channels := some a }
    -- the loop that sums up the interference begins behind the new record
    let _ ← orFault (DoublyLinked.walk H loopBound c.prev)
    fadingRecheck H s
    return (H, s, index)

/-- The part of `deallocation` that takes the record `c` at the address `a` out of the list. -/
def unlinkChannel (H : Heap ℕ) (s : LpState τ) (a : ℕ) (c : Node ℕ) :
    Except Fault (Heap ℕ × LpState τ) :=
  if s.channels = some a then do
    let H ← orFault (DoublyLinked.setNext H c.prev none)
    return (H, { s with channels := c.prev })
  else do
    let H ← orFault (DoublyLinked.setPrev H c.next c.prev)
    let H ← orFault (DoublyLinked.setNext H c.prev c.next)
    return (H, s)

/-- `deallocation`. -/
def deallocation (H : Heap ℕ) (s : LpState τ) (ch : ℤ) : Except Fault (Heap ℕ × LpState τ) := do
  match ← orFault (DoublyLinked.search H (fun id => (id : ℤ) = ch) loopBound s.channels) with
  | none => .error .deallocation
  | some a =>
    let c ← orFault (H a)
    let (H, s) ← unlinkChannel H s a c
    let s := resetChannel s ch.toNat
    let H := Function.update H a none
    fadingRecheck H s
    return (H, s)

end Channels

/-! ## Events -/

/-- What an event draws: the outcomes of `Random` or `Expent`, the address that `malloc` returns,
and what is in the memory there. -/
structure Draws (τ : Type) where
  first : τ
  second : τ
  addr : ℕ
  memory : ℕ → BitVec bits

/-- What an event leaves: the return value, the state and the heap, and the events it put. -/
structure Outcome (τ : Type) where
  ret : ℤ
  state : LpState τ
  heap : Heap ℕ
  put : List (Msg τ)

variable {τ : Type} [Add τ]

def packEvent (cell : ℕ) (type : EventType) (stamp : τ) (ch : ℤ) : Msg τ where
  sender := cell
  receiver := cell
  type := type
  timestamp := stamp
  channel := ch

/-- The state that `INIT` allocates. The words of the bitmap are cleared up to the last channel. -/
def initialState (memory : ℕ → BitVec bits) : LpState τ where
  channelCounter := BitVec.ofNat 32 channelsPerCell
  arrivingCalls := 0
  completeCalls := 0
  blockedOnSetup := 0
  executedEvents := 0
  lvt := none
  channelsPerCell := channelsPerCell
  channelState := fun k => if k < channelsPerCell / bits + 1 then 0 else memory k
  channels := none

/-- The case `START_CALL`. -/
def startCall (me : ℕ) (now : τ) (s : LpState τ) (H : Heap ℕ) (d : Draws τ) :
    Except Fault (Outcome τ) :=
  let s : LpState τ := { s with arrivingCalls := s.arrivingCalls + 1 }
  let next : Msg τ := packEvent me .START_CALL (now + d.second) (-1)
  if s.channelCounter = 0 then
    .ok ⟨0, { s with blockedOnSetup := s.blockedOnSetup + 1 }, H, [next]⟩
  else do
    let (H, s, index) ← allocation H { s with channelCounter := s.channelCounter - 1 } d.addr
    return ⟨0, s, H, [packEvent me .END_CALL (now + d.first) index, next]⟩

/-- The case `END_CALL`. -/
def endCall (ch : ℤ) (s : LpState τ) (H : Heap ℕ) : Except Fault (Outcome τ) := do
  let s := { s with
    channelCounter := s.channelCounter + 1
    completeCalls := s.completeCalls + 1 }
  let (H, s) ← deallocation H s ch
  return ⟨if s.completeCalls = BitVec.ofNat 32 completeCallsLimit then 1 else 0, s, H, []⟩

/-- `ProcessEvent`. Only `INIT` gets by without a state. -/
def processEvent (m : Msg τ) (state : Option (LpState τ)) (H : Heap ℕ) (d : Draws τ) :
    Except Fault (Outcome τ) :=
  let now := m.timestamp
  let state := state.map fun s =>
    { s with lvt := some now, executedEvents := s.executedEvents + 1 }
  match m.type with
  | .INIT =>
    .ok ⟨0, initialState d.memory, H, [packEvent m.receiver .START_CALL d.first (-1)]⟩
  | .START_CALL => do
    let s ← orFault state
    startCall m.receiver now s H d
  | .END_CALL => do
    let s ← orFault state
    endCall m.channel s H
  | .other => .error .unknownEvent

/-! ## The cell and its queue -/

/-- The state of a cell, its records, and the events in its queue. -/
structure Config (τ : Type) where
  state : Option (LpState τ)
  heap : Heap ℕ
  pending : List (Msg τ)

/-- A cell with its first event. -/
def Config.start (me : ℕ) (stamp : τ) : Config τ :=
  ⟨none, fun _ => none, [packEvent me .INIT stamp (-1)]⟩

/-- The delivery of an event that is pending. `malloc` returns an address that is not in use. -/
inductive EventStep : Config τ → Msg τ × Draws τ → Config τ → Prop
  | deliver {state : Option (LpState τ)} {H : Heap ℕ} {before after : List (Msg τ)} {m : Msg τ}
      {d : Draws τ} {out : Outcome τ} (hd : H d.addr = none)
      (h : processEvent m state H d = .ok out) :
      EventStep ⟨state, H, before ++ m :: after⟩ (m, d)
        ⟨some out.state, out.heap, before ++ after ++ out.put⟩

end Fibers.Testbed.Cell
