import Fibers.Testbed.CalqueueOrder
import Fibers.Testbed.CellBookkeeping

/-!
# The work of a fiber

`main_loop` of `main.c` up to the end of its loop: a fiber puts the first event of its cell into its
own calendar queue, and then takes the events out and hands them to `ProcessEvent`, which puts new
ones, until `ProcessEvent` returns something other than 0.

The delays that an event draws are not negative, as those of `Random` and `Expent`. `malloc` leaves
what it finds in the fields of the first event that are not set.

## Main results

- `Working.iterate` — what one pass through the loop does to the queue and the cell
- `main_loop_safe` — the loop never runs out of events, gets no event of another fiber, does not
  abort, and ends with the last call
- `events_in_order` — the cell sees its events in the order of their times
-/

namespace Fibers.Testbed.MainLoop

open Cell (Msg LpState Draws processEvent)
open DoublyLinked (Heap)

/-- How the program ends inside the loop. -/
inductive Fault
  | queue (f : Testbed.Fault)
  | cell (f : Cell.Fault)
  /-- "No events to process!" -/
  | noEvents
  /-- "Something went wrong! Fiber %d is getting data from fiber %d, which is impossible." -/
  | wrongReceiver
  deriving DecidableEq

/-- The queue and the state of a fiber, which it keeps in its local storage, and whether the fiber
has left the loop. -/
structure Worker where
  queue : Calqueue (Msg ℚ)
  state : Option (LpState ℚ)
  heap : Heap ℕ
  done : Bool

/-- The first event, on memory with any contents. -/
def firstEvent (id : ℕ) (memory : Msg ℚ) : Msg ℚ :=
  { memory with type := .INIT, receiver := id, sender := id }

/-- The calls of `calqueue_put` that an event makes. -/
def putEvents : List (Msg ℚ) → Calqueue (Msg ℚ) → Except Fault (Calqueue (Msg ℚ))
  | [], q => .ok q
  | m :: ms, q => do
    let q ← (q.put ⟨m.timestamp, m⟩).mapError .queue
    putEvents ms q

/-- `main_loop` up to the loop. -/
def start (id : ℕ) (mem : Calqueue (Msg ℚ)) (memory : Msg ℚ) : Except Fault Worker := do
  let q ← mem.init.mapError .queue
  let q ← (q.put ⟨0, firstEvent id memory⟩).mapError .queue
  return ⟨q, none, fun _ => none, false⟩

/-- One pass through the loop, with the event that it handles. -/
def iterate (id : ℕ) (w : Worker) (d : Draws ℚ) : Except Fault (Msg ℚ × Worker) := do
  let (event, q) ← w.queue.get.mapError .queue
  match event with
  | none => .error .noEvents
  | some event =>
    if event.receiver ≠ id then .error .wrongReceiver
    else
      let out ← (processEvent event w.state w.heap d).mapError .cell
      let q ← putEvents out.put q
      -- the state that `INIT` returns is stored, and does not end the loop
      let ret := if event.type = .INIT then 0 else out.ret
      return (event, ⟨q, some out.state, out.heap, ret ≠ 0⟩)

/-- A pass through the loop that ends without a fault. -/
def Step (id : ℕ) (w : Worker) (a : Msg ℚ × Draws ℚ) (w' : Worker) : Prop :=
  w.done = false ∧ w.heap a.2.addr = none ∧ 0 ≤ a.2.first ∧ 0 ≤ a.2.second ∧
    iterate id w a.2 = .ok (a.1, w')

abbrev History := List (Entry Worker (Msg ℚ × Draws ℚ))

/-- The faults of the numbers in the queue. -/
def Fault.OfNumbers (f : Fault) : Prop := ∃ g, f = .queue g ∧ g.OfNumbers

/-! ## The events of a queue -/

/-- The time of an event; the first one is due at once. -/
def due (m : Msg ℚ) : ℚ := if m.type = .INIT then 0 else m.timestamp

/-- A node of an event of the fiber. -/
structure Stamped (id : ℕ) (x : CalqueueNode (Msg ℚ)) : Prop where
  receiver : x.payload.receiver = id
  priority : x.priority = due x.payload

/-- An event that the fiber puts for itself at the time `now`. -/
structure Puts (id : ℕ) (now : ℚ) (m : Msg ℚ) : Prop where
  receiver : m.receiver = id
  type : m.type ≠ .INIT
  later : now ≤ m.timestamp

theorem Puts.stamped {id : ℕ} {now : ℚ} {m : Msg ℚ} (h : Puts id now m) :
    Stamped id ⟨m.timestamp, m⟩ :=
  ⟨h.receiver, (if_neg h.type).symm⟩

section Queue

variable {α : Type} {q q' : Calqueue α}

/-- `calqueue_get` of a queue that is not empty. -/
theorem get_spec (hi : q.Inv) (hne : q.stored ≠ 0) :
    Yields Testbed.Fault.OfNumbers q.get (fun r => ∃ e, r.1 = some e.payload ∧ r.2.Inv ∧
      q.deq = .ok (some e, r.2) ∧ q.stored = e ::ₘ r.2.stored) := by
  obtain ⟨e, q₁, -, hu, hy⟩ := Calqueue.deq_spec_ofNumbers hi hne
  rw [Calqueue.get_eq]
  cases hd : q.deq with
  | error f => exact .fault (hy.of_error hd)
  | ok r =>
    obtain ⟨he, hset, -⟩ := hy.of_ok hd
    refine .pure ⟨e, by simp [he], hset.inv, ?_, ?_⟩
    · rw [← he]
    · rw [hset.stored]
      exact hu.stored

theorem put_spec {x : CalqueueNode α} (hi : q.Inv) (hx : 0 ≤ x.priority) :
    Yields Testbed.Fault.OfNumbers (q.put x)
      (fun q' => q'.Inv ∧ q'.stored = x ::ₘ q.stored) := by
  refine (Calqueue.put_spec_ofNumbers hi hx).mono ?_
  rintro q' ⟨q₁, hg, hset⟩
  refine ⟨hset.inv, ?_⟩
  rw [hset.stored, hg.stored, Multiset.singleton_add]

end Queue

theorem putEvents_spec {id : ℕ} {now : ℚ} (hnow : 0 ≤ now) {ms : List (Msg ℚ)}
    {q : Calqueue (Msg ℚ)} (hi : q.Inv) (hs : ∀ x ∈ q.stored, Stamped id x)
    (hms : ∀ m ∈ ms, Puts id now m) :
    Yields Fault.OfNumbers (putEvents ms q) (fun q' => q'.Inv ∧ (∀ x ∈ q'.stored, Stamped id x) ∧
      q'.stored.map (·.payload) = q.stored.map (·.payload) + ms) := by
  induction ms generalizing q with
  | nil => exact .pure ⟨hi, hs, by simp⟩
  | cons m ms ih =>
    obtain ⟨hm, hrest⟩ := List.forall_mem_cons.mp hms
    refine ((put_spec (x := ⟨m.timestamp, m⟩) hi (hnow.trans hm.later)).mapError Fault.queue).bind ?_
    rintro q₁ ⟨hi₁, hstored⟩
    have hs₁ : ∀ x ∈ q₁.stored, Stamped id x := by
      intro x hx
      rw [hstored, Multiset.mem_cons] at hx
      rcases hx with rfl | hx
      · exact hm.stamped
      · exact hs x hx
    refine (ih hi₁ hs₁ hrest).mono ?_
    rintro q' ⟨hi', hs', hmap⟩
    refine ⟨hi', hs', ?_⟩
    rw [hmap, hstored, Multiset.map_cons, Multiset.cons_add, ← Multiset.add_cons,
      Multiset.cons_coe]

theorem endCall_put {ch : ℤ} {s : LpState ℚ} {H : Heap ℕ} {out : Cell.Outcome ℚ}
    (h : Cell.endCall ch s H = .ok out) : out.put = [] := by
  unfold Cell.endCall at h
  simp only [bind, Except.bind] at h
  split at h
  · cases h
  · cases h
    rfl

theorem endCall_ret {ch : ℤ} {s : LpState ℚ} {H : Heap ℕ} {out : Cell.Outcome ℚ}
    (h : Cell.endCall ch s H = .ok out) :
    out.ret ≠ 0 ↔ out.state.completeCalls = BitVec.ofNat 32 Cell.completeCallsLimit := by
  unfold Cell.endCall at h
  simp only [bind, Except.bind] at h
  split at h
  · cases h
  · cases h
    simp

theorem startCall_ret {me : ℕ} {now : ℚ} {s : LpState ℚ} {H : Heap ℕ} {d : Draws ℚ}
    {out : Cell.Outcome ℚ} (h : Cell.startCall me now s H d = .ok out) : out.ret = 0 := by
  unfold Cell.startCall at h
  simp only [bind, Except.bind] at h
  split at h
  · cases h
    rfl
  · split at h
    · cases h
    · cases h
      rfl

theorem startCall_put {me : ℕ} {now : ℚ} {s : LpState ℚ} {H : Heap ℕ} {d : Draws ℚ}
    {out : Cell.Outcome ℚ} (h : Cell.startCall me now s H d = .ok out)
    (hd : 0 ≤ d.first ∧ 0 ≤ d.second) :
    ∀ k ∈ out.put, Puts me now k := by
  have hnext : Puts me now (Cell.packEvent me .START_CALL (now + d.second) (-1)) :=
    ⟨rfl, by rintro ⟨⟩, le_add_of_nonneg_right hd.2⟩
  have hend : ∀ ch, Puts me now (Cell.packEvent me .END_CALL (now + d.first) ch) := fun ch =>
    ⟨rfl, by rintro ⟨⟩, le_add_of_nonneg_right hd.1⟩
  unfold Cell.startCall at h
  simp only [bind, Except.bind] at h
  split at h
  · cases h
    simpa using hnext
  · split at h
    · cases h
    · cases h
      simpa using ⟨hend _, hnext⟩

/-- `ProcessEvent` returns 1 with the last call. -/
theorem ret_of_processEvent {m : Msg ℚ} {state : Option (LpState ℚ)} {H : Heap ℕ} {d : Draws ℚ}
    {out : Cell.Outcome ℚ} (h : processEvent m state H d = .ok out) :
    (if m.type = .INIT then 0 else out.ret) ≠ 0 ↔ m.type = .END_CALL ∧
      out.state.completeCalls = BitVec.ofNat 32 Cell.completeCallsLimit := by
  cases hm : m.type with
  | INIT => simp
  | START_CALL =>
    simp only [processEvent, hm] at h
    cases hs : state with
    | none => simp [hs, Cell.orFault, bind, Except.bind] at h
    | some s =>
      rw [hs] at h
      simpa using startCall_ret h
  | END_CALL =>
    simp only [processEvent, hm] at h
    cases hs : state with
    | none => simp [hs, Cell.orFault, bind, Except.bind] at h
    | some s =>
      rw [hs] at h
      simpa using endCall_ret h
  | other => simp [processEvent, hm] at h

/-- The events that an event puts are for the same cell and not due earlier. -/
theorem put_of_processEvent {m : Msg ℚ} {state : Option (LpState ℚ)} {H : Heap ℕ} {d : Draws ℚ}
    {out : Cell.Outcome ℚ} (h : processEvent m state H d = .ok out)
    (hd : 0 ≤ d.first ∧ 0 ≤ d.second) :
    ∀ k ∈ out.put, Puts m.receiver (due m) k := by
  cases hm : m.type with
  | INIT =>
    simp only [processEvent, hm, Except.ok.injEq] at h
    subst h
    have hstart : Puts m.receiver (due m) (Cell.packEvent m.receiver .START_CALL d.first (-1)) :=
      ⟨rfl, by rintro ⟨⟩, by simpa [due, hm, Cell.packEvent] using hd.1⟩
    simpa using hstart
  | START_CALL =>
    simp only [processEvent, hm] at h
    cases hs : state with
    | none => simp [hs, Cell.orFault, bind, Except.bind] at h
    | some s =>
      rw [hs] at h
      simpa [due, hm] using startCall_put h hd
  | END_CALL =>
    simp only [processEvent, hm] at h
    cases hs : state with
    | none => simp [hs, Cell.orFault, bind, Except.bind] at h
    | some s =>
      rw [hs] at h
      simp [endCall_put h]
  | other => simp [processEvent, hm] at h

/-! ## The loop -/

/-- The history as one of the cell alone. -/
def cells (h : History) : Cell.History ℚ :=
  h.map fun e => ⟨⟨e.pre.state, e.pre.heap, []⟩, e.act, ⟨e.post.state, e.post.heap, []⟩⟩

/-- The fiber before a pass, with the queue and the bookkeeping of its cell. -/
structure Working (id : ℕ) (memory : Msg ℚ) (h : History) (w : Worker) : Prop where
  inv : w.queue.Inv
  stamped : ∀ x ∈ w.queue.stored, Stamped id x
  cell : (h = [] ∧ w.state = none ∧ w.queue.stored = {⟨0, firstEvent id memory⟩}) ∨
    ∃ s l, ∃ pending : List (Msg ℚ), w.state = some s ∧
      (pending : Multiset (Msg ℚ)) = w.queue.stored.map (·.payload) ∧
      Cell.Tracked s w.heap pending l ∧ Cell.Counts (cells h) s l.length
  calls : Cell.completedCalls (cells h) ≤ Cell.completeCallsLimit
  ends : w.done = true ↔ Cell.completedCalls (cells h) = Cell.completeCallsLimit

section Loop

variable {id : ℕ} {memory : Msg ℚ} {h : History} {w w' : Worker} {d : Draws ℚ}

theorem working_start (id : ℕ) (mem : Calqueue (Msg ℚ)) (memory : Msg ℚ) :
    Yields Fault.OfNumbers (start id mem memory) (Working id memory []) := by
  refine ((Calqueue.init_spec mem).mapError Fault.queue).bind ?_
  rintro q₀ ⟨hi₀, -, hempty, -⟩
  refine ((put_spec (x := ⟨0, firstEvent id memory⟩) hi₀ le_rfl).mapError Fault.queue).bind ?_
  rintro q ⟨hi, hstored⟩
  rw [hempty] at hstored
  refine .pure ⟨hi, ?_, .inl ⟨rfl, rfl, hstored⟩, Nat.zero_le _,
    iff_of_false Bool.false_ne_true (by decide)⟩
  intro x hx
  rw [hstored] at hx
  obtain rfl := Multiset.mem_singleton.mp hx
  exact ⟨rfl, rfl⟩

theorem Working.stored_ne_zero (hw : Working id memory h w) : w.queue.stored ≠ 0 := by
  rcases hw.cell with ⟨-, -, hstored⟩ | ⟨s, l, pending, -, hpending, htracked, -⟩
  · rw [hstored]
    exact Multiset.singleton_ne_zero _
  · intro hz
    rw [hz, Multiset.map_zero, Multiset.coe_eq_zero] at hpending
    have hstart := htracked.starts
    rw [hpending] at hstart
    cases hstart

theorem Working.due_nonneg (hw : Working id memory h w) {x : CalqueueNode (Msg ℚ)}
    (hx : x ∈ w.queue.stored) : 0 ≤ due x.payload := by
  rw [← (hw.stamped x hx).priority]
  exact hw.inv.wellFormed.priority_nonneg hx

/-- The event that comes out of the queue is handled. -/
theorem Working.handled (hw : Working id memory h w) {e : CalqueueNode (Msg ℚ)}
    {rest : Multiset (CalqueueNode (Msg ℚ))} (he : w.queue.stored = e ::ₘ rest)
    (hd : w.heap d.addr = none) :
    ∃ out l', ∃ pending : List (Msg ℚ), processEvent e.payload w.state w.heap d = .ok out ∧
      (pending : Multiset (Msg ℚ)) = rest.map (·.payload) + out.put ∧
      Cell.Tracked out.state out.heap pending l' ∧
      ∀ c', Cell.Counts (⟨⟨w.state, w.heap, []⟩, (e.payload, d), c'⟩ :: cells h) out.state
        l'.length := by
  rcases hw.cell with ⟨rfl, hnone, hstored⟩ | ⟨s, l, pending, hstate, hpending, htracked, hcounts⟩
  · obtain ⟨rfl, rfl⟩ : e = ⟨0, firstEvent id memory⟩ ∧ rest = 0 := by
      obtain ⟨hfirst, hrest⟩ := (Multiset.singleton_eq_cons_iff _).mp (hstored.symm.trans he)
      exact ⟨hfirst.symm, hrest⟩
    refine ⟨_, [], _, rfl, ?_, Cell.tracked_initialState id d w.heap, fun c' => ?_⟩
    · simp [firstEvent]
    · exact ⟨rfl, rfl, rfl, rfl⟩
  · rw [he, Multiset.map_cons] at hpending
    have hmem : e.payload ∈ pending := by
      rw [← Multiset.mem_coe, hpending]
      exact Multiset.mem_cons_self _ _
    obtain ⟨before, after, rfl⟩ := List.append_of_mem hmem
    obtain ⟨out, l', hout, htracked', hcounted⟩ := htracked.deliver hd
    rw [hstate]
    refine ⟨out, l', before ++ after ++ out.put, hout, ?_, htracked', fun c' => ?_⟩
    · have hperm : ((before ++ e.payload :: after : List (Msg ℚ)) : Multiset (Msg ℚ)) =
          e.payload ::ₘ ((before ++ after : List (Msg ℚ)) : Multiset (Msg ℚ)) :=
        Multiset.coe_eq_coe.mpr List.perm_middle
      rw [hperm, Multiset.cons_inj_right] at hpending
      rw [← hpending, Multiset.coe_add]
    · exact hcounts.next rfl hcounted

/-- The loop ends with the last call, if `n` calls have ended. -/
theorem done_iff {m : Msg ℚ} {out : Cell.Outcome ℚ} {n : ℕ}
    (hout : processEvent m w.state w.heap d = .ok out)
    (hcomplete : out.state.completeCalls = BitVec.ofNat 32 n) (hn : n ≤ Cell.completeCallsLimit)
    (hlast : n = Cell.completeCallsLimit → m.type = .END_CALL) :
    decide ((if m.type = .INIT then 0 else out.ret) ≠ 0) = true ↔ n = Cell.completeCallsLimit := by
  have hlimit : Cell.completeCallsLimit = 15000 := rfl
  refine decide_eq_true_iff.trans ((ret_of_processEvent hout).trans ?_)
  rw [hcomplete]
  constructor
  · rintro ⟨-, he⟩
    have hval := congrArg BitVec.toNat he
    rw [BitVec.toNat_ofNat, BitVec.toNat_ofNat] at hval
    omega
  · intro he
    exact ⟨hlast he, congrArg _ he⟩

/-- The calls that have ended after a pass. -/
theorem Working.calls_next (hw : Working id memory h w) (hdone : w.done = false) (m : Msg ℚ)
    (d : Draws ℚ) (w' : Worker) :
    Cell.completedCalls (cells (⟨w, (m, d), w'⟩ :: h)) ≤ Cell.completeCallsLimit ∧
      (Cell.completedCalls (cells (⟨w, (m, d), w'⟩ :: h)) = Cell.completeCallsLimit →
        m.type = .END_CALL) := by
  have hless : Cell.completedCalls (cells h) < Cell.completeCallsLimit := by
    refine lt_of_le_of_ne hw.calls fun he => ?_
    rw [hw.ends.mpr he] at hdone
    cases hdone
  have hnext : Cell.completedCalls (cells (⟨w, (m, d), w'⟩ :: h)) =
      Cell.completedCalls (cells h) + if m.type = .END_CALL then 1 else 0 := by
    simp [cells, Cell.completedCalls, List.countP_cons]
  rw [hnext]
  split
  · next hm => exact ⟨hless, fun _ => hm⟩
  · exact ⟨hless.le, fun he => absurd he (by omega)⟩

/-- A pass through the loop. -/
theorem Working.iterate (hw : Working id memory h w) (hdone : w.done = false)
    (hd : w.heap d.addr = none) (hdraws : 0 ≤ d.first ∧ 0 ≤ d.second) :
    Yields Fault.OfNumbers (iterate id w d)
      (fun r => Working id memory (⟨w, (r.1, d), r.2⟩ :: h) r.2) := by
  refine ((get_spec hw.inv hw.stored_ne_zero).mapError Fault.queue).bind ?_
  rintro ⟨event, q⟩ ⟨e, hevent, hi, -, he⟩
  obtain rfl : event = some e.payload := hevent
  have hmem : e ∈ w.queue.stored := he ▸ Multiset.mem_cons_self _ _
  have hstamp := hw.stamped e hmem
  obtain ⟨out, l', pending, hout, hpending, htracked, hcounts⟩ := hw.handled he hd
  have hput := put_of_processEvent hout hdraws
  rw [hstamp.receiver] at hput
  show Yields _ (if _ then _ else _) _
  rw [if_neg (not_not.mpr hstamp.receiver)]
  rw [hout]
  have hrest : ∀ x ∈ q.stored, Stamped id x := fun x hx =>
    hw.stamped x (he ▸ Multiset.mem_cons_of_mem hx)
  refine (putEvents_spec (hw.due_nonneg hmem) hi hrest hput).bind ?_
  rintro q' ⟨hi', hstamped', hmap⟩
  obtain ⟨hless, hlast⟩ := hw.calls_next hdone e.payload d
    ⟨q', some out.state, out.heap, (if e.payload.type = .INIT then 0 else out.ret) ≠ 0⟩
  have hcounts' := hcounts ⟨some out.state, out.heap, []⟩
  refine .pure ⟨hi', hstamped', .inr ⟨out.state, l', pending, rfl, ?_, htracked, hcounts'⟩, hless,
    done_iff hout hcounts'.complete hless hlast⟩
  rw [hmap, hpending]

end Loop

/-! ## Runs -/

section Runs

variable {id : ℕ} {mem : Calqueue (Msg ℚ)} {memory : Msg ℚ} {h : History} {w₀ w : Worker}

theorem working_of_run (hstart : start id mem memory = .ok w₀) (hr : Run (Step id) w₀ h w) :
    Working id memory h w := by
  refine hr.induct (I := Working id memory) ((working_start id mem memory).of_ok hstart) ?_
  rintro h w ⟨m, d⟩ w' - hw ⟨hdone, hd, hfirst, hsecond, hstep⟩
  exact (hw.iterate hdone hd ⟨hfirst, hsecond⟩).of_ok hstep

/-- The queue has an event within a year of the last one, or is about to halve its calendar. -/
def Reaches (_ : History) (e : Entry Worker (Msg ℚ × Draws ℚ)) : Prop :=
  e.pre.queue.WithinYear e.pre.queue.lastprio ∨
    (e.pre.queue.qsize : ℤ) - 1 < e.pre.queue.botThreshold

instance (past : History) (e : Entry Worker (Msg ℚ × Draws ℚ)) : Decidable (Reaches past e) :=
  inferInstanceAs (Decidable (_ ∨ _))

/-- In every run of the loop, whatever the delays: the fiber leaves the loop exactly when 15000 calls
have ended. Until then it can go on, unless a quotient or a width of the queue does not fit; it
never finds its queue empty, never gets an event of another fiber and never aborts. -/
theorem main_loop_safe (hstart : start id mem memory = .ok w₀) (hr : Run (Step id) w₀ h w) :
    (w.done = true ↔ h.countP (fun e => e.act.1.type = .END_CALL) = 15000) ∧
      (w.done = false → ∀ d, w.heap d.addr = none → 0 ≤ d.first → 0 ≤ d.second →
        Yields Fault.OfNumbers (iterate id w d) (fun _ => True)) := by
  have hw := working_of_run hstart hr
  have hcalls : Cell.completedCalls (cells h) = h.countP (fun e => e.act.1.type = .END_CALL) := by
    rw [Cell.completedCalls, cells, List.countP_map]
    rfl
  constructor
  · rw [hw.ends, hcalls]
    rfl
  · intro hdone d hd hfirst hsecond
    exact (hw.iterate hdone hd ⟨hfirst, hsecond⟩).mono fun _ _ => trivial

/-- Memory with no nodes, and with no event. -/
def blank : Calqueue (Msg ℚ) := ⟨fun _ => [], 0, 0, 0, 0, false, 0, 0, 0, 0, 0⟩

def noEvent : Msg ℚ := ⟨0, 0, .other, 77, 5⟩

/-- A call takes 5 / 2, the next one arrives after 1. -/
def draw (addr : ℕ) : Draws ℚ := ⟨5 / 2, 1, addr, fun _ => 0⟩

/-- A pass through the loop, computed. -/
def pass (id : ℕ) (w : Worker) (a : Msg ℚ × Draws ℚ) : Option Worker :=
  if w.done = false ∧ w.heap a.2.addr = none ∧ 0 ≤ a.2.first ∧ 0 ≤ a.2.second then
    match iterate id w a.2 with
    | .ok (m, w') => if m = a.1 then some w' else none
    | .error _ => none
  else none

theorem step_of_pass {id : ℕ} {w w' : Worker} {a : Msg ℚ × Draws ℚ} (h : pass id w a = some w') :
    Step id w a w' := by
  rw [pass] at h
  split at h
  · next hc =>
    split at h
    · next m w₁ hiterate =>
      split at h
      · next hm =>
        cases h
        exact ⟨hc.1, hc.2.1, hc.2.2.1, hc.2.2.2, by rw [hiterate, hm]⟩
      · cases h
    · cases h
  · cases h

/-- Three calls arrive, and the first one ends. -/
def firstCalls : List (Msg ℚ × Draws ℚ) :=
  [(firstEvent 1 noEvent, draw 8), (Cell.packEvent 1 .START_CALL (5 / 2) (-1), draw 8),
    (Cell.packEvent 1 .START_CALL (7 / 2) (-1), draw 16),
    (Cell.packEvent 1 .START_CALL (9 / 2) (-1), draw 24), (Cell.packEvent 1 .END_CALL 5 0, draw 32)]

theorem exists_firstCalls : ∃ w₀ h w, start 1 blank noEvent = .ok w₀ ∧
    Run.execute (pass 1) [] w₀ firstCalls = some (h, w) ∧ EveryEntry Reaches h := by
  have hc : ((start 1 blank noEvent).toOption.any fun w₀ =>
      (Run.execute (pass 1) [] w₀ firstCalls).any fun x => decide (EveryEntry Reaches x.1)) =
        true := by
    decide +kernel
  obtain ⟨w₀, hstart, hc⟩ := (Option.any_eq_true _ _).mp hc
  obtain ⟨h, w, he, hreach⟩ := Run.exists_execute (pass 1) w₀ firstCalls
    (fun h _ => decide (EveryEntry Reaches h)) hc
  refine ⟨w₀, h, w, ?_, he, of_decide_eq_true hreach⟩
  cases hs : start 1 blank noEvent with
  | error f =>
    rw [hs] at hstart
    cases hstart
  | ok w₁ =>
    rw [hs] at hstart
    exact congrArg Except.ok (Option.some.inj hstart)

theorem run_of_pass {w₀ w : Worker} {h : History} {acts : List (Msg ℚ × Draws ℚ)}
    (he : Run.execute (pass 1) [] w₀ acts = some (h, w)) : Run (Step 1) w₀ h w :=
  (Run.of_execute acts .start he).mono fun _ _ _ => step_of_pass

theorem main_loop_safe_firstCalls : ∃ w₀ h w, start 1 blank noEvent = .ok w₀ ∧
    Run.execute (pass 1) [] w₀ firstCalls = some (h, w) ∧
      ((w.done = true ↔ h.countP (fun e => e.act.1.type = .END_CALL) = 15000) ∧
        (w.done = false → ∀ d, w.heap d.addr = none → 0 ≤ d.first → 0 ≤ d.second →
          Yields Fault.OfNumbers (iterate 1 w d) (fun _ => True))) := by
  obtain ⟨w₀, h, w, hstart, he, -⟩ := exists_firstCalls
  exact ⟨w₀, h, w, hstart, he, main_loop_safe hstart (run_of_pass he)⟩

/-! ## The order of the events -/

/-- The event that is handled is due before all others. -/
def HandlesFirst (_ : History) (e : Entry Worker (Msg ℚ × Draws ℚ)) : Prop :=
  ∀ x ∈ e.pre.queue.stored, due e.act.1 ≤ due x.payload

theorem iterate_eq_ok {d : Draws ℚ} {m : Msg ℚ} {w' : Worker} (h : iterate id w d = .ok (m, w')) :
    ∃ e q out, w.queue.deq = .ok (some e, q) ∧ m = e.payload ∧ m.receiver = id ∧
      processEvent m w.state w.heap d = .ok out ∧ putEvents out.put q = .ok w'.queue ∧
      w'.state = some out.state := by
  unfold iterate at h
  rw [Calqueue.get_eq] at h
  cases hdeq : w.queue.deq with
  | error f =>
    rw [hdeq] at h
    cases h
  | ok r =>
    obtain ⟨e, q⟩ := r
    rw [hdeq] at h
    cases e with
    | none => cases h
    | some e =>
      change (if e.payload.receiver ≠ id then _ else _) = _ at h
      split at h
      · cases h
      · next hid =>
        cases hout : processEvent e.payload w.state w.heap d with
        | error f =>
          rw [hout] at h
          cases h
        | ok out =>
          rw [hout] at h
          change (putEvents out.put q >>= _) = _ at h
          cases hput : putEvents out.put q with
          | error f =>
            rw [hput] at h
            cases h
          | ok q' =>
            rw [hput] at h
            cases h
            exact ⟨e, q, out, rfl, rfl, not_not.mp hid, hout, hput, rfl⟩

/-- The queue has been used on time, and has returned the events of the history. -/
def Ordered (h : History) (q : Calqueue (Msg ℚ)) : Prop :=
  ∃ hq : Calqueue.History (Msg ℚ), Calqueue.OnTime hq q ∧
    Calqueue.prioritiesReturned hq = h.map fun e => due e.act.1

theorem Ordered.putEvents {now : ℚ} {ms : List (Msg ℚ)} {q q' : Calqueue (Msg ℚ)}
    (ho : Ordered h q) (hnow : 0 ≤ now) (hlast : q.lastprio ≤ now) (hms : ∀ m ∈ ms, Puts id now m)
    (hput : putEvents ms q = .ok q') : Ordered h q' := by
  induction ms generalizing q with
  | nil =>
    cases hput
    exact ho
  | cons m ms ih =>
    obtain ⟨hm, hrest⟩ := List.forall_mem_cons.mp hms
    obtain ⟨hq, ht, hreturned⟩ := ho
    cases hp : q.put ⟨m.timestamp, m⟩ with
    | error f =>
      rw [MainLoop.putEvents, hp] at hput
      cases hput
    | ok q₁ =>
      rw [MainLoop.putEvents, hp] at hput
      have hstep : Calqueue.Step q (.put m.timestamp m) q₁ := ⟨hnow.trans hm.later, hp⟩
      have ht₁ := ht.put hstep (ht.lastprio.symm.le.trans (hlast.trans hm.later))
      refine ih ⟨_, ht₁, hreturned⟩ ?_ hrest hput
      rw [ht₁.lastprio]
      exact ht.lastprio.symm.le.trans hlast

theorem ordered_start (hstart : start id mem memory = .ok w₀) : Ordered [] w₀.queue := by
  have ht := Calqueue.onTime_init (Calqueue.init_eq mem)
  unfold start at hstart
  rw [Calqueue.init_eq] at hstart
  change ((Calqueue.started mem).put ⟨0, firstEvent id memory⟩).mapError _ >>= _ = _ at hstart
  cases hput : (Calqueue.started mem).put ⟨0, firstEvent id memory⟩ with
  | error f =>
    rw [hput] at hstart
    cases hstart
  | ok q =>
    rw [hput] at hstart
    cases hstart
    have hstep : Calqueue.Step (Calqueue.started mem) (.put 0 (firstEvent id memory)) q :=
      ⟨le_rfl, hput⟩
    exact ⟨_, ht.put hstep le_rfl, rfl⟩

/-- A pass within reach handles the event that is due first. -/
theorem Ordered.iterate {d : Draws ℚ} {m : Msg ℚ} {w' : Worker} (ho : Ordered h w.queue)
    (hw : Working id memory h w) (hs : Step id w (m, d) w')
    (hreach : Reaches h ⟨w, (m, d), w'⟩) :
    HandlesFirst h ⟨w, (m, d), w'⟩ ∧ Ordered (⟨w, (m, d), w'⟩ :: h) w'.queue := by
  obtain ⟨hdone, hd, hfirst, hsecond, hstep⟩ := hs
  obtain ⟨e, q, out, hdeq, hm, hreceiver, hout, hput, -⟩ := iterate_eq_ok hstep
  have hm : m = e.payload := hm
  obtain ⟨hq, ht, hreturned⟩ := ho
  have hget : Calqueue.Step w.queue (.get (some e)) q := hdeq
  have hwithin : Calqueue.WithinReach hq ⟨w.queue, .get (some e), q⟩ := by
    intro _ _ _
    rw [← ht.lastprio]
    exact hreach
  obtain ⟨hmin, ht'⟩ := ht.get hget hwithin
  obtain ⟨e', he', heq, hmin⟩ := hmin (some e) rfl hw.stored_ne_zero
  obtain rfl : e = e' := Option.some.inj heq
  have hstamp := hw.stamped e he'
  have hdue : e.priority = due m := by rw [hm, hstamp.priority]
  refine ⟨fun x hx => ?_, ?_⟩
  · show due m ≤ _
    rw [← hdue, ← (hw.stamped x hx).priority]
    exact hmin x hx
  · have hputs := put_of_processEvent hout ⟨hfirst, hsecond⟩
    have hlast : q.lastprio ≤ due m := by
      rw [ht'.lastprio]
      exact hdue.le
    have hnonneg : 0 ≤ due m := hm ▸ hw.due_nonneg he'
    have hordered : Ordered (⟨w, (m, d), w'⟩ :: h) q := by
      refine ⟨_, ht', ?_⟩
      show e.priority :: Calqueue.prioritiesReturned hq = due m :: _
      rw [hreturned, hdue]
    exact hordered.putEvents hnonneg hlast hputs hput

/-- In every run of the loop whose gets are within reach, each event is handled before all events
that are due later, and so the events come in the order of their times. -/
theorem events_in_order (hstart : start id mem memory = .ok w₀) (hr : Run (Step id) w₀ h w)
    (hreach : EveryEntry Reaches h) :
    EveryEntry HandlesFirst h ∧ (h.map fun e => due e.act.1).Pairwise (· ≥ ·) := by
  suffices hi : EveryEntry HandlesFirst h ∧ Ordered h w.queue by
    obtain ⟨hfirst, hq, ht, hreturned⟩ := hi
    exact ⟨hfirst, hreturned ▸ ht.ordered⟩
  induction hr with
  | start => exact ⟨trivial, ordered_start hstart⟩
  | next hr hs ih =>
    obtain ⟨hall, ho⟩ := ih hreach.2
    obtain ⟨hfirst, ho'⟩ := ho.iterate (working_of_run hstart hr) hs hreach.1
    exact ⟨⟨hfirst, hall⟩, ho'⟩

theorem events_in_order_firstCalls : ∃ w₀ h w, start 1 blank noEvent = .ok w₀ ∧
    Run.execute (pass 1) [] w₀ firstCalls = some (h, w) ∧
      (EveryEntry HandlesFirst h ∧ (h.map fun e => due e.act.1).Pairwise (· ≥ ·)) := by
  obtain ⟨w₀, h, w, hstart, he, hreach⟩ := exists_firstCalls
  exact ⟨w₀, h, w, hstart, he, events_in_order hstart (run_of_pass he) hreach⟩

end Runs

end Fibers.Testbed.MainLoop
