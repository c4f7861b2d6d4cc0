import Fibers.Testbed.ProgramInvariant

/-!
# Runs of the program

What holds of the loop of one fiber alone holds of all fibers of the program, in any interleaving:
seen by a fiber, a run of the program is a run of its own loop. So the program ends for the reasons
that its code gives, and what it prints in the end is the work of all fibers.

## Main results

- `sees` — a step of the program as seen by a fiber
- `switches_to_created` — no fiber is read from the array before it is there
- `fibers_work_alone` — the passes of a fiber are a run of `main_loop`
- `work_complete` — how the program ends
-/

namespace Fibers.Testbed.Program

open Cell (Msg LpState Draws)
open MainLoop (Worker)

/-! ## The program as a fiber sees it -/

/-- The queue and the cell of a fiber. -/
def State.worker (s : State) (id : ℕ) : Option Worker := s.mem.worker (s.pc id)

/-- A pass of the fiber through its loop. -/
def ownPass (id : ℕ) (e : Entry State Act) : Option (Entry Worker (Msg ℚ × Draws ℚ)) :=
  match e.act with
  | .fiber j (.pass a _) =>
    if j = id ∧ e.post.ended = none then do
      let w ← e.pre.worker id
      let w' ← e.post.worker id
      return ⟨w, a, w'⟩
    else none
  | _ => none

/-- The passes of a fiber. -/
def passes (id : ℕ) (h : History) : MainLoop.History := h.filterMap (ownPass id)

/-- The fiber enters its loop. -/
def Begins (id : ℕ) (w : Worker) : Prop := ∃ mem memory, MainLoop.start id mem memory = .ok w

section Sees

variable {n : ℕ} {s s' : State} {a : Act} {id : ℕ}

theorem ownPass_of_ne {j : ℕ} {x : FiberAct} (hj : j ≠ id) :
    ownPass id ⟨s, .fiber j x, s'⟩ = none := by
  cases x with
  | pass a b => exact if_neg fun hguard => hj hguard.1
  | _ => rfl

theorem ownPass_of_ended {x : FiberAct} (hended : s'.ended ≠ none) :
    ownPass id ⟨s, .fiber id x, s'⟩ = none := by
  cases x with
  | pass a b => exact if_neg fun hguard => hended hguard.2
  | _ => rfl

theorem ownPass_of_pass {x : Msg ℚ × Draws ℚ} {b : ℕ} {w w' : Worker} (hended : s'.ended = none)
    (hpre : s.worker id = some w) (hpost : s'.worker id = some w') :
    ownPass id ⟨s, .fiber id (.pass x b), s'⟩ = some ⟨w, x, w'⟩ := by
  simp [ownPass, hended, hpre, hpost]

/-- The fiber goes on, and works on the same as before. -/
theorem worker_setPc {p : Pc} (j : ℕ) (hp : s.mem.worker p = s.mem.worker (s.pc j)) :
    (s.setPc j p).worker id = s.worker id := by
  show s.mem.worker (Function.update s.pc j p id) = s.mem.worker (s.pc id)
  by_cases hid : id = j
  · rw [hid, Function.update_self, hp]
  · rw [Function.update_of_ne hid]

theorem worker_switchTo {f : ℕ} {entered : Bool} :
    (s.switchTo f entered).worker id = s.worker id := by
  rcases switchTo_cases s f entered with he | ⟨j, hj, he⟩
  · rw [he]
  · rw [he]
    apply worker_setPc
    rw [hj]
    rfl

/-- A step of another fiber that has its memory for itself. -/
theorem worker_of_advances {m : Memory} {j : ℕ} {p : Pc} {t : State}
    (ha : Advances s.mem m s.pc j p) (hj : j ≠ id) (hmem : t.mem = m)
    (hpc : t.pc = Function.update s.pc j p) : t.worker id = s.worker id := by
  unfold State.worker
  rw [hmem, hpc, Function.update_of_ne (Ne.symm hj)]
  exact Memory.worker_congr (ha.same (Ne.symm hj))

/-- A step of the program is for each fiber a pass through its own loop, or nothing. -/
theorem sees (hi : Inv n s) (hs : StepCase n s a s') (hended : s.ended = none) (id : ℕ) :
    Run.Sees (State.worker · id) (ownPass id) (Begins id) (MainLoop.Step id) ⟨s, a, s'⟩ := by
  cases hs with
  | announce hmain => exact .quiet rfl rfl
  | create k hmain hk => exact .quiet rfl rfl
  | arm k hmain hk => exact .quiet rfl rfl
  | run hmain =>
    refine .quiet rfl (worker_setPc (s := { s with initComplete := true, main := .running }) 1 ?_)
    show _ = s.mem.worker (s.pc 1)
    rw [hi.first (by rw [hmain]; nofun)]
    rfl
  | switch caller f entered hf hmay => exact .quiet rfl worker_switchTo
  | allocQueue j hpc =>
    refine .quiet rfl (worker_setPc (s := { s with flsIdx := s.flsIdx + 1 }) j ?_)
    show _ = s.mem.worker (s.pc j)
    rw [hpc]
    rfl
  | allocState j q st hpc hst =>
    refine .quiet rfl (worker_setPc (s := { s with flsIdx := s.flsIdx + 1 }) j ?_)
    show _ = s.mem.worker (s.pc j)
    rw [hpc]
    rfl
  | noStorage j q hpc hfull => exact .quiet rfl rfl
  | store j q st addr mem hpc hfree =>
    by_cases hj : j = id
    · subst hj
      refine .quiet rfl ?_
      show Memory.worker _ (Function.update s.pc j _ j) = s.mem.worker (s.pc j)
      rw [Function.update_self, hpc]
      rfl
    · exact .quiet rfl (worker_of_advances (hi.memory.store hpc hfree) hj rfl rfl)
  | start j q st memory mem w hpc hmem hstart =>
    obtain ⟨hstate, hheap, hdone⟩ := started hstart
    obtain ⟨c, hc, -⟩ := Option.bind_eq_some_iff.mp hmem
    obtain ⟨hadvances, hload⟩ := hi.memory.start hpc hc hstate hheap hdone
    by_cases hj : j = id
    · subst hj
      refine .begins rfl ?_ ?_ ⟨mem, memory, hstart⟩
      · show s.mem.worker (s.pc j) = none
        rw [hpc]
        rfl
      · show Memory.worker _ (Function.update s.pc j _ j) = some w
        rw [Function.update_self]
        exact hload
    · exact .quiet rfl (worker_of_advances hadvances hj rfl rfl)
  | startFault j q st memory mem f hpc hstart => exact .quiet rfl rfl
  | startPointer j q st memory hpc hmem => exact .quiet rfl rfl
  | pass j q st b m d w w' hpc hload hstep hfree =>
    obtain ⟨hadvances, hload'⟩ := hi.memory.pass hpc hload hstep.2.2.2.2 hfree
    by_cases hj : j = id
    · subst hj
      have hpre : s.worker j = some w := by
        rw [State.worker, hpc]
        exact hload
      have hpost : State.worker ({ s with mem := s.mem.store q st w' (allocated m b) }.setPc j
          (.afterPass q st w'.done)) j = some w' := by
        show Memory.worker _ (Function.update s.pc j _ j) = some w'
        rw [Function.update_self]
        exact hload'
      exact .moves (ownPass_of_pass hended hpre hpost) hpre hpost hstep
    · exact .quiet (ownPass_of_ne hj) (worker_of_advances hadvances hj rfl rfl)
  | passFault j q st b a w f hpc hload hheap hdraws hpass =>
    refine .quiet ?_ rfl
    by_cases hj : j = id
    · exact hj ▸ ownPass_of_ended nofun
    · exact ownPass_of_ne hj
  | passPointer j q st b a hpc hload =>
    refine .quiet ?_ rfl
    by_cases hj : j = id
    · exact hj ▸ ownPass_of_ended nofun
    · exact ownPass_of_ne hj
  | time j q st millis hpc =>
    refine .quiet rfl (worker_setPc (s := { s with execMillis := _ }) j ?_)
    show _ = s.mem.worker (s.pc j)
    rw [hpc]
    rfl
  | subtract j q st millis hpc =>
    refine .quiet rfl (worker_setPc (s := { s with completedFibers := _ }) j ?_)
    show _ = s.mem.worker (s.pc j)
    rw [hpc]
    rfl
  | exit hdone hzero => exact .quiet rfl rfl

end Sees

/-! ## Runs -/

/-- What a step of the fiber adds to `exec_millis`. -/
def Act.added (id : ℕ) : Act → List (BitVec 32)
  | .fiber j (.time millis) => if j = id then [millis] else []
  | _ => []

/-- What a fiber has added to `exec_millis`. -/
def timesOf (id : ℕ) (h : History) : List (BitVec 32) := h.flatMap fun e => e.act.added id

/-- What a fiber remembers of it. -/
def Pc.times : Pc → List (BitVec 32)
  | .timed _ _ millis | .done _ _ millis => [millis]
  | _ => []

/-- The pointer that `SwitchToFiber` gets is that of a fiber. -/
def SwitchesToCreated (_ : History) (e : Entry State Act) : Prop :=
  ∀ caller f entered, e.act = .switch caller f entered → e.pre.fibers f = some (f + 1)

section Runs

variable {n : ℕ} {h : History} {s s' : State} {a : Act} {id : ℕ}

theorem run_of_worker (hn : 0 < n) (hn' : n < 2 ^ 32) (hr : Run (Step n) initial h s) {w : Worker}
    (hw : s.worker id = some w) :
    ∃ w₀, Begins id w₀ ∧ Run (MainLoop.Step id) w₀ (passes id h) w := by
  have init : initial.worker id = none := by
    by_cases hid : id = 1 <;> simp [State.worker, initial, hid, Memory.worker]
  refine hr.seen (State.worker · id) init ?_ hw
  intro h s a s' hr hs
  exact sees (inv_of_run hn hn' hr) (step_cases hs).2 (step_cases hs).1 id

/-- A fault inside the loop is one of the numbers in a queue. -/
theorem StepCase.ofNumbers (hs : StepCase n s a s') (hn : 0 < n) (hn' : n < 2 ^ 32)
    (hr : Run (Step n) initial h s) (hended : s.ended = none) {f : MainLoop.Fault}
    (hf : s'.ended = some (.loop f)) : f.OfNumbers := by
  cases hs with
  | startFault id q st memory mem f' hpc hstart =>
    cases hf
    exact (MainLoop.working_start id mem memory).of_error hstart
  | passFault id q st b x w f' hpc hload hheap hdraws hpass =>
    cases hf
    have hw : s.worker id = some w := by
      rw [State.worker, hpc]
      exact hload
    obtain ⟨w₀, ⟨mem, memory, hstart⟩, hrun⟩ := run_of_worker hn hn' hr hw
    obtain ⟨_, -, -, -, hdone⟩ := Memory.load_eq_some hload
    exact ((MainLoop.working_of_run hstart hrun).iterate hdone hheap hdraws).of_error hpass
  | switch caller f' entered hf' hmay =>
    exfalso
    rcases switchTo_cases s f' entered with he | ⟨j, -, he⟩
    · rw [he] at hf
      cases hended.symm.trans hf
    · rw [he] at hf
      cases hended.symm.trans hf
  | noStorage _ _ _ _ => cases hf
  | startPointer _ _ _ _ _ _ => cases hf
  | passPointer _ _ _ _ _ _ _ => cases hf
  | exit _ _ => cases hf
  | _ => cases hended.symm.trans hf

theorem times_setPc {j : ℕ} {p : Pc} {t : State} (hpc : t.pc = Function.update s.pc j p)
    (hp : p.times = (s.pc j).times) : (t.pc id).times = (s.pc id).times := by
  rw [hpc]
  by_cases hid : id = j
  · rw [hid, Function.update_self, hp]
  · rw [Function.update_of_ne hid]

/-- Each step adds to `exec_millis` what its fiber remembers afterwards. -/
theorem StepCase.times (hs : StepCase n s a s') (hi : Inv n s) (id : ℕ) :
    (s'.pc id).times = a.added id ++ (s.pc id).times := by
  cases hs with
  | announce _ => rfl
  | create _ _ _ => rfl
  | arm _ _ _ => rfl
  | run hmain =>
    refine times_setPc rfl ?_
    rw [hi.first (by rw [hmain]; nofun)]
    rfl
  | switch caller f entered _ _ =>
    rcases switchTo_cases s f entered with he | ⟨j, hj, he⟩
    · rw [he]
      rfl
    · rw [he]
      refine times_setPc rfl ?_
      rw [hj]
      rfl
  | allocQueue j hpc => exact times_setPc rfl (by rw [hpc]; rfl)
  | allocState j q st hpc hst => exact times_setPc rfl (by rw [hpc]; rfl)
  | noStorage _ _ _ _ => rfl
  | store j q st addr mem hpc hfree => exact times_setPc rfl (by rw [hpc]; rfl)
  | start j q st memory mem w hpc hmem hstart => exact times_setPc rfl (by rw [hpc]; rfl)
  | startFault _ _ _ _ _ _ _ _ => rfl
  | startPointer _ _ _ _ _ _ => rfl
  | pass j q st b m d w w' hpc hload hstep hfree =>
    refine times_setPc rfl ?_
    rw [hpc]
    cases w'.done <;> rfl
  | passFault _ _ _ _ _ _ _ _ _ _ _ _ => rfl
  | passPointer _ _ _ _ _ _ _ => rfl
  | time j q st millis hpc =>
    show (Function.update s.pc j _ id).times = _
    by_cases hj : j = id
    · subst hj
      rw [Function.update_self, hpc, Act.added, if_pos rfl]
      rfl
    · rw [Function.update_of_ne (Ne.symm hj), Act.added, if_neg hj, List.nil_append]
  | subtract j q st millis hpc => exact times_setPc rfl (by rw [hpc]; rfl)
  | exit _ _ => rfl

theorem timesOf_eq (hn : 0 < n) (hn' : n < 2 ^ 32) (hr : Run (Step n) initial h s) (id : ℕ) :
    timesOf id h = (s.pc id).times := by
  induction hr with
  | start => by_cases hid : id = 1 <;> simp [timesOf, initial, hid, Pc.times]
  | next hr hs ih =>
    rw [(step_cases hs).2.times (inv_of_run hn hn' hr) id, ← ih]
    rfl

/-! ## Results -/

/-- In every run the array is complete before anybody reads it, whoever it is. -/
theorem switches_to_created (hn : 0 < n) (hn' : n < 2 ^ 32) (hr : Run (Step n) initial h s) :
    EveryEntry SwitchesToCreated h := by
  apply hr.induct (I := fun h _ => EveryEntry SwitchesToCreated h) trivial
  intro h s a s' hr hall hs
  refine ⟨?_, hall⟩
  rintro caller f entered rfl
  cases (step_cases hs).2 with
  | switch _ _ _ hf hmay => exact (inv_of_run hn hn' hr).fibers_of_maySwitch hmay hf

open MainLoop (blank draw firstEvent noEvent) in
/-- A second thread brings up the second fiber while the first one allocates its slots, and then both
are at work. -/
def interleaved : List Act :=
  [.main, .main, .main, .main, .main, .fiber 1 .alloc, .switch .thread 1 true, .fiber 2 .alloc,
    .fiber 1 .alloc, .fiber 2 .alloc, .fiber 2 (.store 100 blank), .fiber 1 (.store 200 blank),
    .fiber 1 (.start noEvent), .fiber 2 (.start noEvent),
    .fiber 2 (.pass (firstEvent 2 noEvent, draw 8) 50), .switch .handler 0 false,
    .fiber 1 (.pass (firstEvent 1 noEvent, draw 8) 60),
    .fiber 2 (.pass (Cell.packEvent 2 .START_CALL (5 / 2) (-1), draw 8) 70),
    .fiber 1 (.pass (Cell.packEvent 1 .START_CALL (5 / 2) (-1), draw 8) 70)]

theorem exists_interleaved : ∃ h s w, Run.execute (State.step 2) [] initial interleaved = some (h, s) ∧
    s.worker 2 = some w ∧ (passes 2 h).length = 2 := by
  have hc : (Run.execute (State.step 2) [] initial interleaved).any (fun x =>
      (x.2.worker 2).isSome && decide ((passes 2 x.1).length = 2)) = true := by
    decide +kernel
  obtain ⟨h, s, he, hcheck⟩ := Run.exists_execute (State.step 2) initial interleaved
    (fun h s => (s.worker 2).isSome && decide ((passes 2 h).length = 2)) hc
  rw [Bool.and_eq_true] at hcheck
  obtain ⟨w, hw⟩ := Option.isSome_iff_exists.mp hcheck.1
  exact ⟨h, s, w, he, hw, of_decide_eq_true hcheck.2⟩

theorem run_interleaved {h : History} {s : State}
    (he : Run.execute (State.step 2) [] initial interleaved = some (h, s)) :
    Run (Step 2) initial h s :=
  Run.of_execute interleaved .start he

theorem switches_to_created_interleaved : ∃ h s,
    Run.execute (State.step 2) [] initial interleaved = some (h, s) ∧
      EveryEntry SwitchesToCreated h := by
  obtain ⟨h, s, w, he, -, -⟩ := exists_interleaved
  exact ⟨h, s, he, switches_to_created (by decide) (by decide) (run_interleaved he)⟩

/-- In every run of the program no two fibers ever know the same slot, queue or cell, and the passes
of a fiber are a run of its own `main_loop`, whatever the others do in between. -/
theorem fibers_work_alone (hn : 0 < n) (hn' : n < 2 ^ 32) (hr : Run (Step n) initial h s) :
    (∀ i j l, s.mem.Owns (s.pc i) l → s.mem.Owns (s.pc j) l → i = j) ∧
      ∀ id w, s.worker id = some w → ∃ mem memory w₀, MainLoop.start id mem memory = .ok w₀ ∧
        Run (MainLoop.Step id) w₀ (passes id h) w := by
  refine ⟨(inv_of_run hn hn' hr).memory.sole, fun id w hw => ?_⟩
  obtain ⟨w₀, ⟨mem, memory, hstart⟩, hrun⟩ := run_of_worker hn hn' hr hw
  exact ⟨mem, memory, w₀, hstart, hrun⟩

theorem fibers_work_alone_interleaved : ∃ h s w,
    Run.execute (State.step 2) [] initial interleaved = some (h, s) ∧
      (passes 2 h).length = 2 ∧ ∃ mem memory w₀, MainLoop.start 2 mem memory = .ok w₀ ∧
        Run (MainLoop.Step 2) w₀ (passes 2 h) w := by
  obtain ⟨h, s, w, he, hw, hlength⟩ := exists_interleaved
  exact ⟨h, s, w, he, hlength,
    (fibers_work_alone (by decide) (by decide) (run_interleaved he)).2 2 w hw⟩

/-- A fiber behind its loop has handled the calls of its cell, and has told its time once. -/
theorem done_fiber (hn : 0 < n) (hn' : n < 2 ^ 32) (hr : Run (Step n) initial h s)
    (hdone : (s.pc id).isDone = true) :
    (passes id h).countP (fun e => e.act.1.type = Cell.EventType.END_CALL) = 15000 ∧
      ∃ millis, timesOf id h = [millis] ∧ millis.toNat = (s.pc id).millis := by
  have htimes := timesOf_eq hn hn' hr id
  cases hpc : s.pc id with
  | done q st millis =>
    constructor
    · obtain ⟨w, hload⟩ := ((inv_of_run hn hn' hr).memory.sound id).load true (by rw [hpc]; rfl)
        (by rw [hpc]; rfl)
      have hw : s.worker id = some w := by
        rw [State.worker, hpc]
        exact hload
      obtain ⟨_, -, -, -, hend⟩ := Memory.load_eq_some hload
      obtain ⟨w₀, ⟨mem, memory, hstart⟩, hrun⟩ := run_of_worker hn hn' hr hw
      have hcalls := (MainLoop.working_of_run hstart hrun).ends.mp hend
      rw [Cell.completedCalls, MainLoop.cells, List.countP_map] at hcalls
      exact hcalls
    · rw [hpc] at htimes
      exact ⟨millis, htimes, rfl⟩
  | _ =>
    rw [hpc] at hdone
    cases hdone

/-- How the program ends: never at a null pointer in place of a queue or a cell, never because a fiber
finds no event or one of another fiber, or because a cell aborts; for want of storage only with more
than 2048 fibers; and with "All fibers are done!" only when each of them has handled its 15000 calls,
with the sum of all their times, each added once. -/
theorem work_complete (hn : 0 < n) (hn' : n < 2 ^ 32) (hr : Run (Step n) initial h s) :
    s.ended ≠ some .pointer ∧
      (∀ f, s.ended = some (.loop f) → f.OfNumbers) ∧
      (s.ended = some .noStorage → 2048 < n) ∧
      (s.ended = some .success →
        (∀ id, 1 ≤ id → id ≤ n →
          (passes id h).countP (fun e => e.act.1.type = Cell.EventType.END_CALL) = 15000) ∧
        ∃ time : ℕ → BitVec 32, (∀ id, 1 ≤ id → id ≤ n → timesOf id h = [time id]) ∧
          s.execMillis = BitVec.ofNat 64 (∑ i ∈ Finset.range n, (time (i + 1)).toNat)) := by
  have hi := inv_of_run hn hn' hr
  refine ⟨hi.noPointer, fun f hf => ?_, hi.storage, fun hsuccess => ?_⟩
  · cases hr with
    | start => cases hf
    | next hr hs => exact (step_cases hs).2.ofNumbers hn hn' hr (step_cases hs).1 hf
  · have hdone := fun id h1 hle => done_fiber hn hn' hr (hi.success hsuccess id h1 hle)
    refine ⟨fun id h1 hle => (hdone id h1 hle).1, fun id => (timesOf id h).headD 0,
      fun id h1 hle => ?_, ?_⟩
    · obtain ⟨millis, htimes, -⟩ := (hdone id h1 hle).2
      show timesOf id h = [(timesOf id h).headD 0]
      rw [htimes]
      rfl
    · rw [hi.millis, total]
      refine congrArg _ (Finset.sum_congr rfl fun i hi => ?_)
      obtain ⟨millis, htimes, hmillis⟩ :=
        (hdone (i + 1) (Nat.le_add_left 1 i) (Finset.mem_range.mp hi)).2
      show (s.pc (i + 1)).millis = ((timesOf (i + 1) h).headD 0).toNat
      rw [htimes, ← hmillis]
      rfl

theorem work_complete_interleaved : ∃ h s,
    Run.execute (State.step 2) [] initial interleaved = some (h, s) ∧ s.ended ≠ some .pointer := by
  obtain ⟨h, s, w, he, -, -⟩ := exists_interleaved
  exact ⟨h, s, he, (work_complete (by decide) (by decide) (run_interleaved he)).1⟩

end Runs

end Fibers.Testbed.Program
