import Fibers.Testbed.ProgramMemory
import Mathlib.Algebra.BigOperators.Group.Finset.Piecewise

/-!
# The invariant of the program

The array of fibers is complete before anybody reads it, `fls_idx` has counted the calls of
`fls_alloc`, and `completed_fibers` and `exec_millis` what the fibers have subtracted and added.

## Main results

- `step_cases` — what a step can do
- `StepCase.inv`, `inv_of_run` — every step keeps the invariant
-/

namespace Fibers.Testbed.Program

open Cell (Msg LpState Draws)
open DoublyLinked (Heap)
open MainLoop (Worker)

/-! ## Steps by their cases -/

inductive StepCase (n : ℕ) (s : State) : Act → State → Prop
  | announce (hmain : s.main = .start) :
      StepCase n s .main { s with completedFibers := BitVec.ofNat 32 n, main := .creating 0 }
  | create (k : ℕ) (hmain : s.main = .creating k) (hk : k < n) :
      StepCase n s .main
        { s with fibers := Function.update s.fibers k (some (k + 1)), main := .creating (k + 1) }
  | arm (k : ℕ) (hmain : s.main = .creating k) (hk : n ≤ k) :
      StepCase n s .main { s with main := .armed }
  | run (hmain : s.main = .armed) :
      StepCase n s .main ({ s with initComplete := true, main := .running }.setPc 1 .begun)
  | switch (caller : Caller) (f : ℕ) (entered : Bool) (hf : f < n)
      (hmay : s.maySwitch caller = true) :
      StepCase n s (.switch caller f entered) (s.switchTo f entered)
  | allocQueue (id : ℕ) (hpc : s.pc id = .begun) :
      StepCase n s (.fiber id .alloc)
        ({ s with flsIdx := s.flsIdx + 1 }.setPc id (.oneIndex (slotAt s.flsIdx)))
  | allocState (id q st : ℕ) (hpc : s.pc id = .oneIndex (some q)) (hst : slotAt s.flsIdx = some st) :
      StepCase n s (.fiber id .alloc) ({ s with flsIdx := s.flsIdx + 1 }.setPc id (.indices q st))
  | noStorage (id : ℕ) (q : Option ℕ) (hpc : s.pc id = .oneIndex q)
      (hfull : q = none ∨ slotAt s.flsIdx = none) :
      StepCase n s (.fiber id .alloc) ({ s with flsIdx := s.flsIdx + 1 }.finish .noStorage)
  | store (id q st addr : ℕ) (mem : Calqueue (Msg ℚ)) (hpc : s.pc id = .indices q st)
      (hfree : s.mem.queue addr = none) :
      StepCase n s (.fiber id (.store addr mem))
        ({ s with mem := { s.mem with
          queue := Function.update s.mem.queue addr (some mem)
          fls := Function.update s.mem.fls q (some addr) } }.setPc id (.stored q st))
  | start (id q st : ℕ) (memory : Msg ℚ) (mem : Calqueue (Msg ℚ)) (w : Worker)
      (hpc : s.pc id = .stored q st) (hmem : (s.mem.fls q).bind s.mem.queue = some mem)
      (hstart : MainLoop.start id mem memory = .ok w) :
      StepCase n s (.fiber id (.start memory))
        ({ s with mem := { s.mem.setQueue q w.queue with
          fls := Function.update (s.mem.setQueue q w.queue).fls st none } }.setPc id
          (.looping q st))
  | startFault (id q st : ℕ) (memory : Msg ℚ) (mem : Calqueue (Msg ℚ)) (f : MainLoop.Fault)
      (hpc : s.pc id = .stored q st) (hstart : MainLoop.start id mem memory = .error f) :
      StepCase n s (.fiber id (.start memory)) (s.finish (.loop f))
  | startPointer (id q st : ℕ) (memory : Msg ℚ) (hpc : s.pc id = .stored q st)
      (hmem : (s.mem.fls q).bind s.mem.queue = none) :
      StepCase n s (.fiber id (.start memory)) (s.finish .pointer)
  | pass (id q st b : ℕ) (m : Msg ℚ) (d : Draws ℚ) (w w' : Worker) (hpc : s.pc id = .looping q st)
      (hload : s.mem.load q st false = some w) (hstep : MainLoop.Step id w (m, d) w')
      (hfree : s.mem.cell b = none) :
      StepCase n s (.fiber id (.pass (m, d) b))
        ({ s with mem := s.mem.store q st w' (allocated m b) }.setPc id (.afterPass q st w'.done))
  | passFault (id q st b : ℕ) (a : Msg ℚ × Draws ℚ) (w : Worker) (f : MainLoop.Fault)
      (hpc : s.pc id = .looping q st) (hload : s.mem.load q st false = some w)
      (hheap : w.heap a.2.addr = none) (hdraws : 0 ≤ a.2.first ∧ 0 ≤ a.2.second)
      (hpass : MainLoop.iterate id w a.2 = .error f) :
      StepCase n s (.fiber id (.pass a b)) (s.finish (.loop f))
  | passPointer (id q st b : ℕ) (a : Msg ℚ × Draws ℚ) (hpc : s.pc id = .looping q st)
      (hload : s.mem.load q st false = none) :
      StepCase n s (.fiber id (.pass a b)) (s.finish .pointer)
  | time (id q st : ℕ) (millis : BitVec 32) (hpc : s.pc id = .left q st) :
      StepCase n s (.fiber id (.time millis))
        ({ s with execMillis := s.execMillis + millis.setWidth 64 }.setPc id (.timed q st millis))
  | subtract (id q st : ℕ) (millis : BitVec 32) (hpc : s.pc id = .timed q st millis) :
      StepCase n s (.fiber id .subtract)
        ({ s with completedFibers := s.completedFibers - 1 }.setPc id (.done q st millis))
  | exit (hdone : (s.pc 1).isDone = true) (hzero : s.completedFibers = 0) :
      StepCase n s (.fiber 1 .exit) (s.finish .success)

theorem pass_cases {n : ℕ} {s s' : State} {id q st b : ℕ} {a : Msg ℚ × Draws ℚ}
    (hpc : s.pc id = .looping q st) (h : s.pass id q st a b = some s') :
    StepCase n s (.fiber id (.pass a b)) s' := by
  obtain ⟨m, d⟩ := a
  unfold State.pass at h
  cases hload : s.mem.load q st false with
  | none =>
    rw [hload] at h
    cases h
    exact .passPointer id q st b (m, d) hpc hload
  | some w =>
    simp only [hload] at h
    split at h
    · next hguard =>
      obtain ⟨hheap, hfirst, hsecond, hfree⟩ := hguard
      cases hpass : MainLoop.iterate id w d with
      | error f =>
        rw [hpass] at h
        cases h
        exact .passFault id q st b (m, d) w f hpc hload hheap ⟨hfirst, hsecond⟩ hpass
      | ok r =>
        obtain ⟨m', w'⟩ := r
        simp only [hpass] at h
        split at h
        · next hm =>
          obtain rfl : m' = m := hm
          cases h
          have hdone : w.done = false := by
            simp only [Memory.load, bind, Option.bind_eq_some_iff, pure, Option.some.injEq] at hload
            obtain ⟨_, -, _, -, rfl⟩ := hload
            rfl
          exact .pass id q st b m' d w w' hpc hload ⟨hdone, hheap, hfirst, hsecond, hpass⟩ hfree
        · cases h
    · cases h

theorem start_cases {n : ℕ} {s s' : State} {id q st : ℕ} {memory : Msg ℚ}
    (hpc : s.pc id = .stored q st) (h : s.fiberStep id (.start memory) = some s') :
    StepCase n s (.fiber id (.start memory)) s' := by
  simp only [State.fiberStep, hpc] at h
  cases hmem : (s.mem.fls q).bind s.mem.queue with
  | none =>
    rw [hmem] at h
    cases h
    exact .startPointer id q st memory hpc hmem
  | some mem =>
    simp only [hmem] at h
    cases hstart : MainLoop.start id mem memory with
    | error f =>
      rw [hstart] at h
      cases h
      exact .startFault id q st memory mem f hpc hstart
    | ok w =>
      rw [hstart] at h
      cases h
      exact .start id q st memory mem w hpc hmem hstart

theorem fiber_cases {n : ℕ} {s s' : State} {id : ℕ} {a : FiberAct}
    (h : s.fiberStep id a = some s') : StepCase n s (.fiber id a) s' := by
  cases a with
  | alloc =>
    unfold State.fiberStep at h
    split at h <;> try contradiction
    · next hpc ha =>
      cases ha
      cases h
      exact .allocQueue id hpc
    · next q hpc ha =>
      cases ha
      simp only [State.flsAlloc] at h
      cases q with
      | none =>
        cases h
        exact .noStorage id none hpc (.inl rfl)
      | some q =>
        cases hst : slotAt s.flsIdx with
        | none =>
          rw [hst] at h
          cases h
          exact .noStorage id (some q) hpc (.inr hst)
        | some st =>
          rw [hst] at h
          cases h
          exact .allocState id q st hpc hst
  | store addr mem =>
    unfold State.fiberStep at h
    split at h <;> try contradiction
    next q st addr' mem' hpc ha =>
    cases ha
    split at h
    · next hfree =>
      cases h
      exact .store id q st addr mem hpc hfree
    · cases h
  | start memory =>
    cases hpc : s.pc id with
    | stored q st => exact start_cases hpc h
    | _ => simp [State.fiberStep, hpc] at h
  | pass a b =>
    cases hpc : s.pc id with
    | looping q st =>
      simp only [State.fiberStep, hpc] at h
      exact pass_cases hpc h
    | _ => simp [State.fiberStep, hpc] at h
  | time millis =>
    cases hpc : s.pc id with
    | left q st =>
      simp only [State.fiberStep, hpc] at h
      cases h
      exact .time id q st millis hpc
    | _ => simp [State.fiberStep, hpc] at h
  | subtract =>
    cases hpc : s.pc id with
    | timed q st millis =>
      simp only [State.fiberStep, hpc] at h
      cases h
      exact .subtract id q st millis hpc
    | _ => simp [State.fiberStep, hpc] at h
  | exit =>
    cases hpc : s.pc id with
    | done q st millis =>
      simp only [State.fiberStep, hpc] at h
      split at h
      · next hguard =>
        cases h
        obtain ⟨rfl, hzero⟩ := hguard
        exact .exit (by rw [hpc]; rfl) hzero
      · cases h
    | _ => simp [State.fiberStep, hpc] at h

theorem step_cases {n : ℕ} {s s' : State} {a : Act} (h : Step n s a s') :
    s.ended = none ∧ StepCase n s a s' := by
  unfold Step State.step at h
  split at h
  · cases h
  next hended =>
  refine ⟨not_not.mp hended, ?_⟩
  cases a with
  | main =>
    change s.mainStep n = some s' at h
    unfold State.mainStep at h
    split at h
    · next hmain =>
      cases h
      exact .announce hmain
    · next k hmain =>
      split at h
      · next hk =>
        cases h
        exact .create k hmain hk
      · next hk =>
        cases h
        exact .arm k hmain (not_lt.mp hk)
    · next hmain =>
      cases h
      exact .run hmain
    · cases h
  | switch caller f entered =>
    change (if _ then _ else _) = _ at h
    split at h
    · next hguard =>
      cases h
      exact .switch caller f entered hguard.1 hguard.2
    · cases h
  | fiber id a => exact fiber_cases h

/-- A call of `SwitchToFiber` changes nothing, or a fiber begins. -/
theorem switchTo_cases (s : State) (f : ℕ) (entered : Bool) :
    s.switchTo f entered = s ∨
      ∃ id, s.pc id = .created ∧ s.switchTo f entered = s.setPc id .begun := by
  unfold State.switchTo
  split
  · exact .inl rfl
  · next id hid =>
    split
    · next hguard => exact .inr ⟨id, hguard.2, rfl⟩
    · exact .inl rfl

/-! ## The invariant -/

/-- The slots that a fiber has asked for. -/
def Pc.allocs : Pc → ℕ
  | .created | .main | .begun => 0
  | .oneIndex _ => 1
  | _ => 2

/-- The fiber still counts as one of `completed_fibers`. -/
def Pc.counts (p : Pc) : ℕ := if p.isDone then 0 else 1

/-- What the fiber has added to `exec_millis`. -/
def Pc.millis : Pc → ℕ
  | .timed _ _ millis | .done _ _ millis => millis.toNat
  | _ => 0

/-- A sum over the fibers of the program. -/
def total (n : ℕ) (g : Pc → ℕ) (pc : ℕ → Pc) : ℕ := ∑ i ∈ Finset.range n, g (pc (i + 1))

theorem total_update {n id : ℕ} (g : Pc → ℕ) (pc : ℕ → Pc) (p : Pc) (hid : 1 ≤ id ∧ id ≤ n) :
    total n g (Function.update pc id p) + g (pc id) = total n g pc + g p := by
  obtain ⟨i, rfl⟩ := Nat.exists_eq_add_of_le' hid.1
  have hmem : i ∈ Finset.range n := Finset.mem_range.mpr hid.2
  have hfun : (fun j => g (Function.update pc (i + 1) p (j + 1))) =
      Function.update (fun j => g (pc (j + 1))) i (g p) := by
    funext j
    by_cases hj : j = i
    · rw [hj, Function.update_self, Function.update_self]
    · rw [Function.update_of_ne hj, Function.update_of_ne (by omega)]
  have hold := Finset.add_sum_erase (Finset.range n) (fun j => g (pc (j + 1))) hmem
  rw [total, hfun, Finset.sum_update_of_mem hmem, total, ← hold, Finset.sdiff_singleton_eq_erase]
  omega

theorem total_congr {n id : ℕ} {g : Pc → ℕ} {pc : ℕ → Pc} {p : Pc} (h : g p = g (pc id)) :
    total n g (Function.update pc id p) = total n g pc := by
  refine Finset.sum_congr rfl fun i _ => ?_
  by_cases hi : i + 1 = id
  · rw [hi, Function.update_self, h]
  · rw [Function.update_of_ne hi]

theorem total_le {n c : ℕ} {g : Pc → ℕ} {pc : ℕ → Pc} (h : ∀ p, g p ≤ c) :
    total n g pc ≤ n * c := by
  have hle := Finset.sum_le_card_nsmul (Finset.range n) (fun i => g (pc (i + 1))) c
    (fun i _ => h _)
  simpa [total] using hle

/-- The entries of the array that have been written. -/
def MainPc.made (n : ℕ) : MainPc → ℕ
  | .start => 0
  | .creating k => k
  | .armed | .running => n

structure Inv (n : ℕ) (s : State) : Prop where
  made_le : s.main.made n ≤ n
  fibers : ∀ f, s.fibers f = if f < s.main.made n then some (f + 1) else none
  idle : s.main.ready = false → s.pc = initial.pc
  ready : s.initComplete = true → s.main.ready = true
  first : s.main ≠ .running → s.pc 1 = .main
  entered : s.pc 1 ≠ .created
  inside : ∀ id, s.pc id ≠ .created → s.pc id ≠ .main → 1 ≤ id ∧ id ≤ n
  memory : Private s.mem s.pc
  slots : ∀ id, ∀ k ∈ (s.pc id).slots, k < s.flsIdx ∧ k < maxFls
  full : ∀ id, s.pc id = .oneIndex none → maxFls < s.flsIdx
  allocs : s.ended = none → s.flsIdx = total n Pc.allocs s.pc
  completed : s.main ≠ .start → s.completedFibers = BitVec.ofNat 32 (total n Pc.counts s.pc)
  millis : s.execMillis = BitVec.ofNat 64 (total n Pc.millis s.pc)
  noPointer : s.ended ≠ some .pointer
  storage : s.ended = some .noStorage → 2048 < n
  success : s.ended = some .success → ∀ id, 1 ≤ id → id ≤ n → (s.pc id).isDone = true

section Steps

variable {n : ℕ} {s s' : State} {id : ℕ} {p : Pc}

namespace Inv

theorem initial (n : ℕ) : Inv n initial where
  made_le := Nat.zero_le n
  fibers _ := rfl
  idle _ := rfl
  ready h := by cases h
  first _ := rfl
  entered := by decide
  inside id hc hm := by
    by_cases hid : id = 1
    · exact absurd (if_pos hid) hm
    · exact absurd (if_neg hid) hc
  memory := by
    have hslots : ∀ id, (Program.initial.pc id).slots = [] ∧
        (Program.initial.pc id).queueSlot = none ∧ (Program.initial.pc id).stateSlot = none := by
      intro id
      by_cases hid : id = 1 <;> simp [Program.initial, hid, Pc.slots, Pc.queueSlot, Pc.stateSlot]
    refine ⟨fun i j l hl _ => ?_, fun id => ?_⟩
    · cases l <;> simp [Memory.Owns, hslots] at hl
    · exact ⟨by simp [hslots], by simp [hslots], by simp [hslots]⟩
  slots id k hk := by
    by_cases hid : id = 1 <;> simp [Program.initial, hid, Pc.slots] at hk
  full id h := by
    by_cases hid : id = 1 <;> simp [Program.initial, hid] at h
  allocs _ := by
    refine (Finset.sum_eq_zero fun i _ => ?_).symm
    by_cases hi : i = 0 <;> simp [Program.initial, hi, Pc.allocs]
  completed h := absurd rfl h
  millis := by
    have hzero : total n Pc.millis Program.initial.pc = 0 := by
      refine Finset.sum_eq_zero fun i _ => ?_
      by_cases hi : i = 0 <;> simp [Program.initial, hi, Pc.millis]
    rw [hzero]
    rfl
  noPointer := nofun
  storage := nofun
  success := nofun

/-- A fiber that has begun. -/
theorem begun (h : Inv n s) (hc : s.pc id ≠ .created) (hm : s.pc id ≠ .main) :
    s.main.ready = true ∧ 1 ≤ id ∧ id ≤ n ∧ (id = 1 → s.main = .running) := by
  refine ⟨?_, (h.inside id hc hm).1, (h.inside id hc hm).2, ?_⟩
  · by_contra hready
    rw [h.idle (Bool.eq_false_of_not_eq_true hready)] at hc hm
    by_cases hid : id = 1
    · exact hm (if_pos hid)
    · exact hc (if_neg hid)
  · rintro rfl
    by_contra hrun
    exact hm (h.first hrun)

theorem begun_of_isDone (h : Inv n s) (hdone : (s.pc id).isDone = true) :
    s.main.ready = true ∧ 1 ≤ id ∧ id ≤ n ∧ (id = 1 → s.main = .running) := by
  apply h.begun <;>
  · intro he
    rw [he] at hdone
    cases hdone

/-- A step of a fiber inside `main_loop`. -/
theorem move (h : Inv n s) {m : Memory} {k : ℕ} {c : BitVec 32} {x : BitVec 64}
    (hc : s.pc id ≠ .created) (hm : s.pc id ≠ .main) (hended : s.ended = none)
    (hp : p ≠ .created) (hmem : Advances s.mem m s.pc id p)
    (hk : s.flsIdx ≤ k) (hslots : ∀ j ∈ p.slots, j < k ∧ j < maxFls)
    (hfull : p = .oneIndex none → maxFls < k)
    (hallocs : k + (s.pc id).allocs = s.flsIdx + p.allocs)
    (hcompleted : c + BitVec.ofNat 32 (s.pc id).counts =
      s.completedFibers + BitVec.ofNat 32 p.counts)
    (hmillis : x + BitVec.ofNat 64 (s.pc id).millis = s.execMillis + BitVec.ofNat 64 p.millis) :
    Inv n ({ s with mem := m, flsIdx := k, completedFibers := c, execMillis := x }.setPc id p) := by
  obtain ⟨hready, hid⟩ := h.begun hc hm
  have hrange : 1 ≤ id ∧ id ≤ n := ⟨hid.1, hid.2.1⟩
  have hstart : s.main ≠ .start := by
    intro hs
    rw [hs] at hready
    cases hready
  have hself : Function.update s.pc id p id = p := Function.update_self _ _ _
  have hother : ∀ j, j ≠ id → Function.update s.pc id p j = s.pc j := fun j hj =>
    Function.update_of_ne hj _ _
  refine ⟨h.made_le, h.fibers, fun hnot => ?_, h.ready, fun hrun => ?_, ?_, fun j hjc hjm => ?_,
    h.memory.step hmem, fun j i hi => ?_, fun j hj => ?_, fun _ => ?_, fun _ => ?_, ?_, ?_, ?_,
    ?_⟩
  · cases hready.symm.trans hnot
  · by_cases h1 : 1 = id
    · exact absurd (hid.2.2 h1.symm) hrun
    · exact (hother 1 h1).trans (h.first hrun)
  · show Function.update s.pc id p 1 ≠ _
    by_cases h1 : 1 = id
    · rwa [h1, hself]
    · rw [hother 1 h1]
      exact h.entered
  · by_cases hj : j = id
    · exact hj ▸ hrange
    · exact h.inside j (fun he => hjc ((hother j hj).trans he))
        (fun he => hjm ((hother j hj).trans he))
  · by_cases hj : j = id
    · subst hj
      exact hslots i (hself ▸ hi)
    · obtain ⟨hlt, hmax⟩ := h.slots j i (hother j hj ▸ hi)
      exact ⟨hlt.trans_le hk, hmax⟩
  · by_cases hjid : j = id
    · subst hjid
      exact hfull (hself.symm.trans hj)
    · exact (h.full j ((hother j hjid).symm.trans hj)).trans_le hk
  · have hsum := total_update Pc.allocs s.pc p hrange
    have hold := h.allocs hended
    show k = total n Pc.allocs (Function.update s.pc id p)
    omega
  · have hsum := congrArg (BitVec.ofNat 32) (total_update Pc.counts s.pc p hrange)
    rw [BitVec.ofNat_add, BitVec.ofNat_add, ← h.completed hstart, ← hcompleted] at hsum
    exact ((BitVec.add_left_inj _).mp hsum).symm
  · have hsum := congrArg (BitVec.ofNat 64) (total_update Pc.millis s.pc p hrange)
    rw [BitVec.ofNat_add, BitVec.ofNat_add, ← h.millis, ← hmillis] at hsum
    exact ((BitVec.add_left_inj _).mp hsum).symm
  · exact h.noPointer
  · exact h.storage
  · intro hsuccess
    cases hended.symm.trans hsuccess

/-- A fiber goes on behind a change of its local variables only. -/
theorem keep (h : Inv n s) (hc : s.pc id ≠ .created) (hm : s.pc id ≠ .main)
    (hended : s.ended = none) {c : BitVec 32} {x : BitVec 64} (hp : p ≠ .created)
    (hslots : p.slots = (s.pc id).slots) (hqueue : p.queueSlot = (s.pc id).queueSlot)
    (hstate : p.stateSlot = (s.pc id).stateSlot) (hfull : p ≠ .oneIndex none)
    (hallocs : p.allocs = (s.pc id).allocs)
    (hcompleted : c + BitVec.ofNat 32 (s.pc id).counts =
      s.completedFibers + BitVec.ofNat 32 p.counts)
    (hmillis : x + BitVec.ofNat 64 (s.pc id).millis = s.execMillis + BitVec.ofNat 64 p.millis) :
    Inv n ({ s with completedFibers := c, execMillis := x }.setPc id p) := by
  apply h.move hc hm hended hp (h.memory.keep hslots hqueue hstate) le_rfl _ _ _ hcompleted hmillis
  · intro j hj
    exact h.slots id j (hslots ▸ hj)
  · exact fun he => absurd he hfull
  · rw [hallocs]

/-- The memory changes, with the counters as they are. -/
theorem remember (h : Inv n s) (hc : s.pc id ≠ .created) (hm : s.pc id ≠ .main)
    (hended : s.ended = none) {m : Memory} (hp : p ≠ .created)
    (hmem : Advances s.mem m s.pc id p) (hslots : p.slots = (s.pc id).slots)
    (hfull : p ≠ .oneIndex none) (hallocs : p.allocs = (s.pc id).allocs)
    (hcounts : p.counts = (s.pc id).counts) (hmillis : p.millis = (s.pc id).millis) :
    Inv n ({ s with mem := m }.setPc id p) := by
  apply h.move hc hm hended hp hmem le_rfl
  · intro j hj
    exact h.slots id j (hslots ▸ hj)
  · exact fun he => absurd he hfull
  · rw [hallocs]
  · rw [hcounts]
  · rw [hmillis]

/-- The program ends, maybe after a call of `fls_alloc`. -/
theorem finish (h : Inv n s) {k : ℕ} {e : End} (hk : s.flsIdx ≤ k) (hpointer : e ≠ .pointer)
    (hstorage : e = .noStorage → 2048 < n)
    (hsuccess : e = .success → ∀ id, 1 ≤ id → id ≤ n → (s.pc id).isDone = true) :
    Inv n ({ s with flsIdx := k }.finish e) := by
  refine ⟨h.made_le, h.fibers, h.idle, h.ready, h.first, h.entered, h.inside, h.memory,
    fun j i hi => ?_, fun j hj => ?_, nofun, h.completed, h.millis, ?_, ?_, ?_⟩
  · obtain ⟨hlt, hmax⟩ := h.slots j i hi
    exact ⟨hlt.trans_le hk, hmax⟩
  · exact (h.full j hj).trans_le hk
  · exact fun he => hpointer (Option.some.inj he)
  · exact fun he => hstorage (Option.some.inj he)
  · exact fun he => hsuccess (Option.some.inj he)

theorem begin (h : Inv n s) (hready : s.main.ready = true) (hid : 1 ≤ id ∧ id ≤ n)
    (hpc : s.pc id = .created) : Inv n (s.setPc id .begun) := by
  have hne : id ≠ 1 := fun he => h.entered (he ▸ hpc)
  have hother : ∀ j, j ≠ id → Function.update s.pc id .begun j = s.pc j := fun j hj =>
    Function.update_of_ne hj _ _
  have hself : Function.update s.pc id .begun id = .begun := Function.update_self _ _ _
  have hsum : ∀ g : Pc → ℕ, g .begun = g .created →
      total n g (Function.update s.pc id .begun) = total n g s.pc := by
    intro g hg
    apply total_congr
    rw [hg, hpc]
  refine ⟨h.made_le, h.fibers, fun hnot => ?_, h.ready, fun hrun => ?_, ?_, fun j hjc hjm => ?_,
    ?_, fun j i hi => ?_, fun j hj => ?_, fun he => ?_, fun hs => ?_, ?_, h.noPointer, h.storage,
    fun he j h1 hn => ?_⟩
  · cases hready.symm.trans hnot
  · exact (hother 1 hne.symm).trans (h.first hrun)
  · show Function.update s.pc id .begun 1 ≠ _
    rw [hother 1 hne.symm]
    exact h.entered
  · by_cases hj : j = id
    · exact hj ▸ hid
    · exact h.inside j (fun he => hjc ((hother j hj).trans he))
        (fun he => hjm ((hother j hj).trans he))
  · apply h.memory.step
    apply h.memory.keep <;> rw [hpc] <;> rfl
  · by_cases hj : j = id
    · rw [hj] at hi
      rw [show (s.setPc id .begun).pc id = .begun from hself] at hi
      cases hi
    · exact h.slots j i (hother j hj ▸ hi)
  · by_cases hjid : j = id
    · subst hjid
      cases hself.symm.trans hj
    · exact h.full j ((hother j hjid).symm.trans hj)
  · exact (h.allocs he).trans (hsum _ rfl).symm
  · exact (h.completed hs).trans (congrArg _ (hsum _ rfl).symm)
  · exact h.millis.trans (congrArg _ (hsum _ rfl).symm)
  · have hdone := h.success he id hid.1 hid.2
    rw [hpc] at hdone
    cases hdone

theorem ready_of_maySwitch (h : Inv n s) {caller : Caller} (hmay : s.maySwitch caller = true) :
    s.main.ready = true := by
  cases caller with
  | thread => exact h.ready hmay
  | fiber j =>
    obtain ⟨-, hdone⟩ := of_decide_eq_true hmay
    exact (h.begun_of_isDone hdone).1
  | handler => exact hmay

/-- The array is complete before anybody reads it. -/
theorem fibers_of_maySwitch (h : Inv n s) {caller : Caller} (hmay : s.maySwitch caller = true)
    {f : ℕ} (hf : f < n) : s.fibers f = some (f + 1) := by
  have hready := h.ready_of_maySwitch hmay
  have hmade : s.main.made n = n := by
    cases hmain : s.main <;> rw [hmain] at hready
    · cases hready
    · cases hready
    · rfl
    · rfl
  rw [h.fibers, if_pos (hmade.symm ▸ hf)]

theorem switchTo (h : Inv n s) {caller : Caller} (hmay : s.maySwitch caller = true) {f : ℕ}
    (hf : f < n) (entered : Bool) : Inv n (s.switchTo f entered) := by
  simp only [State.switchTo, h.fibers_of_maySwitch hmay hf]
  split
  · next hguard =>
    exact h.begin (h.ready_of_maySwitch hmay) ⟨Nat.le_add_left 1 f, hf⟩ hguard.2
  · exact h

theorem announce (h : Inv n s) (hmain : s.main = .start) :
    Inv n { s with completedFibers := BitVec.ofNat 32 n, main := .creating 0 } := by
  have hpc : s.pc = Program.initial.pc := h.idle (by rw [hmain]; rfl)
  have hfibers := h.fibers
  rw [hmain] at hfibers
  have hcounts : total n Pc.counts s.pc = n := by
    have hone : ∀ i ∈ Finset.range n, (s.pc (i + 1)).counts = 1 := by
      intro i _
      rw [hpc]
      by_cases hi : i = 0 <;> simp [Program.initial, hi, Pc.counts, Pc.isDone]
    rw [total, Finset.sum_congr rfl hone]
    simp
  refine ⟨Nat.zero_le n, hfibers, fun _ => hpc, fun hc => ?_, fun _ => ?_, h.entered, h.inside,
    h.memory, h.slots, h.full, h.allocs, fun _ => ?_, h.millis, h.noPointer, h.storage, h.success⟩
  · have hready := h.ready hc
    rw [hmain] at hready
    cases hready
  · exact h.first (by rw [hmain]; nofun)
  · show BitVec.ofNat 32 n = _
    rw [hcounts]

theorem create (h : Inv n s) {k : ℕ} (hmain : s.main = .creating k) (hk : k < n) :
    Inv n { s with
      fibers := Function.update s.fibers k (some (k + 1))
      main := .creating (k + 1) } := by
  have hfibers := h.fibers
  rw [hmain] at hfibers
  refine ⟨hk, fun f => ?_, fun _ => ?_, fun hc => ?_, fun _ => ?_, h.entered, h.inside, h.memory,
    h.slots, h.full, h.allocs, fun _ => ?_, h.millis, h.noPointer, h.storage, h.success⟩
  · show Function.update s.fibers k (some (k + 1)) f = if f < k + 1 then some (f + 1) else none
    by_cases hf : f = k
    · rw [hf, Function.update_self, if_pos k.lt_succ_self]
    · rw [Function.update_of_ne hf, hfibers]
      exact if_congr (by simp only [MainPc.made]; omega) rfl rfl
  · exact h.idle (by rw [hmain]; rfl)
  · have hready := h.ready hc
    rw [hmain] at hready
    cases hready
  · exact h.first (by rw [hmain]; nofun)
  · exact h.completed (by rw [hmain]; nofun)

theorem arm (h : Inv n s) {k : ℕ} (hmain : s.main = .creating k) (hk : n ≤ k) :
    Inv n { s with main := .armed } := by
  have hmade : s.main.made n = n := le_antisymm h.made_le (by rw [hmain]; exact hk)
  refine ⟨le_rfl, fun f => ?_, nofun, fun _ => rfl, fun _ => ?_, h.entered, h.inside, h.memory,
    h.slots, h.full, h.allocs, fun _ => ?_, h.millis, h.noPointer, h.storage, h.success⟩
  · rw [h.fibers, hmade]
    rfl
  · exact h.first (by rw [hmain]; nofun)
  · exact h.completed (by rw [hmain]; nofun)

/-- The main thread calls `main_loop`. -/
theorem run (h : Inv n s) (hn : 0 < n) (hmain : s.main = .armed) :
    Inv n ({ s with initComplete := true, main := .running }.setPc 1 .begun) := by
  have hpc : s.pc 1 = .main := h.first (by rw [hmain]; nofun)
  have hself : Function.update s.pc 1 .begun 1 = .begun := Function.update_self _ _ _
  have hother : ∀ j, j ≠ 1 → Function.update s.pc 1 .begun j = s.pc j := fun j hj =>
    Function.update_of_ne hj _ _
  have hsum : ∀ g : Pc → ℕ, g .begun = g .main →
      total n g (Function.update s.pc 1 .begun) = total n g s.pc := by
    intro g hg
    apply total_congr
    rw [hg, hpc]
  refine ⟨le_rfl, fun f => ?_, nofun, fun _ => rfl, fun hrun => absurd rfl hrun, ?_,
    fun j hjc hjm => ?_, ?_, fun j i hi => ?_, fun j hj => ?_, fun he => ?_, fun _ => ?_, ?_,
    h.noPointer, h.storage, fun he j h1 hn => ?_⟩
  · show s.fibers f = _
    rw [h.fibers, hmain]
    rfl
  · show Function.update s.pc 1 .begun 1 ≠ _
    rw [hself]
    nofun
  · by_cases hj : j = 1
    · rw [hj]
      exact ⟨le_rfl, hn⟩
    · exact h.inside j (fun he => hjc ((hother j hj).trans he))
        (fun he => hjm ((hother j hj).trans he))
  · apply h.memory.step
    apply h.memory.keep <;> rw [hpc] <;> rfl
  · by_cases hj : j = 1
    · rw [hj] at hi
      change i ∈ (Function.update s.pc 1 .begun 1).slots at hi
      rw [hself] at hi
      cases hi
    · exact h.slots j i (hother j hj ▸ hi)
  · by_cases hjid : j = 1
    · subst hjid
      cases hself.symm.trans hj
    · exact h.full j ((hother j hjid).symm.trans hj)
  · exact (h.allocs he).trans (hsum _ rfl).symm
  · exact (h.completed (by rw [hmain]; nofun)).trans (congrArg _ (hsum _ rfl).symm)
  · exact h.millis.trans (congrArg _ (hsum _ rfl).symm)
  · have hdone := h.success he 1 le_rfl (h1.trans hn)
    rw [hpc] at hdone
    cases hdone

/-- A slot that is given away is new. -/
theorem spare_slot (h : Inv n s) : Spare s.mem s.pc id (.slot s.flsIdx) := fun j _ hj =>
  absurd (h.slots j s.flsIdx hj).1 (lt_irrefl _)

theorem slotAt_eq {k st : ℕ} (h : slotAt k = some st) : st = k ∧ k < maxFls := by
  unfold slotAt at h
  split at h
  · next hk => exact ⟨(Option.some.inj h).symm, hk⟩
  · cases h

theorem allocQueue (h : Inv n s) (hended : s.ended = none) (hpc : s.pc id = .begun) :
    Inv n ({ s with flsIdx := s.flsIdx + 1 }.setPc id (.oneIndex (slotAt s.flsIdx))) := by
  refine h.move (by rw [hpc]; nofun) (by rw [hpc]; nofun) hended nofun ?_ (Nat.le_succ _) ?_ ?_ ?_
    ?_ ?_
  · cases hst : slotAt s.flsIdx with
    | none => apply h.memory.keep <;> rw [hpc] <;> rfl
    | some q =>
      obtain ⟨rfl, -⟩ := slotAt_eq hst
      refine ⟨fun l hl => absurd s.mem.sameAt hl, fun l hl => ?_, by simp [Pc.slots], nofun, nofun⟩
      cases l with
      | slot k =>
        obtain rfl : k = s.flsIdx := by simpa [Memory.Owns, Pc.slots] using hl
        exact h.spare_slot
      | queue a =>
        obtain ⟨_, hq, -⟩ := hl
        cases hq
      | cell a =>
        obtain ⟨_, hq, -⟩ := hl
        cases hq
  · intro j hj
    cases hst : slotAt s.flsIdx with
    | none =>
      rw [hst] at hj
      cases hj
    | some q =>
      obtain ⟨rfl, hlt⟩ := slotAt_eq hst
      rw [hst] at hj
      obtain rfl := List.mem_singleton.mp hj
      exact ⟨Nat.lt_succ_self _, hlt⟩
  · intro he
    have hnone : slotAt s.flsIdx = none := Pc.oneIndex.inj he
    unfold slotAt at hnone
    split at hnone
    · cases hnone
    · next hge => exact Nat.lt_succ_of_le (not_lt.mp hge)
  · rw [hpc]
    rfl
  · rw [hpc]
    rfl
  · rw [hpc]
    rfl

theorem allocState (h : Inv n s) (hended : s.ended = none) {q st : ℕ}
    (hpc : s.pc id = .oneIndex (some q)) (hst : slotAt s.flsIdx = some st) :
    Inv n ({ s with flsIdx := s.flsIdx + 1 }.setPc id (.indices q st)) := by
  obtain ⟨rfl, hlt⟩ := slotAt_eq hst
  have hslot : q ∈ (s.pc id).slots := by
    rw [hpc]
    exact List.mem_singleton_self q
  have hq := h.slots id q hslot
  refine h.move (by rw [hpc]; nofun) (by rw [hpc]; nofun) hended nofun ?_ (Nat.le_succ _) ?_ nofun
    ?_ ?_ ?_
  · refine ⟨fun l hl => absurd s.mem.sameAt hl, fun l hl => ?_,
      by simpa [Pc.slots] using hq.1.ne, nofun, nofun⟩
    cases l with
    | slot k =>
      obtain rfl | rfl : k = q ∨ k = s.flsIdx := by simpa [Memory.Owns, Pc.slots] using hl
      · exact h.memory.spare hslot
      · exact h.spare_slot
    | queue a =>
      obtain ⟨_, hq, -⟩ := hl
      cases hq
    | cell a =>
      obtain ⟨_, hq, -⟩ := hl
      cases hq
  · intro j hj
    obtain rfl | rfl : j = q ∨ j = s.flsIdx := by simpa [Pc.slots] using hj
    · exact ⟨hq.1.trans (Nat.lt_succ_self _), hq.2⟩
    · exact ⟨Nat.lt_succ_self _, hlt⟩
  · rw [hpc]
    rfl
  · rw [hpc]
    rfl
  · rw [hpc]
    rfl

/-- A fiber that finds no slot is one of more than 2048. -/
theorem noStorage (h : Inv n s) (hended : s.ended = none) {q : Option ℕ}
    (hpc : s.pc id = .oneIndex q) (hfull : q = none ∨ slotAt s.flsIdx = none) : 2048 < n := by
  have hcreated : s.pc id ≠ .created := by rw [hpc]; nofun
  have hrange := (h.begun hcreated (by rw [hpc]; nofun)).2
  have hmax : maxFls ≤ s.flsIdx := by
    rcases hfull with rfl | hfull
    · exact (h.full id hpc).le
    · unfold slotAt at hfull
      split at hfull
      · cases hfull
      · next hge => exact not_lt.mp hge
  -- this fiber has asked for one slot so far, and the others for two each at most
  have hupdate := total_update Pc.allocs s.pc (.indices 0 0) ⟨hrange.1, hrange.2.1⟩
  have hone : (s.pc id).allocs = 1 := by rw [hpc]; rfl
  have htwo : (Pc.indices 0 0).allocs = 2 := rfl
  have hle : total n Pc.allocs (Function.update s.pc id (.indices 0 0)) ≤ n * 2 :=
    total_le fun p => by cases p <;> simp [Pc.allocs]
  have hsum := h.allocs hended
  unfold maxFls at hmax
  omega

/-- The first fiber ends the program only when no fiber is left. -/
theorem all_done (h : Inv n s) (hn : n < 2 ^ 32) (hdone : (s.pc 1).isDone = true)
    (hzero : s.completedFibers = 0) {j : ℕ} (h1 : 1 ≤ j) (hj : j ≤ n) :
    (s.pc j).isDone = true := by
  have hready := (h.begun_of_isDone hdone).1
  have hstart : s.main ≠ .start := by
    intro hs
    rw [hs] at hready
    cases hready
  have hle : total n Pc.counts s.pc ≤ n * 1 := total_le fun p => by
    unfold Pc.counts
    split <;> simp
  have hsum : total n Pc.counts s.pc = 0 := by
    have hval := congrArg BitVec.toNat ((h.completed hstart).symm.trans hzero)
    rw [BitVec.toNat_ofNat, Nat.mod_eq_of_lt (by omega)] at hval
    exact hval
  obtain ⟨i, rfl⟩ := Nat.exists_eq_add_of_le' h1
  have hi := Finset.sum_eq_zero_iff.mp hsum i (Finset.mem_range.mpr hj)
  by_contra hnot
  rw [Pc.counts, if_neg hnot] at hi
  cases hi

end Inv

theorem StepCase.inv {a : Act} (hs : StepCase n s a s') (hn : 0 < n) (hn' : n < 2 ^ 32)
    (h : Inv n s) (hended : s.ended = none) : Inv n s' := by
  cases hs with
  | announce hmain => exact h.announce hmain
  | create k hmain hk => exact h.create hmain hk
  | arm k hmain hk => exact h.arm hmain hk
  | run hmain => exact h.run hn hmain
  | switch caller f entered hf hmay => exact h.switchTo hmay hf entered
  | allocQueue id hpc => exact h.allocQueue hended hpc
  | allocState id q st hpc hst => exact h.allocState hended hpc hst
  | noStorage id q hpc hfull =>
    exact h.finish (Nat.le_succ _) nofun (fun _ => h.noStorage hended hpc hfull) nofun
  | store id q st addr mem hpc hfree =>
    refine h.remember (by rw [hpc]; nofun) (by rw [hpc]; nofun) hended nofun
      (h.memory.store hpc hfree) ?_ nofun ?_ ?_ ?_ <;>
    · rw [hpc]
      rfl
  | start id q st memory mem w hpc hmem hstart =>
    obtain ⟨hstate, hheap, hdone⟩ := started hstart
    obtain ⟨a, ha, -⟩ := Option.bind_eq_some_iff.mp hmem
    refine h.remember (by rw [hpc]; nofun) (by rw [hpc]; nofun) hended nofun
      (h.memory.start hpc ha hstate hheap hdone).1 ?_ nofun ?_ ?_ ?_ <;>
    · rw [hpc]
      rfl
  | startFault id q st memory mem f hpc hstart => exact h.finish le_rfl nofun nofun nofun
  | startPointer id q st memory hpc hmem =>
    obtain ⟨a, ha, hsome⟩ := (h.memory.sound id).queue q (by rw [hpc]; rfl)
    rw [ha, Option.bind_some] at hmem
    rw [hmem] at hsome
    cases hsome
  | pass id q st b m d w w' hpc hload hstep hfree =>
    obtain ⟨hmem, -⟩ := h.memory.pass hpc hload hstep.2.2.2.2 hfree
    refine h.remember (by rw [hpc]; nofun) (by rw [hpc]; nofun) hended ?_ hmem ?_ ?_ ?_ ?_ ?_
    · cases w'.done <;> nofun
    · rw [hpc]
      cases w'.done <;> rfl
    · cases w'.done <;> nofun
    · rw [hpc]
      cases w'.done <;> rfl
    · rw [hpc]
      cases w'.done <;> rfl
    · rw [hpc]
      cases w'.done <;> rfl
  | passFault id q st b a w f hpc hload hheap hdraws hpass => exact h.finish le_rfl nofun nofun nofun
  | passPointer id q st b a hpc hload =>
    obtain ⟨w, hw⟩ := (h.memory.sound id).load false (by rw [hpc]; rfl) (by rw [hpc]; rfl)
    cases hload.symm.trans hw
  | time id q st millis hpc =>
    refine h.keep (by rw [hpc]; nofun) (by rw [hpc]; nofun) hended nofun ?_ ?_ ?_ nofun ?_ ?_ ?_ <;>
      rw [hpc]
    · rfl
    · rfl
    · rfl
    · rfl
    · rfl
    · show s.execMillis + millis.setWidth 64 + 0#64 = _
      rw [BitVec.add_zero, Pc.millis, BitVec.ofNat_toNat]
  | subtract id q st millis hpc =>
    refine h.keep (by rw [hpc]; nofun) (by rw [hpc]; nofun) hended nofun ?_ ?_ ?_ nofun ?_ ?_ ?_ <;>
      rw [hpc]
    · rfl
    · rfl
    · rfl
    · rfl
    · show s.completedFibers - 1 + 1 = s.completedFibers + 0#32
      rw [BitVec.sub_add_cancel, BitVec.add_zero]
    · rfl
  | exit hdone hzero =>
    exact h.finish le_rfl nofun nofun fun _ j h1 hj => h.all_done hn' hdone hzero h1 hj

theorem inv_of_run {h : History} (hn : 0 < n) (hn' : n < 2 ^ 32)
    (hr : Run (Step n) initial h s) : Inv n s :=
  hr.invariant (Inv.initial n) fun _ _ _ hi hs =>
    (step_cases hs).2.inv hn hn' hi (step_cases hs).1

end Steps

end Fibers.Testbed.Program
