import Fibers.GroupEffect
import Fibers.Lib.Handover

/-!
# The locks of a group follow the hand-over protocol

A group, together with where its threads are, is seen as a state of the hand-over
protocol: the agents are the threads, the resources the fibers, a tag is `info.state`
with 0 for nobody, and a thread stands on its `current_fid`. Every piece is then a step
of the protocol or leaves the view unchanged, and the protocol's invariant becomes an
invariant of the group.

`FrameOk` says what the local variables of a frame point to; it is what makes the next
piece executable and its step one of the protocol.
-/

namespace Fibers

/-! ## The view -/

/-- The lock of a fiber; a fiber that is not in the table is not locked. -/
def ThreadGroup.locked (tg : ThreadGroup) (fid : ℤ) : Bool :=
  (getFiber fid tg).elim false (fun f => f.flock)

/-- The `info.state` of a fiber, 0 if there is no such fiber. -/
def ThreadGroup.state (tg : ThreadGroup) (fid : ℤ) : ℤ :=
  (getFiber fid tg).elim 0 (fun f => f.info.state)

/-- The fiber a thread is on, if it has one. -/
def ThreadGroup.current (tg : ThreadGroup) (pid : ℤ) : Option ℤ :=
  (getThread pid tg).bind (fun t => if t.currentFid = noFibers then none else some t.currentFid)

/-- The fiber a thread is on, in the registry. -/
def Cfg.currentFid (s : Cfg) (t : Task) : Option ℤ :=
  (getGroup t.tgid s.groups).bind (fun tg => tg.current t.pid)

/-- What a frame means for the locks. -/
def Frame.phase : Frame → Handover.Phase ℤ
  | .check _ f => .taken f
  | .switchOld f => .taken f
  | .activateState _ f => .taken f
  | .activateRead _ f => .marked f
  | .activateWrite _ f _ => .marked f
  | .activateTime _ f => .marked f
  | .activateCurrent _ f => .marked f
  | .saveRegs old _ => .leaving old
  | .saveFpu old _ => .leaving old
  | .account old _ => .leaving old
  | .clearState old _ => .leaving old
  | .unlock old _ => .cleared old
  | _ => .resting

/-- The group as a state of the hand-over protocol. -/
def lockView (tg : ThreadGroup) (frame : ℤ → Frame) : Handover.State ℤ ℤ where
  locked := tg.locked
  tag := tg.state
  current := tg.current
  phase := fun pid => (frame pid).phase

theorem phase_update (frame : ℤ → Frame) (pid : ℤ) (fr : Frame) :
    (fun q => (Function.update frame pid fr q).phase) =
      Function.update (fun q => (frame q).phase) pid fr.phase := by
  funext q
  by_cases hq : q = pid
  · subst hq
    simp
  · simp [hq]

/-! ### What the writes do to the view -/

section View

variable {tg : ThreadGroup} {fid pid : ℤ}

variable {g : Fiber → Fiber} {hg : ∀ f, (g f).fid = f.fid}

theorem locked_of_getFiber {f : Fiber} (hf : getFiber fid tg = some f) :
    tg.locked fid = f.flock := by
  rw [ThreadGroup.locked, hf]
  rfl

theorem state_of_getFiber {f : Fiber} (hf : getFiber fid tg = some f) :
    tg.state fid = f.info.state := by
  rw [ThreadGroup.state, hf]
  rfl

theorem locked_onFiber_of_same (hl : ∀ f, (g f).flock = f.flock) :
    (tg.onFiber fid g hg).locked = tg.locked :=
  seen_onFiber_of_same (fun o => o.elim false Fiber.flock) hl

theorem state_onFiber_of_same (hs : ∀ f, (g f).info.state = f.info.state) :
    (tg.onFiber fid g hg).state = tg.state :=
  seen_onFiber_of_same (fun o => o.elim 0 fun f => f.info.state) hs

/-- A write that takes or releases the lock. -/
theorem locked_onFiber_of_const {b : Bool} (hl : ∀ f, (g f).flock = b)
    (hf : (getFiber fid tg).isSome) :
    (tg.onFiber fid g hg).locked = Function.update tg.locked fid b := by
  obtain ⟨f, hf⟩ := Option.isSome_iff_exists.mp hf
  rw [← hl f]
  exact seen_onFiber (fun o => o.elim false Fiber.flock) hf

/-- A write that sets the state. -/
theorem state_onFiber_of_const {z : ℤ} (hs : ∀ f, (g f).info.state = z)
    (hf : (getFiber fid tg).isSome) :
    (tg.onFiber fid g hg).state = Function.update tg.state fid z := by
  obtain ⟨f, hf⟩ := Option.isSome_iff_exists.mp hf
  rw [← hs f]
  exact seen_onFiber (fun o => o.elim 0 fun f => f.info.state) hf

/-- A write that touches neither lock nor state is not seen. -/
theorem view_onFiber_of_same (hl : ∀ f, (g f).flock = f.flock)
    (hs : ∀ f, (g f).info.state = f.info.state) :
    (tg.onFiber fid g hg).locked = tg.locked ∧ (tg.onFiber fid g hg).state = tg.state :=
  ⟨locked_onFiber_of_same hl, state_onFiber_of_same hs⟩

@[simp] theorem current_onFiber :
    (tg.onFiber fid g hg).current = tg.current := rfl

@[simp] theorem locked_onThread {g : Thread → Thread} {hg : ∀ t, (g t).pid = t.pid} :
    (tg.onThread pid g hg).locked = tg.locked := rfl

@[simp] theorem state_onThread {g : Thread → Thread} {hg : ∀ t, (g t).pid = t.pid} :
    (tg.onThread pid g hg).state = tg.state := rfl

theorem current_onThread_setCurrent (ht : (getThread pid tg).isSome) (hf : fid ≠ noFibers) :
    (tg.onThread pid (Thread.setCurrent fid)).current =
      Function.update tg.current pid (some fid) := by
  obtain ⟨t, ht⟩ := Option.isSome_iff_exists.mp ht
  funext q
  by_cases hq : q = pid
  · simp [ThreadGroup.current, hq, ht, Thread.setCurrent, hf]
  · simp [ThreadGroup.current, hq]

/-- A thread just inserted is on no fiber, like a thread without a record. -/
theorem current_addThread (hn : getThread pid tg = none) :
    (addThread tg pid).current = tg.current := by
  funext q
  by_cases hq : pid = q
  · subst hq
    simp [ThreadGroup.current, hn]
  · simp [ThreadGroup.current, hq]

/-- A fiber just inserted is unlocked with state 0, like a fiber without a record. -/
theorem view_addFiber (t : Thread) (cpu : Cpu) (hn : getFiber (nextFid tg) tg = none) :
    (addFiber tg t cpu).locked = tg.locked ∧ (addFiber tg t cpu).state = tg.state :=
  ⟨seen_addFiber (fun o => o.elim false Fiber.flock) hn rfl,
    seen_addFiber (fun o => o.elim 0 fun f => f.info.state) hn rfl⟩

end View

/-! ## What the local variables of a frame point to -/

/-- The thread is registered and its `current_fid` is `c`. -/
def ThreadGroup.CurrentIs (tg : ThreadGroup) (pid c : ℤ) : Prop :=
  ∃ t, getThread pid tg = some t ∧ t.currentFid = c

def ThreadGroup.HasFiber (tg : ThreadGroup) (fid : ℤ) : Prop := (getFiber fid tg).isSome

def ThreadGroup.HasThread (tg : ThreadGroup) (pid : ℤ) : Prop := (getThread pid tg).isSome

/-- The thread and the fibers that a frame has already looked up. -/
def FrameOk (tg : ThreadGroup) (pid : ℤ) : Frame → Prop
  | .user => True
  | .convertGroup => True
  | .convertThread => True
  | .convertFiber => tg.CurrentIs pid noFibers
  | .createLookup _ => True
  | .createFiber _ => tg.HasThread pid
  | .createStack f _ => tg.HasFiber f
  | .createContext f _ => tg.HasFiber f
  | .switchThread _ => True
  | .switchTarget _ => tg.HasThread pid
  | .trylock c f => tg.HasFiber f ∧ callerOk c
  | .check c f => tg.HasFiber f ∧ callerOk c
  | .fail c f => tg.HasFiber f ∧ callerOk c
  | .switchOld f => tg.HasFiber f ∧ tg.HasThread pid
  | .activateState old f => tg.HasFiber f ∧ activateOk old
  | .activateRead old f => tg.HasFiber f ∧ activateOk old
  | .activateWrite old f _ => tg.HasFiber f ∧ activateOk old
  | .activateTime old f => tg.HasFiber f ∧ activateOk old
  | .activateCurrent old f => tg.HasFiber f ∧ activateOk old
  | .saveRegs old f => tg.HasFiber old ∧ tg.HasFiber f ∧ tg.CurrentIs pid f
  | .saveFpu old f => tg.HasFiber old ∧ tg.HasFiber f ∧ tg.CurrentIs pid f
  | .account old f => tg.HasFiber old ∧ tg.HasFiber f ∧ tg.CurrentIs pid f
  | .clearState old f => tg.HasFiber old ∧ tg.HasFiber f ∧ tg.CurrentIs pid f
  | .unlock old f => tg.HasFiber old ∧ tg.HasFiber f ∧ tg.CurrentIs pid f
  | .loadRegs f => tg.HasFiber f ∧ tg.CurrentIs pid f
  | .loadFpu f => tg.HasFiber f ∧ tg.CurrentIs pid f
where
  /-- A convert has just inserted its thread; a switch has found it. -/
  callerOk : Caller → Prop
    | .convert => tg.CurrentIs pid noFibers
    | .switch => tg.HasThread pid
  /-- A convert comes from no fiber; a switch comes from the thread's current one. -/
  activateOk : Option ℤ → Prop
    | none => tg.CurrentIs pid noFibers
    | some o => tg.HasFiber o ∧ tg.CurrentIs pid o

section Frames

variable {tg tg' : ThreadGroup} {pid : ℤ}

theorem ThreadGroup.CurrentIs.hasThread {c : ℤ} (h : tg.CurrentIs pid c) : tg.HasThread pid := by
  obtain ⟨t, ht, _⟩ := h
  simp [ThreadGroup.HasThread, ht]

/-- Records are only added, so what a frame points to stays there. -/
theorem FrameOk.mono {fr : Frame} (h : FrameOk tg pid fr)
    (hf : ∀ fid, tg.HasFiber fid → tg'.HasFiber fid)
    (ht : getThread pid tg' = getThread pid tg) : FrameOk tg' pid fr := by
  have hc : ∀ c, tg.CurrentIs pid c → tg'.CurrentIs pid c := by
    rintro c ⟨t, hg, he⟩
    exact ⟨t, ht.trans hg, he⟩
  have hT : tg.HasThread pid → tg'.HasThread pid := by
    unfold ThreadGroup.HasThread
    rw [ht]
    exact id
  have hcall : ∀ c, FrameOk.callerOk tg pid c → FrameOk.callerOk tg' pid c := by
    rintro (_ | _) h
    · exact hc _ h
    · exact hT h
  have hact : ∀ o, FrameOk.activateOk tg pid o → FrameOk.activateOk tg' pid o := by
    rintro (_ | o) h
    · exact hc _ h
    · exact ⟨hf o h.1, hc _ h.2⟩
  cases fr with
  | user | convertGroup | convertThread | createLookup | switchThread => trivial
  | convertFiber => exact hc _ h
  | createFiber | switchTarget => exact hT h
  | createStack | createContext => exact hf _ h
  | trylock c f | check c f | fail c f => exact ⟨hf _ h.1, hcall _ h.2⟩
  | switchOld f => exact ⟨hf _ h.1, hT h.2⟩
  | activateState old f | activateRead old f | activateWrite old f n | activateTime old f
  | activateCurrent old f => exact ⟨hf _ h.1, hact _ h.2⟩
  | saveRegs old f | saveFpu old f | account old f | clearState old f | unlock old f =>
    exact ⟨hf _ h.1, hf _ h.2.1, hc _ h.2.2⟩
  | loadRegs f | loadFpu f => exact ⟨hf _ h.1, hc _ h.2⟩

theorem ThreadGroup.CurrentIs.current_eq {c : ℤ} (h : tg.CurrentIs pid c) (hc : c ≠ noFibers) :
    tg.current pid = some c := by
  obtain ⟨t, ht, rfl⟩ := h
  simp [ThreadGroup.current, ht, hc]

theorem ThreadGroup.CurrentIs.current_eq_none (h : tg.CurrentIs pid noFibers) :
    tg.current pid = none := by
  obtain ⟨t, ht, he⟩ := h
  simp [ThreadGroup.current, ht, he]

end Frames

end Fibers
