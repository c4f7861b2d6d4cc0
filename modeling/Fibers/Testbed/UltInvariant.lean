import Fibers.Lib.Handover
import Fibers.Testbed.Ult

/-!
# Locks and contexts of the user-level fibers

A context switch holds the lock of the old fiber until its context is filled and has the lock of the
new fiber before it reads its context. `lockView` shows the flags as a state of the hand-over
protocol, in which a thread enters the new fiber at the moment when it releases the old one.

## Main results

- `step_cases` — what a step of a thread can do
- `Inv` — the locks, the thread-local variables and the contexts
- `inv_of_run` — they are kept as long as no context switch saves a zero as its return value
-/

namespace Fibers.Testbed.Ult

variable {Fx : Type}

/-! ## The steps, one case for each branch -/

/-- What a thread can do, with everything that its branch has checked. -/
inductive StepCase (s : State Fx) (t : ℕ) : Act Fx → State Fx → Prop
  | compute (regs : Jmp.Registers Fx) :
      StepCase s t (.compute regs) (s.setThread t { s.thread t with regs := regs })
  | convert {f : ℕ} (hpc : (s.thread t).pc = .user) (hstack : (s.thread t).stack = none)
      (hnew : s.ult f = none) :
      StepCase s t (.convert f)
        (({ s with ultId := s.ultId + 1 }.setUlt f
          ⟨true, ⟨(s.thread t).regs, f, .convert⟩, s.ultId⟩).setThread t
            { s.thread t with current := some f, stack := some f })
  | create {f : ℕ} {start : Start} {regs : Jmp.Registers Fx} (hpc : (s.thread t).pc = .user)
      (hstack : (s.thread t).stack ≠ none) (hnew : s.ult f = none) :
      StepCase s t (.create f start regs)
        (({ s with ultId := s.ultId + 1 }.setUlt f ⟨true, ⟨regs, f, .trampoline⟩, s.ultId⟩).setThread t
          { s.thread t with creat := some (f, start), pc := .created f })
  | ignored {ult : Option ℕ} (hpc : (s.thread t).pc = .user) : StepCase s t (.switchTo ult) s
  | take {src dst : ℕ} {u : UltT Fx} (hpc : (s.thread t).pc = .user)
      (hcurrent : (s.thread t).current = some src) (hu : s.ult dst = some u)
      (hfree : u.running = false) :
      StepCase s t (.switchTo (some dst))
        ((s.setUlt dst { u with running := true }).setPc t (.taken src dst))
  | enter {src dst : ℕ} (hpc : (s.thread t).pc = .taken src dst) :
      StepCase s t .advance
        (s.setThread t { s.thread t with current := some dst, pc := .entered src dst })
  | lock {start : Start} {f : ℕ} {u : UltT Fx} (hpc : (s.thread t).pc = .booting start)
      (hcurrent : (s.thread t).current = some f) (hu : s.ult f = some u)
      (hfree : u.running = false) :
      StepCase s t .advance ((s.setUlt f { u with running := true }).setPc t (.booted start))
  | save {site : Site} {old stack : ℕ} {u : UltT Fx} (hpc : (s.thread t).pc.site = some site)
      (hold : site.old (s.thread t) = some old) (hu : s.ult old = some u)
      (hstack : (s.thread t).stack = some stack) :
      StepCase s t .advance
        ((s.setUlt old { u with context := ⟨(s.thread t).regs, stack, site⟩ }).setPc t (.saved site))
  | unlock {site : Site} {old : ℕ} {u : UltT Fx} (hpc : (s.thread t).pc = .saved site)
      (hold : site.old (s.thread t) = some old) (hu : s.ult old = some u) :
      StepCase s t .advance ((s.setUlt old { u with running := false }).setPc t (.released site))
  | jump {site : Site} {new : ℕ} {u : UltT Fx} {pc : Pc} (hpc : (s.thread t).pc = .released site)
      (hnew : site.new (s.thread t) = some new) (hu : s.ult new = some u)
      (hresume : resume (s.thread t) (site.value u.context) u.context.site = some pc) :
      StepCase s t .advance
        (s.setThread t { s.thread t with
          regs := withRax u.context.regs (site.value u.context)
          stack := some u.context.stack
          pc := pc })

variable {s s' : State Fx} {t : ℕ}

theorem advance_cases (h : s.advance t = some s') : StepCase s t .advance s' := by
  unfold State.advance at h
  simp only at h
  have hsave : ∀ site, (s.thread t).pc.site = some site → s.save t site = some s' →
      StepCase s t .advance s' := by
    intro site hpc hs
    simp only [State.save, Option.bind_eq_bind, Option.bind_eq_some_iff, Option.pure_def,
      Option.some.injEq] at hs
    obtain ⟨old, hold, u, hu, stack, hstack, rfl⟩ := hs
    exact .save hpc hold hu hstack
  split at h
  · cases h
  · next src dst hpc =>
    obtain rfl := Option.some.inj h
    exact .enter hpc
  · next src dst hpc => exact hsave _ (by rw [hpc]; rfl) h
  · next context hpc => exact hsave _ (by rw [hpc]; rfl) h
  · next start hpc =>
    simp only [State.lock, Option.bind_eq_bind, Option.bind_eq_some_iff, Option.pure_def] at h
    obtain ⟨f, hcurrent, u, hu, h⟩ := h
    split at h
    · cases h
    · next hfree =>
      obtain rfl := Option.some.inj h
      exact .lock hpc hcurrent hu (by simpa using hfree)
  · next start hpc => exact hsave _ (by rw [hpc]; rfl) h
  · next site hpc =>
    simp only [State.unlock, Option.bind_eq_bind, Option.bind_eq_some_iff, Option.pure_def,
      Option.some.injEq] at h
    obtain ⟨old, hold, u, hu, rfl⟩ := h
    exact .unlock hpc hold hu
  · next site hpc =>
    simp only [State.jump, Option.bind_eq_bind, Option.bind_eq_some_iff, Option.pure_def,
      Option.some.injEq] at h
    obtain ⟨new, hnew, u, hu, pc, hresume, rfl⟩ := h
    exact .jump hpc hnew hu hresume

theorem step_cases {a : Act Fx} (h : s.step t a = some s') : StepCase s t a s' := by
  cases a with
  | compute regs =>
    obtain rfl := Option.some.inj h
    exact .compute regs
  | convert f =>
    simp only [State.step, State.convert] at h
    split at h
    · next hc =>
      obtain rfl := Option.some.inj h
      exact .convert hc.1 hc.2.1 hc.2.2
    · cases h
  | create f start regs =>
    simp only [State.step, State.create] at h
    split at h
    · next hc =>
      obtain rfl := Option.some.inj h
      exact .create hc.1 hc.2.1 hc.2.2
    · cases h
  | switchTo ult =>
    simp only [State.step, State.switchTo] at h
    split at h
    · split at h
      · next hpc =>
        obtain rfl := Option.some.inj h
        exact .ignored hpc
      · cases h
    · simp only [Option.bind_eq_bind, Option.bind_eq_some_iff, Option.pure_def] at h
      obtain ⟨u, hu, src, hcurrent, h⟩ := h
      split at h
      · cases h
      · next hpc =>
        have hpc : (s.thread t).pc = .user := by simpa using hpc
        split at h
        · obtain rfl := Option.some.inj h
          exact .ignored hpc
        · next hfree =>
          obtain rfl := Option.some.inj h
          exact .take hpc hcurrent hu (by simpa using hfree)
  | advance => exact advance_cases h

/-! ## The locks -/

def State.running (s : State Fx) (f : ℕ) : Bool := (s.ult f).elim false UltT.running

/-- The fiber that a thread has to leave before it is done with another one. -/
def Thread.base (th : Thread Fx) : Option ℕ :=
  match th.pc with
  | .released site => site.new th
  | _ => th.stack

/-- The fiber that a thread has locked besides. -/
def Thread.target (th : Thread Fx) : Option ℕ :=
  match th.pc with
  | .taken _ dst => some dst
  | .saved site => site.new th
  | pc => pc.site.bind (Site.new th)

/-- The thread has set the flag of the fiber. -/
def State.Holds (s : State Fx) (t f : ℕ) : Prop :=
  (s.thread t).base = some f ∨ (s.thread t).target = some f

def phaseOf : Option ℕ → Handover.Phase ℕ
  | none => .resting
  | some f => .taken f

/-- The flags as locks, with the tags that the protocol would write. -/
def lockView (s : State Fx) (tag : ℕ → ℕ) : Handover.State ℕ ℕ where
  locked := s.running
  tag := tag
  current := fun t => (s.thread t).base
  phase := fun t => phaseOf (s.thread t).target

/-- Each flag is set by the one thread that holds the fiber. -/
def Locks (s : State Fx) : Prop :=
  ∃ tag, Handover.Inv 0 (lockView s tag) ∧ Handover.Tight (lockView s tag)

section Locks

variable {tag : ℕ → ℕ} {f : ℕ} {u : UltT Fx} {th : Thread Fx}

theorem running_setUlt : (s.setUlt f u).running = Function.update s.running f u.running := by
  funext g
  by_cases hg : g = f
  · simp [State.running, State.setUlt, hg]
  · simp [State.running, State.setUlt, hg]

/-- A step that neither takes nor releases a lock. -/
theorem Locks.congr (h : Locks s) (hrunning : s'.running = s.running)
    (hthread : s'.thread = Function.update s.thread t th) (hbase : th.base = (s.thread t).base)
    (htarget : th.target = (s.thread t).target) : Locks s' := by
  obtain ⟨tag, hi, ht⟩ := h
  have hview : lockView s' tag = lockView s tag := by
    refine Handover.State.ext hrunning rfl ?_ ?_
    · funext q
      by_cases hq : q = t <;> simp [lockView, hthread, hq, hbase]
    · funext q
      by_cases hq : q = t <;> simp [lockView, hthread, hq, htarget]
  exact ⟨tag, hview ▸ hi, hview ▸ ht⟩

theorem Locks.step (h : Locks s)
    (hs : ∀ tag, Handover.Step 0 (lockView s tag) (lockView s' tag)) : Locks s' := by
  obtain ⟨tag, hi, ht⟩ := h
  exact ⟨tag, (hs tag).inv hi, ht.step hi (hs tag)⟩

theorem holds_iff : (lockView s tag).Holds t f ↔ s.Holds t f := by
  cases h : (s.thread t).target <;> simp [Handover.State.Holds, State.Holds, lockView, phaseOf, h]

theorem Locks.unique (h : Locks s) {t' : ℕ} (ht : s.Holds t f) (ht' : s.Holds t' f) : t = t' := by
  obtain ⟨tag, hi, -⟩ := h
  exact hi.holds_unique t t' f (holds_iff.mpr ht) (holds_iff.mpr ht')

theorem Locks.running_iff (h : Locks s) : s.running f = true ↔ ∃ t, s.Holds t f := by
  obtain ⟨tag, hi, ht⟩ := h
  constructor
  · intro hrun
    obtain ⟨t, hh⟩ := ht f hrun
    exact ⟨t, holds_iff.mp hh⟩
  · rintro ⟨t, hh⟩
    exact hi.locked_of_holds t f (holds_iff.mpr hh)

/-- A thread sets a flag that was clear. -/
theorem Locks.take (h : Locks s) (hfree : s.running f = false)
    (hrunning : s'.running = Function.update s.running f true)
    (hthread : s'.thread = Function.update s.thread t th) (hbase : th.base = (s.thread t).base)
    (hnone : (s.thread t).target = none) (htarget : th.target = some f) : Locks s' := by
  refine h.step fun tag => ?_
  have hview : lockView s' tag = (lockView s tag).take t f := by
    refine Handover.State.ext hrunning rfl ?_ ?_
    · funext q
      by_cases hq : q = t <;> simp [lockView, Handover.State.take, hthread, hq, hbase]
    · funext q
      by_cases hq : q = t <;>
        simp [lockView, Handover.State.take, hthread, hq, htarget, phaseOf]
  rw [hview]
  exact .take (by simp [lockView, hnone, phaseOf]) hfree

/-- A thread clears the flag of the fiber that it leaves. -/
theorem Locks.move (h : Locks s) {old : ℕ} (hold : (s.thread t).base = some old)
    (hnew : (s.thread t).target = some f)
    (hrunning : s'.running = Function.update s.running old false)
    (hthread : s'.thread = Function.update s.thread t th) (hbase : th.base = some f)
    (htarget : th.target = none) : Locks s' := by
  obtain ⟨tag, hi, ht⟩ := h
  have hmove := hi.move ht (t := t) (o := old) (f := f) (by simp [lockView, hnew, phaseOf])
    (by simp [lockView, hold])
  have hview : lockView s' ((lockView s tag).move 0 t old f).tag =
      (lockView s tag).move 0 t old f := by
    refine Handover.State.ext (by simpa [lockView] using hrunning) rfl ?_ ?_
    · funext q
      by_cases hq : q = t <;> simp [lockView, hthread, hq, hbase]
    · funext q
      by_cases hq : q = t <;> simp [lockView, hthread, hq, htarget, phaseOf]
  exact ⟨_, hview ▸ hmove.1, hview ▸ hmove.2⟩

/-- A thread without a fiber gets one of its own. -/
theorem Locks.settle (h : Locks s) (hnone : (s.thread t).base = none)
    (hresting : (s.thread t).target = none) (hfree : s.running f = false)
    (hrunning : s'.running = Function.update s.running f true)
    (hthread : s'.thread = Function.update s.thread t th) (hbase : th.base = some f)
    (htarget : th.target = none) : Locks s' := by
  obtain ⟨tag, hi, ht⟩ := h
  have hsettle := hi.settle ht (t := t) (f := f) (by simp [lockView, hresting, phaseOf]) hfree
  have hphase := Handover.phase_settle (s := lockView s tag) (t := t) (f := f) hnone
  have hview : lockView s' ((lockView s tag).settle t f).tag = (lockView s tag).settle t f := by
    refine Handover.State.ext (by simpa [lockView] using hrunning) rfl ?_ ?_
    · funext q
      by_cases hq : q = t <;> simp [lockView, hthread, hq, hbase]
    · funext q
      rw [hphase]
      by_cases hq : q = t <;> simp [lockView, hthread, hq, htarget, phaseOf]
  exact ⟨_, hview ▸ hsettle.1, hview ▸ hsettle.2⟩

end Locks

/-! ## The thread-local variables -/

/-- The variables of a context switch name the fiber whose stack the thread is on, and one to go
on with. -/
def AtSwitch (th : Thread Fx) (site : Site) : Prop :=
  ∃ old new, site.old th = some old ∧ site.new th = some new ∧ old ≠ new ∧ th.stack = some old ∧
    match site with
    | .switch _ _ => th.current = some new
    | .create _ => ∃ start, th.creat = some (new, start)
    | .boot start => th.creat = some (old, start)
    | _ => False

def Thread.Coherent (th : Thread Fx) : Prop :=
  match th.pc with
  | .user => th.current = th.stack
  | .taken src _ => th.current = some src ∧ th.stack = some src
  | .booting start =>
    ∃ old new, th.stack = some old ∧ th.current = some new ∧ old ≠ new ∧
      th.creat = some (old, start)
  | .entered src dst => AtSwitch th (.switch src dst)
  | .created context => AtSwitch th (.create context)
  | .booted start => AtSwitch th (.boot start)
  | .saved site => AtSwitch th site
  | .released site => AtSwitch th site

/-! ## The contexts -/

def State.context (s : State Fx) (f : ℕ) : Option (Context Fx) := (s.ult f).map UltT.context

/-- The fiber on which a thread is, as long as it has not saved it. -/
def Thread.working (th : Thread Fx) : Option ℕ :=
  match th.pc with
  | .saved _ => none
  | .released _ => none
  | _ => th.stack

/-- The fiber that a context switch enters for the first time. -/
def Site.newborn : Site → Option ℕ
  | .create context => some context
  | _ => none

def Thread.newborn (th : Thread Fx) : Option ℕ :=
  match th.pc with
  | .saved site => site.newborn
  | .released site => site.newborn
  | pc => pc.site.bind Site.newborn

/-- What is known of a fiber: of the thread that works on it, of the context with which a thread
brings it up, and of the context in which it waits. -/
structure View (Fx : Type) where
  working : Thread Fx → Prop
  newborn : Thread Fx → Context Fx → Prop
  parked : Context Fx → Prop

/-- Each fiber is as its view says. -/
structure Cover (v : ℕ → View Fx) (s : State Fx) : Prop where
  working : ∀ t f, (s.thread t).working = some f → (v f).working (s.thread t)
  newborn : ∀ t f, (s.thread t).newborn = some f →
    ∃ c, s.context f = some c ∧ (v f).newborn (s.thread t) c
  parked : ∀ f c, s.context f = some c → (∀ t, (s.thread t).working ≠ some f) →
    (∀ t, (s.thread t).newborn ≠ some f) → (v f).parked c

/-- The step of one thread, which touches only fibers that no other thread works on or brings up. -/
theorem Cover.step {v v' : ℕ → View Fx} {th : Thread Fx} (h : Cover v s) (touched : ℕ → Prop)
    (hthread : s'.thread = Function.update s.thread t th)
    (halone : ∀ g, touched g → ∀ q, q ≠ t →
      (s.thread q).working ≠ some g ∧ (s.thread q).newborn ≠ some g)
    (hsame : ∀ g, ¬ touched g → s'.context g = s.context g ∧ v' g = v g)
    (hworking : ∀ g, th.working = some g → (v' g).working th)
    (hnewborn : ∀ g, th.newborn = some g → ∃ c, s'.context g = some c ∧ (v' g).newborn th c)
    (hparked : ∀ g c, touched g ∨ (s.thread t).working = some g ∨ (s.thread t).newborn = some g →
      th.working ≠ some g → th.newborn ≠ some g → s'.context g = some c → (v' g).parked c) :
    Cover v' s' := by
  have hself : s'.thread t = th := by rw [hthread, Function.update_self]
  have hother : ∀ q, q ≠ t → s'.thread q = s.thread q := by
    intro q hq
    rw [hthread, Function.update_of_ne hq]
  refine ⟨fun q g hg => ?_, fun q g hg => ?_, fun g c hc hw hn => ?_⟩
  · by_cases hq : q = t
    · subst hq
      rw [hself] at hg ⊢
      exact hworking g hg
    · rw [hother q hq] at hg ⊢
      have hfar : ¬ touched g := fun ht => (halone g ht q hq).1 hg
      rw [(hsame g hfar).2]
      exact h.working q g hg
  · by_cases hq : q = t
    · subst hq
      rw [hself] at hg ⊢
      exact hnewborn g hg
    · rw [hother q hq] at hg ⊢
      have hfar : ¬ touched g := fun ht => (halone g ht q hq).2 hg
      rw [(hsame g hfar).1, (hsame g hfar).2]
      exact h.newborn q g hg
  · have hwt := hw t
    have hnt := hn t
    rw [hself] at hwt hnt
    by_cases ht : touched g ∨ (s.thread t).working = some g ∨ (s.thread t).newborn = some g
    · exact hparked g c ht hwt hnt hc
    · obtain ⟨hfar, hold⟩ := not_or.mp ht
      obtain ⟨hwold, hnold⟩ := not_or.mp hold
      rw [(hsame g hfar).1] at hc
      rw [(hsame g hfar).2]
      refine h.parked g c hc (fun q => ?_) (fun q => ?_)
      · by_cases hq : q = t
        · rwa [hq]
        · rw [← hother q hq]
          exact hw q
      · by_cases hq : q = t
        · rwa [hq]
        · rw [← hother q hq]
          exact hn q

/-- A context with which a thread can go on. -/
structure Parked (f : ℕ) (c : Context Fx) : Prop where
  stack : c.stack = f
  nonzero : returnsZero (rax c.regs) = false
  site : c.site ≠ .trampoline

def resumable (f : ℕ) : View Fx where
  working := fun _ => True
  newborn := fun _ c => c.stack = f ∧ c.site = .trampoline
  parked := Parked f

structure Inv (s : State Fx) : Prop where
  locks : Locks s
  coherent : ∀ t, (s.thread t).Coherent
  cover : Cover resumable s

theorem inv_initial (regs : ℕ → Jmp.Registers Fx) : Inv (initial regs) where
  locks := ⟨fun _ => 0, Handover.Inv.initial, Handover.Tight.initial⟩
  coherent := fun _ => rfl
  cover := ⟨fun _ _ _ => trivial, by simp [initial, Thread.newborn, Pc.site],
    by simp [initial, State.context]⟩

/-! ## Every step keeps the invariant -/

section Threads

variable {th : Thread Fx} {site : Site} {f : ℕ}

theorem Thread.Coherent.atSwitch (h : th.Coherent) (hpc : th.pc.site = some site) :
    AtSwitch th site := by
  unfold Thread.Coherent at h
  cases hp : th.pc with
  | entered src dst =>
    rw [hp] at h hpc
    cases hpc
    exact h
  | created context =>
    rw [hp] at h hpc
    cases hpc
    exact h
  | booted start =>
    rw [hp] at h hpc
    cases hpc
    exact h
  | _ =>
    rw [hp] at hpc
    cases hpc

/-- What a thread about to save is on, holds besides and brings up. -/
theorem roles_of_site (hpc : th.pc.site = some site) :
    th.base = th.stack ∧ th.target = site.new th ∧ th.working = th.stack ∧
      th.newborn = site.newborn := by
  cases hp : th.pc with
  | entered src dst =>
    rw [hp] at hpc
    cases hpc
    simp [Thread.base, Thread.target, Thread.working, Thread.newborn, hp, Pc.site]
  | created context =>
    rw [hp] at hpc
    cases hpc
    simp [Thread.base, Thread.target, Thread.working, Thread.newborn, hp, Pc.site]
  | booted start =>
    rw [hp] at hpc
    cases hpc
    simp [Thread.base, Thread.target, Thread.working, Thread.newborn, hp, Pc.site]
  | _ =>
    rw [hp] at hpc
    cases hpc

theorem base_of_working (h : th.working = some f) : th.base = some f := by
  cases hp : th.pc <;> simp_all [Thread.working, Thread.base]

theorem AtSwitch.new_of_newborn (h : AtSwitch th site) (hn : site.newborn = some f) :
    site.new th = some f := by
  cases site with
  | create context => exact hn
  | _ => cases hn

theorem holds_of_newborn (hc : (s.thread t).Coherent) (hn : (s.thread t).newborn = some f) :
    s.Holds t f := by
  unfold Thread.Coherent at hc
  cases hp : (s.thread t).pc with
  | saved site =>
    rw [hp] at hc
    simp only [Thread.newborn, hp] at hn
    right
    simpa [Thread.target, hp] using hc.new_of_newborn hn
  | released site =>
    rw [hp] at hc
    simp only [Thread.newborn, hp] at hn
    left
    simpa [Thread.base, hp] using hc.new_of_newborn hn
  | created context =>
    right
    simpa [Thread.newborn, Thread.target, hp, Pc.site, Site.newborn, Site.new] using hn
  | _ => simp [Thread.newborn, hp, Pc.site, Site.newborn] at hn

end Threads

@[simp] theorem context_setThread (s : State Fx) (t : ℕ) (th : Thread Fx) :
    (s.setThread t th).context = s.context := rfl

theorem context_setUlt (s : State Fx) (f : ℕ) (u : UltT Fx) :
    (s.setUlt f u).context = Function.update s.context f (some u.context) := by
  funext g
  by_cases hg : g = f <;> simp [State.context, State.setUlt, hg]

namespace Inv

variable {th : Thread Fx} {f : ℕ}

/-- Nobody else works on a fiber that a thread holds, or brings it up. -/
theorem alone (h : Inv s) (hf : s.Holds t f) {q : ℕ} (hq : q ≠ t) :
    (s.thread q).working ≠ some f ∧ (s.thread q).newborn ≠ some f := by
  constructor
  · intro hw
    exact hq (h.locks.unique (.inl (base_of_working hw)) hf)
  · intro hn
    exact hq (h.locks.unique (holds_of_newborn (h.coherent q) hn) hf)

/-- A thread has two different fibers. -/
theorem apart (h : Inv s) {old new : ℕ} (hbase : (s.thread t).base = some old)
    (htarget : (s.thread t).target = some new) : old ≠ new := by
  rintro rfl
  obtain ⟨tag, hi, -⟩ := h.locks
  exact (hi.apart t old hbase).1 (by simp [lockView, htarget, phaseOf])

/-- Nobody works on a fiber before it is made, or brings it up. -/
theorem unborn (h : Inv s) (hf : s.ult f = none) (q : ℕ) :
    (s.thread q).working ≠ some f ∧ (s.thread q).newborn ≠ some f := by
  have hfree : ∀ t, ¬ s.Holds t f := by
    intro t ht
    have hrun := h.locks.running_iff.mpr ⟨t, ht⟩
    rw [State.running, hf] at hrun
    cases hrun
  constructor
  · intro hw
    exact hfree q (.inl (base_of_working hw))
  · intro hn
    exact hfree q (holds_of_newborn (h.coherent q) hn)

end Inv

/-- A step that leaves the contexts and the place of its thread. -/
theorem Cover.quiet {v : ℕ → View Fx} {th : Thread Fx} (h : Cover v s)
    (hthread : s'.thread = Function.update s.thread t th) (hcontext : s'.context = s.context)
    (hw : th.working = (s.thread t).working) (hn : th.newborn = (s.thread t).newborn)
    (hworking : ∀ g, (s.thread t).working = some g →
      (v g).working (s.thread t) → (v g).working th)
    (hnewborn : ∀ g c, (v g).newborn (s.thread t) c → (v g).newborn th c) : Cover v s' := by
  refine h.step (fun _ => False) hthread (fun _ hg => hg.elim) (fun g _ => ?_)
    (fun g hg => ?_) (fun g hg => ?_) (fun g c hold hwg hng => ?_)
  · exact ⟨congrFun hcontext g, rfl⟩
  · have hold : (s.thread t).working = some g := hw ▸ hg
    exact hworking g hold (h.working t g hold)
  · obtain ⟨c, hc, hview⟩ := h.newborn t g (hn ▸ hg)
    exact ⟨c, hcontext ▸ hc, hnewborn g c hview⟩
  · rcases hold with hf | hold | hold
    · exact hf.elim
    · exact absurd (hw.trans hold) hwg
    · exact absurd (hn.trans hold) hng

section Records

variable {f : ℕ} {u : UltT Fx}

theorem running_of_ult (hu : s.ult f = some u) : s.running f = u.running := by
  rw [State.running, hu]
  rfl

theorem running_of_new (hu : s.ult f = none) : s.running f = false := by
  rw [State.running, hu]
  rfl

theorem context_of_ult (hu : s.ult f = some u) : s.context f = some u.context := by
  rw [State.context, hu]
  rfl

theorem context_setUlt_self (s : State Fx) : (s.setUlt f u).context f = some u.context := by
  rw [context_setUlt, Function.update_self]

theorem context_setUlt_of_ne (s : State Fx) {g : ℕ} (hg : g ≠ f) :
    (s.setUlt f u).context g = s.context g := by
  rw [context_setUlt, Function.update_of_ne hg]

/-- A record that keeps its context. -/
theorem context_setUlt_of_same (hu : s.ult f = some u) (b : Bool) :
    (s.setUlt f { u with running := b }).context = s.context := by
  rw [context_setUlt]
  exact Function.update_eq_self_iff.mpr (context_of_ult hu).symm

end Records

/-- Nobody is on the fiber that a context switch goes back to. -/
theorem Inv.waits (h : Inv s) {site : Site} {new : ℕ} (hpc : (s.thread t).pc = .released site)
    (hnew : site.new (s.thread t) = some new) (hborn : site.newborn = none) (q : ℕ) :
    (s.thread q).working ≠ some new ∧ (s.thread q).newborn ≠ some new := by
  have hholds : s.Holds t new := .inl (by simpa [Thread.base, hpc] using hnew)
  by_cases hq : q = t
  · simp [hq, Thread.working, Thread.newborn, hpc, hborn]
  · exact h.alone hholds hq

/-- Where a jump ends. -/
theorem Inv.jump_lands (h : Inv s) {site : Site} {new : ℕ} {u : UltT Fx} {pc : Pc}
    (hpc : (s.thread t).pc = .released site) (hnew : site.new (s.thread t) = some new)
    (hu : s.ult new = some u)
    (hresume : resume (s.thread t) (site.value u.context) u.context.site = some pc) :
    u.context.stack = new ∧
      (pc = .user ∧ (s.thread t).current = some new ∧ site.newborn = none ∧
          site.value u.context = rax u.context.regs ∨
        ∃ start old, site = .create new ∧ pc = .booting start ∧
          (s.thread t).current = some old ∧ new ≠ old ∧
            (s.thread t).creat = some (new, start)) := by
  have hcoherent := h.coherent t
  simp only [Thread.Coherent, hpc] at hcoherent
  obtain ⟨old, new', hold, hnew', hne, hstack, hmatch⟩ := hcoherent
  obtain rfl : new' = new := Option.some.inj (hnew'.symm.trans hnew)
  have hctx := context_of_ult hu
  cases hb : site.newborn with
  | some f =>
    cases site with
    | create context =>
      obtain rfl : context = new' := Option.some.inj hnew
      have hborn : (s.thread t).newborn = some context := by
        simp [Thread.newborn, hpc, Site.newborn]
      obtain ⟨c, hc, hcstack, hcsite⟩ := h.cover.newborn t context hborn
      obtain rfl : c = u.context := Option.some.inj (hc.symm.trans hctx)
      obtain ⟨start, hcreat⟩ := hmatch
      refine ⟨hcstack, .inr ⟨start, old, rfl, ?_, hold, hne.symm, hcreat⟩⟩
      have hone : returnsZero 1#64 = false := by decide
      simpa [resume, Site.value, hone, hcsite, hcreat, eq_comm] using hresume
    | _ => cases hb
  | none =>
    -- the context is one of a thread that has left the fiber
    have hwaits := h.waits hpc hnew hb
    have hparked := h.cover.parked new' u.context hctx (fun q => (hwaits q).1) fun q => (hwaits q).2
    have hvalue : site.value u.context = rax u.context.regs := by
      cases site with
      | create context => cases hb
      | _ => rfl
    have hpcuser : pc = .user := by
      rw [hvalue] at hresume
      have hsite := hparked.site
      cases hs : u.context.site with
      | trampoline => exact absurd hs hsite
      | _ => simpa [resume, hs, hparked.nonzero, eq_comm] using hresume
    have hcurrent : (s.thread t).current = some new' := by
      cases site with
      | switch src dst => exact hmatch
      | boot start => exact hnew
      | create context => cases hb
      | _ => exact hmatch.elim
    exact ⟨hparked.stack, .inl ⟨hpcuser, hcurrent, rfl, hvalue⟩⟩

section Steps

variable {f dst : ℕ} {start : Start} {u : UltT Fx} {site : Site}

namespace Inv

/-- The step of one thread. -/
theorem of_step {th : Thread Fx} (h : Inv s) (hthread : s'.thread = Function.update s.thread t th)
    (hlocks : Locks s') (hcoherent : th.Coherent) (hcover : Cover resumable s') : Inv s' := by
  refine ⟨hlocks, fun q => ?_, hcover⟩
  by_cases hq : q = t
  · rwa [hthread, hq, Function.update_self]
  · rw [hthread, Function.update_of_ne hq]
    exact h.coherent q

theorem compute (h : Inv s) (regs : Jmp.Registers Fx) :
    Inv (s.setThread t { s.thread t with regs := regs }) := by
  have hcoherent := h.coherent t
  have hthread : (s.setThread t { s.thread t with regs := regs }).thread =
      Function.update s.thread t { s.thread t with regs := regs } := rfl
  refine h.of_step hthread ?_ hcoherent ?_
  · exact h.locks.congr rfl hthread rfl rfl
  · exact h.cover.quiet hthread rfl rfl rfl (fun _ _ => id) (fun _ _ => id)

theorem convert (h : Inv s) (hpc : (s.thread t).pc = .user) (hstack : (s.thread t).stack = none)
    (hnew : s.ult f = none) :
    Inv (({ s with ultId := s.ultId + 1 }.setUlt f
      ⟨true, ⟨(s.thread t).regs, f, .convert⟩, s.ultId⟩).setThread t
        { s.thread t with current := some f, stack := some f }) := by
  have hbase : (s.thread t).base = none := by simp [Thread.base, hpc, hstack]
  have htarget : (s.thread t).target = none := by simp [Thread.target, hpc, Pc.site]
  have hwas : (s.thread t).working = none := by simp [Thread.working, hpc, hstack]
  have hborn : (s.thread t).newborn = none := by simp [Thread.newborn, hpc, Pc.site]
  refine h.of_step rfl ?_ ?_ ?_
  · apply h.locks.settle hbase htarget (running_of_new hnew) running_setUlt rfl
    · simp [Thread.base, hpc]
    · simp [Thread.target, hpc, Pc.site]
  · simp [Thread.Coherent, hpc]
  · refine h.cover.step (fun g => g = f) rfl ?_ (fun g hg => ⟨?_, rfl⟩) ?_ ?_ ?_
    · rintro g rfl q -
      exact h.unborn hnew q
    · exact context_setUlt_of_ne _ hg
    · exact fun _ _ => trivial
    · simp [Thread.newborn, hpc, Pc.site]
    · intro g c hold hw
      have hgf : g ≠ f := by
        rintro rfl
        exact hw (by simp [Thread.working, hpc])
      simp [hgf, hwas, hborn] at hold

theorem create (h : Inv s) {regs : Jmp.Registers Fx} (hpc : (s.thread t).pc = .user)
    (hstack : (s.thread t).stack ≠ none) (hnew : s.ult f = none) :
    Inv (({ s with ultId := s.ultId + 1 }.setUlt f ⟨true, ⟨regs, f, .trampoline⟩, s.ultId⟩).setThread t
      { s.thread t with creat := some (f, start), pc := .created f }) := by
  have hcoherent := h.coherent t
  simp only [Thread.Coherent, hpc] at hcoherent
  obtain ⟨old, hold⟩ := Option.ne_none_iff_exists'.mp hstack
  have hnone : (s.thread t).target = none := by simp [Thread.target, hpc, Pc.site]
  have hwas : (s.thread t).working = (s.thread t).stack := by simp [Thread.working, hpc]
  have hborn : (s.thread t).newborn = none := by simp [Thread.newborn, hpc, Pc.site]
  refine h.of_step rfl ?_ ?_ ?_
  · apply h.locks.take (running_of_new hnew) running_setUlt rfl ?_ hnone
    · simp [Thread.target, Pc.site, Site.new]
    · simp [Thread.base, hpc]
  · refine ⟨old, f, hcoherent.trans hold, rfl, ?_, hold, start, rfl⟩
    rintro rfl
    exact (h.unborn hnew t).1 (hwas.trans hold)
  · refine h.cover.step (fun g => g = f) rfl ?_ (fun g hg => ⟨?_, rfl⟩) ?_ ?_ ?_
    · rintro g rfl q -
      exact h.unborn hnew q
    · exact context_setUlt_of_ne _ hg
    · exact fun _ _ => trivial
    · rintro g hg
      obtain rfl : f = g := by simpa [Thread.newborn, Pc.site, Site.newborn] using hg
      exact ⟨_, context_setUlt_self _, rfl, rfl⟩
    · intro g c hold hw hn
      have hgf : g ≠ f := by
        rintro rfl
        exact hn (by simp [Thread.newborn, Pc.site, Site.newborn])
      simp only [hgf, hwas, hborn, false_or, reduceCtorEq, or_false] at hold
      exact absurd (by simpa [Thread.working] using hold) hw

theorem take {src : ℕ} (h : Inv s) (hpc : (s.thread t).pc = .user)
    (hcurrent : (s.thread t).current = some src) (hu : s.ult dst = some u)
    (hfree : u.running = false) :
    Inv ((s.setUlt dst { u with running := true }).setPc t (.taken src dst)) := by
  have hcoherent := h.coherent t
  simp only [Thread.Coherent, hpc] at hcoherent
  have hnone : (s.thread t).target = none := by simp [Thread.target, hpc, Pc.site]
  refine h.of_step rfl ?_ ?_ ?_
  · apply h.locks.take ((running_of_ult hu).trans hfree) running_setUlt rfl ?_ hnone
    · simp [Thread.target]
    · simp [Thread.base, State.setUlt, hpc]
  · exact ⟨hcurrent, hcoherent.symm.trans hcurrent⟩
  · refine h.cover.quiet rfl (context_setUlt_of_same hu true) ?_ ?_ (fun _ _ => id) (fun _ _ => id)
    · simp [Thread.working, State.setUlt, hpc]
    · simp [Thread.newborn, hpc, Pc.site]

theorem enter {src : ℕ} (h : Inv s) (hpc : (s.thread t).pc = .taken src dst) :
    Inv (s.setThread t { s.thread t with current := some dst, pc := .entered src dst }) := by
  have hcoherent := h.coherent t
  simp only [Thread.Coherent, hpc] at hcoherent
  refine h.of_step rfl ?_ ?_ ?_
  · refine h.locks.congr rfl rfl ?_ ?_
    · simp [Thread.base, hpc]
    · simp [Thread.target, hpc, Pc.site, Site.new]
  · refine ⟨src, dst, rfl, rfl, ?_, hcoherent.2, rfl⟩
    apply h.apart (t := t)
    · simpa [Thread.base, hpc] using hcoherent.2
    · simp [Thread.target, hpc]
  · refine h.cover.quiet rfl rfl ?_ ?_ (fun _ _ => id) (fun _ _ => id)
    · simp [Thread.working, hpc]
    · simp [Thread.newborn, hpc, Pc.site, Site.newborn]

theorem lock (h : Inv s) (hpc : (s.thread t).pc = .booting start)
    (hcurrent : (s.thread t).current = some f) (hu : s.ult f = some u) (hfree : u.running = false) :
    Inv ((s.setUlt f { u with running := true }).setPc t (.booted start)) := by
  have hcoherent := h.coherent t
  simp only [Thread.Coherent, hpc] at hcoherent
  obtain ⟨old, new, hstack, hnew, hne, hcreat⟩ := hcoherent
  have hnone : (s.thread t).target = none := by simp [Thread.target, hpc, Pc.site]
  refine h.of_step rfl ?_ ?_ ?_
  · apply h.locks.take ((running_of_ult hu).trans hfree) running_setUlt rfl ?_ hnone
    · simp [Thread.target, Pc.site, Site.new, State.setUlt, hcurrent]
    · simp [Thread.base, State.setUlt, hpc]
  · exact ⟨old, new, by simp [Site.old, State.setUlt, hcreat], hnew, hne, hstack, hcreat⟩
  · refine h.cover.quiet rfl (context_setUlt_of_same hu true) ?_ ?_ (fun _ _ => id) (fun _ _ => id)
    · simp [Thread.working, State.setUlt, hpc]
    · simp [Thread.newborn, hpc, Pc.site, Site.newborn]

/-- A thread brings up another fiber than the one it works on. -/
theorem working_ne_newborn (h : Inv s) (hw : (s.thread t).working = some f) :
    (s.thread t).newborn ≠ some f := by
  intro hn
  have htarget : (s.thread t).target = some f := by
    cases hp : (s.thread t).pc with
    | created context =>
      simpa [Thread.newborn, Thread.target, hp, Pc.site, Site.newborn, Site.new] using hn
    | saved site => simp [Thread.working, hp] at hw
    | released site => simp [Thread.working, hp] at hw
    | _ => simp [Thread.newborn, hp, Pc.site, Site.newborn] at hn
  exact h.apart (base_of_working hw) htarget rfl

theorem save {old stack : ℕ} (h : Inv s) (hpc : (s.thread t).pc.site = some site)
    (hold : site.old (s.thread t) = some old) (hu : s.ult old = some u)
    (hstack : (s.thread t).stack = some stack)
    (hz : returnsZero (rax (s.thread t).regs) = false) :
    Inv ((s.setUlt old { u with context := ⟨(s.thread t).regs, stack, site⟩ }).setPc t
      (.saved site)) := by
  obtain ⟨hbase, htarget, hworking, hnewborn⟩ := roles_of_site hpc
  have hat := (h.coherent t).atSwitch hpc
  obtain ⟨old', new, hold', hnew, hne, hstack', hmatch⟩ := hat
  obtain rfl : old' = old := Option.some.inj (hold'.symm.trans hold)
  obtain rfl : stack = old' := Option.some.inj (hstack.symm.trans hstack')
  have hholds : s.Holds t stack := .inl (hbase.trans hstack)
  refine h.of_step rfl ?_ ⟨stack, new, hold, hnew, hne, hstack, hmatch⟩ ?_
  · have hrunning := running_of_ult hu
    refine h.locks.congr ?_ rfl hbase.symm htarget.symm
    exact running_setUlt.trans (Function.update_eq_self_iff.mpr hrunning.symm)
  · refine h.cover.step (fun g => g = stack) rfl ?_ (fun g hg => ⟨?_, rfl⟩) ?_ ?_ ?_
    · rintro g rfl q hq
      exact h.alone hholds hq
    · exact context_setUlt_of_ne _ hg
    · exact fun _ _ => trivial
    · intro g hg
      have hborn : (s.thread t).newborn = some g := hnewborn.trans hg
      have hgf : g ≠ stack := by
        rintro rfl
        exact h.working_ne_newborn (hworking.trans hstack) hborn
      obtain ⟨c, hc, hview⟩ := h.cover.newborn t g hborn
      exact ⟨c, (context_setUlt_of_ne _ hgf).trans hc, hview⟩
    · intro g c hg hw hn hc
      have hgf : g = stack := by
        rcases hg with hg | hg | hg
        · exact hg
        · exact Option.some.inj (hg.symm.trans (hworking.trans hstack))
        · exact absurd (hnewborn.symm.trans hg) hn
      subst hgf
      obtain rfl := Option.some.inj ((context_setUlt_self _).symm.trans hc)
      refine ⟨rfl, hz, ?_⟩
      rintro rfl
      cases hold

theorem unlock {old : ℕ} (h : Inv s) (hpc : (s.thread t).pc = .saved site)
    (hold : site.old (s.thread t) = some old) (hu : s.ult old = some u) :
    Inv ((s.setUlt old { u with running := false }).setPc t (.released site)) := by
  have hat := h.coherent t
  simp only [Thread.Coherent, hpc] at hat
  obtain ⟨old', new, hold', hnew, hne, hstack, hmatch⟩ := hat
  obtain rfl : old' = old := Option.some.inj (hold'.symm.trans hold)
  refine h.of_step rfl ?_ ⟨old', new, hold, hnew, hne, hstack, hmatch⟩ ?_
  · have hbase : (s.thread t).base = some old' := by simpa [Thread.base, hpc] using hstack
    have htarget : (s.thread t).target = some new := by simpa [Thread.target, hpc] using hnew
    apply h.locks.move hbase htarget running_setUlt rfl
    · exact hnew
    · rfl
  · refine h.cover.quiet rfl (context_setUlt_of_same hu false) ?_ ?_ (fun _ _ => id) (fun _ _ => id)
    · simp [Thread.working, hpc]
    · simp [Thread.newborn, hpc]

theorem jump {new : ℕ} {pc : Pc} (h : Inv s) (hpc : (s.thread t).pc = .released site)
    (hnew : site.new (s.thread t) = some new) (hu : s.ult new = some u)
    (hresume : resume (s.thread t) (site.value u.context) u.context.site = some pc) :
    Inv (s.setThread t { s.thread t with
      regs := withRax u.context.regs (site.value u.context)
      stack := some u.context.stack
      pc := pc }) := by
  obtain ⟨hstack, hland⟩ := h.jump_lands hpc hnew hu hresume
  have hbase : (s.thread t).base = some new := by simpa [Thread.base, hpc] using hnew
  have htarget : (s.thread t).target = none := by simp [Thread.target, hpc, Pc.site]
  have hnone : (s.thread t).working = none := by simp [Thread.working, hpc]
  have hborn : ∀ g, (s.thread t).newborn = some g → g = new := by
    intro g hg
    have hat := h.coherent t
    simp only [Thread.Coherent, hpc] at hat
    have hng : site.newborn = some g := by simpa [Thread.newborn, hpc] using hg
    exact Option.some.inj ((hat.new_of_newborn hng).symm.trans hnew)
  rw [hstack]
  refine h.of_step rfl ?_ ?_ ?_
  · rcases hland with ⟨rfl, -⟩ | ⟨start, old, rfl, rfl, -⟩
    · exact h.locks.congr rfl rfl hbase.symm htarget.symm
    · exact h.locks.congr rfl rfl hbase.symm htarget.symm
  · rcases hland with ⟨rfl, hcurrent, -⟩ | ⟨start, old, rfl, rfl, hcurrent, hne, hcreat⟩
    · exact hcurrent
    · exact ⟨new, old, rfl, hcurrent, hne, hcreat⟩
  · refine h.cover.step (fun _ => False) rfl (fun _ hg => hg.elim)
      (fun g _ => ⟨rfl, rfl⟩) ?_ ?_ ?_
    · exact fun _ _ => trivial
    · rcases hland with ⟨rfl, -⟩ | ⟨start, old, rfl, rfl, -⟩ <;>
        simp [Thread.newborn, Pc.site]
    · intro g c hg hw hn hc
      have hgf : g = new := by simpa [hnone] using hg.imp_right (Or.imp_right (hborn g))
      subst hgf
      rcases hland with ⟨rfl, -⟩ | ⟨start, old, rfl, rfl, -⟩ <;>
        exact absurd rfl hw

end Inv

end Steps

/-- Each step of each thread keeps the invariant. -/
theorem StepCase.inv {a : Act Fx} (hs : StepCase s t a s') (h : Inv s)
    (hz : a = .advance → ((s.thread t).pc.site).isSome →
      returnsZero (rax (s.thread t).regs) = false) : Inv s' := by
  cases hs with
  | compute regs => exact h.compute regs
  | convert hpc hstack hnew => exact h.convert hpc hstack hnew
  | create hpc hstack hnew => exact h.create hpc hstack hnew
  | ignored hpc => exact h
  | take hpc hcurrent hu hfree => exact h.take hpc hcurrent hu hfree
  | enter hpc => exact h.enter hpc
  | lock hpc hcurrent hu hfree => exact h.lock hpc hcurrent hu hfree
  | save hpc hold hu hstack => exact h.save hpc hold hu hstack (hz rfl (by rw [hpc]; rfl))
  | unlock hpc hold hu => exact h.unlock hpc hold hu
  | jump hpc hnew hu hresume => exact h.jump hpc hnew hu hresume

/-- The invariant holds after any steps of any threads. -/
theorem inv_of_run {regs : ℕ → Jmp.Registers Fx} {h : History Fx} {s : State Fx}
    (hr : Run Step (initial regs) h s) (hz : EveryEntry SavesNonzero h) : Inv s := by
  induction hr with
  | start => exact inv_initial regs
  | @next past s s' a _ hs ih =>
    refine (step_cases hs).inv (ih hz.2) fun hadvance => ?_
    have hlast : SavesNonzero past ⟨s, a, s'⟩ := hz.1
    simpa only [SavesNonzero, hadvance] using hlast

end Fibers.Testbed.Ult
