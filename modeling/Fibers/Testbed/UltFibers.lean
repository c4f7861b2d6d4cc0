import Fibers.Testbed.UltInvariant

/-!
# User-level fibers as machines of their own

What the threads make of the fibers, compared with a machine in which each fiber has registers of
its own and an entry point that it still has to run. There is no saving and no loading in that
machine: what a thread computes on a fiber stays with the fiber.

This holds of the runs in which no context switch stores a zero in the place of its own return value
(`SavesNonzero`): a context with a zero in the low half of `rax` is taken for one that was just
filled when it is jumped to, and two threads come to be on one fiber (`exists_shared`). No signal
handler runs inside `ult_switch_to`.

## Main results

- `mirrors_of_run` — the contexts and the threads show the fibers of that machine
- `one_thread_per_fiber` — the lock of a fiber is held by one thread, which alone works on it
- `registers_private` — a thread on a fiber has the registers of the fiber
- `entry_runs_once` — a created fiber runs its own entry point, first of all and once
-/

namespace Fibers.Testbed.Ult

open Jmp (Registers)

variable {Fx : Type}

/-! ## The machine -/

structure Fiber (Fx : Type) where
  regs : Registers Fx
  pending : Option Start

/-- The entry point behind a context switch. -/
def Site.start : Site → Option Start
  | .boot start => some start
  | _ => none

/-- The entry point that a thread is about to leave behind. -/
def Pc.start : Pc → Option Start
  | .booting start => some start
  | .booted start => some start
  | _ => none

/-- The fiber that a thread reaches with this step, out of a context switch. -/
def arrival (e : Entry (State Fx) (ℕ × Act Fx)) : Option ℕ :=
  match e.act.2, (e.pre.thread e.act.1).pc, (e.post.thread e.act.1).pc with
  | .advance, .released _, .user => (e.post.thread e.act.1).stack
  | _, _, _ => none

/-- What the thread runs behind the context switch, if it is an entry point. -/
def began (e : Entry (State Fx) (ℕ × Act Fx)) (f : ℕ) : Option Start :=
  (e.pre.context f).bind fun c => c.site.start

/-- The fibers after a history. -/
def fibers : History Fx → ℕ → Option (Fiber Fx)
  | [] => fun _ => none
  | e :: past =>
    let m := fibers past
    let th := e.pre.thread e.act.1
    match e.act.2 with
    | .compute regs =>
      th.working.elim m fun f => Function.update m f ((m f).map fun x => { x with regs := regs })
    | .convert f => Function.update m f (some ⟨th.regs, none⟩)
    | .create f start regs => Function.update m f (some ⟨withRax regs 1, some start⟩)
    | .switchTo _ => m
    | .advance =>
      (arrival e).elim m fun f => Function.update m f ((m f).map fun x => { x with pending := none })

/-- The fiber as the machine has it: in the thread that works on it, in the context with which it
is brought up, in the context in which it waits. -/
def mirror (m : ℕ → Option (Fiber Fx)) (f : ℕ) : View Fx where
  working := fun th => m f = some ⟨th.regs, th.pc.start⟩
  newborn := fun th c => m f = some ⟨withRax c.regs 1, th.creat.map Prod.snd⟩
  parked := fun c => m f = some ⟨c.regs, c.site.start⟩

variable {s s' : State Fx} {t f : ℕ} {m : ℕ → Option (Fiber Fx)} {u : UltT Fx} {site : Site}

theorem start_of_site {pc : Pc} (hpc : pc.site = some site) : pc.start = site.start := by
  cases pc with
  | entered src dst =>
    cases hpc
    rfl
  | created context =>
    cases hpc
    rfl
  | booted start =>
    cases hpc
    rfl
  | _ => cases hpc

@[simp] theorem withRax_rax (r : Registers Fx) : withRax r (rax r) = r := by
  simp [withRax, rax]

theorem mirror_update_of_ne {g : ℕ} (hg : g ≠ f) (x : Option (Fiber Fx)) :
    mirror (Function.update m f x) g = mirror m g := by
  simp [mirror, hg]

theorem base_of_stack {th : Thread Fx} (h : th.stack = some f)
    (hstay : ∀ site, th.pc ≠ .released site) : th.base = some f := by
  cases hp : th.pc with
  | released site => exact absurd hp (hstay site)
  | _ => simpa [Thread.base, hp] using h

/-! ## Every step shows the fibers -/

theorem mirror_initial (regs : ℕ → Registers Fx) :
    Cover (mirror fun _ => none) (initial regs) :=
  ⟨by simp [initial, Thread.working], by simp [initial, Thread.newborn, Pc.site],
    by simp [initial, State.context]⟩

/-- A thread computes on its fiber. -/
theorem mirror_compute (h : Cover (mirror m) s) (hi : Inv s) {th : Thread Fx} (regs : Registers Fx)
    (hth : th = { s.thread t with regs := regs }) (hf : (s.thread t).working = some f) :
    Cover (mirror (Function.update m f ((m f).map fun x => { x with regs := regs })))
      (s.setThread t th) := by
  subst hth
  have hm : m f = some ⟨(s.thread t).regs, (s.thread t).pc.start⟩ := h.working t f hf
  have hholds : s.Holds t f := .inl (base_of_working hf)
  refine h.step (fun g => g = f) rfl ?_ (fun g hg => ⟨rfl, mirror_update_of_ne hg _⟩)
    ?_ ?_ ?_
  · rintro g rfl q hq
    exact hi.alone hholds hq
  · intro g hg
    obtain rfl : f = g := Option.some.inj (hf.symm.trans hg)
    simp [mirror, hm]
  · intro g hg
    have hgf : g ≠ f := by
      rintro rfl
      exact (hi.working_ne_newborn hf) hg
    rw [mirror_update_of_ne hgf]
    exact h.newborn t g hg
  · intro g c hold hw hn
    rcases hold with rfl | hold | hold
    · exact absurd hf hw
    · exact absurd hold hw
    · exact absurd hold hn

theorem mirror_convert (h : Cover (mirror m) s) (hi : Inv s) (hpc : (s.thread t).pc = .user)
    (hstack : (s.thread t).stack = none) (hnew : s.ult f = none) :
    Cover (mirror (Function.update m f (some ⟨(s.thread t).regs, none⟩)))
      (({ s with ultId := s.ultId + 1 }.setUlt f
        ⟨true, ⟨(s.thread t).regs, f, .convert⟩, s.ultId⟩).setThread t
          { s.thread t with current := some f, stack := some f }) := by
  have hwas : (s.thread t).working = none := by simp [Thread.working, hpc, hstack]
  have hborn : (s.thread t).newborn = none := by simp [Thread.newborn, hpc, Pc.site]
  refine h.step (fun g => g = f) rfl ?_ (fun g hg => ⟨?_, mirror_update_of_ne hg _⟩)
    ?_ ?_ ?_
  · rintro g rfl q -
    exact hi.unborn hnew q
  · exact context_setUlt_of_ne _ hg
  · intro g hg
    obtain rfl : f = g := by simpa [Thread.working, hpc] using hg
    simp [mirror, hpc, Pc.start]
  · simp [Thread.newborn, hpc, Pc.site]
  · intro g c hold hw
    have hgf : g ≠ f := by
      rintro rfl
      exact hw (by simp [Thread.working, hpc])
    simp [hgf, hwas, hborn] at hold

theorem mirror_create (h : Cover (mirror m) s) (hi : Inv s) {start : Start} (regs : Registers Fx)
    (hpc : (s.thread t).pc = .user) (hnew : s.ult f = none) :
    Cover (mirror (Function.update m f (some ⟨withRax regs 1, some start⟩)))
      (({ s with ultId := s.ultId + 1 }.setUlt f ⟨true, ⟨regs, f, .trampoline⟩, s.ultId⟩).setThread t
        { s.thread t with creat := some (f, start), pc := .created f }) := by
  have hwas : (s.thread t).working = (s.thread t).stack := by simp [Thread.working, hpc]
  have hborn : (s.thread t).newborn = none := by simp [Thread.newborn, hpc, Pc.site]
  refine h.step (fun g => g = f) rfl ?_ (fun g hg => ⟨?_, mirror_update_of_ne hg _⟩)
    ?_ ?_ ?_
  · rintro g rfl q -
    exact hi.unborn hnew q
  · exact context_setUlt_of_ne _ hg
  · intro g hg
    have hold : (s.thread t).working = some g := by simpa [Thread.working, hpc] using hg
    have hgf : g ≠ f := by
      rintro rfl
      exact (hi.unborn hnew t).1 hold
    have hm : m g = some ⟨(s.thread t).regs, (s.thread t).pc.start⟩ := h.working t g hold
    rw [mirror_update_of_ne hgf]
    simpa [mirror, hpc, Pc.start] using hm
  · rintro g hg
    obtain rfl : f = g := by simpa [Thread.newborn, Pc.site, Site.newborn] using hg
    exact ⟨_, context_setUlt_self _, by simp [mirror]⟩
  · intro g c hold hw hn
    have hgf : g ≠ f := by
      rintro rfl
      exact hn (by simp [Thread.newborn, Pc.site, Site.newborn])
    simp only [hgf, hwas, hborn, false_or, reduceCtorEq, or_false] at hold
    exact absurd (by simpa [Thread.working] using hold) hw

/-- A step that leaves the contexts, the registers and the place of its thread. -/
theorem mirror_quiet {th : Thread Fx} (h : Cover (mirror m) s)
    (hthread : s'.thread = Function.update s.thread t th) (hcontext : s'.context = s.context)
    (hw : th.working = (s.thread t).working) (hn : th.newborn = (s.thread t).newborn)
    (hregs : th.regs = (s.thread t).regs) (hstart : th.pc.start = (s.thread t).pc.start)
    (hcreat : th.creat = (s.thread t).creat) : Cover (mirror m) s' := by
  refine h.quiet hthread hcontext hw hn (fun g _ hg => ?_) (fun g c hg => ?_)
  · simpa [mirror, hregs, hstart] using hg
  · simpa [mirror, hcreat] using hg

/-- A context switch saves what the thread had on its fiber. -/
theorem mirror_save (h : Cover (mirror m) s) (hi : Inv s) {old stack : ℕ}
    (hpc : (s.thread t).pc.site = some site) (hold : site.old (s.thread t) = some old)
    (hstack : (s.thread t).stack = some stack) :
    Cover (mirror m) ((s.setUlt old { u with context := ⟨(s.thread t).regs, stack, site⟩ }).setPc t
      (.saved site)) := by
  obtain ⟨hbase, -, hworking, hnewborn⟩ := roles_of_site hpc
  obtain ⟨old', new, hold', hnew, -, hstack', -⟩ := (hi.coherent t).atSwitch hpc
  obtain rfl : old' = old := Option.some.inj (hold'.symm.trans hold)
  obtain rfl : stack = old' := Option.some.inj (hstack.symm.trans hstack')
  have hwas : (s.thread t).working = some stack := hworking.trans hstack
  refine h.step (fun g => g = stack) rfl ?_ (fun g hg => ⟨?_, rfl⟩) ?_ ?_ ?_
  · rintro g rfl q hq
    exact hi.alone (.inl (base_of_working hwas)) hq
  · exact context_setUlt_of_ne _ hg
  · simp [Thread.working]
  · intro g hg
    have hborn : (s.thread t).newborn = some g := hnewborn.trans hg
    have hgf : g ≠ stack := by
      rintro rfl
      exact hi.working_ne_newborn hwas hborn
    obtain ⟨c, hc, hview⟩ := h.newborn t g hborn
    exact ⟨c, (context_setUlt_of_ne _ hgf).trans hc, hview⟩
  · intro g c hg hw hn hc
    have hgf : g = stack := by
      rcases hg with hg | hg | hg
      · exact hg
      · exact Option.some.inj (hg.symm.trans hwas)
      · exact absurd (hnewborn.symm.trans hg) hn
    subst hgf
    obtain rfl := Option.some.inj ((context_setUlt_self _).symm.trans hc)
    have hm : m g = some ⟨(s.thread t).regs, (s.thread t).pc.start⟩ := h.working t g hwas
    rw [start_of_site hpc] at hm
    exact hm

/-- The fiber that a context switch goes back to. -/
theorem mirror_of_released (h : Cover (mirror m) s) (hi : Inv s)
    (hpc : (s.thread t).pc = .released site) (hnew : site.new (s.thread t) = some f)
    (hu : s.ult f = some u) (hborn : site.newborn = none) :
    m f = some ⟨u.context.regs, u.context.site.start⟩ := by
  have hwaits := hi.waits hpc hnew hborn
  exact h.parked f u.context (context_of_ult hu) (fun q => (hwaits q).1) fun q => (hwaits q).2

/-- A context switch ends on the fiber that it goes to. -/
theorem mirror_jump (h : Cover (mirror m) s) (hi : Inv s) {pc : Pc}
    (hpc : (s.thread t).pc = .released site) (hnew : site.new (s.thread t) = some f)
    (hu : s.ult f = some u)
    (hresume : resume (s.thread t) (site.value u.context) u.context.site = some pc) :
    Cover (mirror (if pc = .user then
        Function.update m f ((m f).map fun x => { x with pending := none }) else m))
      (s.setThread t { s.thread t with
        regs := withRax u.context.regs (site.value u.context)
        stack := some u.context.stack
        pc := pc }) := by
  obtain ⟨hstack, hland⟩ := hi.jump_lands hpc hnew hu hresume
  have hbase : (s.thread t).base = some f := by simpa [Thread.base, hpc] using hnew
  have hnone : (s.thread t).working = none := by simp [Thread.working, hpc]
  have hborn : ∀ g, (s.thread t).newborn = some g → g = f := by
    intro g hg
    have hat := hi.coherent t
    simp only [Thread.Coherent, hpc] at hat
    have hng : site.newborn = some g := by simpa [Thread.newborn, hpc] using hg
    exact Option.some.inj ((hat.new_of_newborn hng).symm.trans hnew)
  rw [hstack]
  refine h.step (fun g => g = f) rfl ?_ (fun g hg => ⟨rfl, ?_⟩) ?_ ?_ ?_
  · rintro g rfl q hq
    exact hi.alone (.inl hbase) hq
  · split
    · exact mirror_update_of_ne hg _
    · rfl
  · intro g hg
    rcases hland with ⟨rfl, -, hb, hvalue⟩ | ⟨start, old, rfl, rfl, -, -, hcreat⟩
    · obtain rfl : f = g := Option.some.inj hg
      have hm := mirror_of_released h hi hpc hnew hu hb
      simp [mirror, hm, hvalue, Pc.start]
    · obtain rfl : f = g := Option.some.inj hg
      obtain ⟨c, hc, hm⟩ := h.newborn t f (by simp [Thread.newborn, hpc, Site.newborn])
      obtain rfl : c = u.context := Option.some.inj (hc.symm.trans (context_of_ult hu))
      simpa [mirror, hcreat, Site.value, Pc.start] using hm
  · rcases hland with ⟨rfl, -⟩ | ⟨start, old, rfl, rfl, -⟩ <;> simp [Thread.newborn, Pc.site]
  · intro g c hg hw
    have hgf : g = f := by
      rcases hg with hg | hg | hg
      · exact hg
      · exact absurd hg (by simp [hnone])
      · exact hborn g hg
    subst hgf
    rcases hland with ⟨rfl, -⟩ | ⟨start, old, rfl, rfl, -⟩ <;> exact absurd rfl hw

/-- The machine follows each step. -/
theorem StepCase.mirrors {a : Act Fx} (hs : StepCase s t a s') (hi : Inv s) {past : History Fx}
    (h : Cover (mirror (fibers past)) s) :
    Cover (mirror (fibers (⟨s, (t, a), s'⟩ :: past))) s' := by
  cases hs with
  | compute regs =>
    cases hw : (s.thread t).working with
    | none =>
      -- what a thread computes between two fibers is lost with the next jump
      simp only [fibers, hw, Option.elim_none]
      have hthread : (s.setThread t { s.thread t with regs := regs }).thread =
          Function.update s.thread t { s.thread t with regs := regs } := rfl
      refine h.quiet hthread rfl rfl rfl (fun g hg => ?_) (fun g c => id)
      rw [hw] at hg
      cases hg
    | some f =>
      have hm := mirror_compute h hi regs rfl hw
      simpa [fibers, hw] using hm
  | convert hpc hstack hnew => exact mirror_convert h hi hpc hstack hnew
  | create hpc hstack hnew => exact mirror_create h hi _ hpc hnew
  | ignored hpc => exact h
  | take hpc hcurrent hu hfree =>
    refine mirror_quiet h rfl (context_setUlt_of_same hu true) ?_ ?_ rfl ?_ rfl
    · simp [Thread.working, State.setUlt, hpc]
    · simp [Thread.newborn, hpc, Pc.site]
    · simp [hpc, Pc.start]
  | enter hpc =>
    simp only [fibers, arrival, hpc, Option.elim_none]
    refine mirror_quiet h rfl rfl ?_ ?_ rfl ?_ rfl
    · simp [Thread.working, hpc]
    · simp [Thread.newborn, hpc, Pc.site, Site.newborn]
    · simp [hpc, Pc.start]
  | lock hpc hcurrent hu hfree =>
    simp only [fibers, arrival, hpc, Option.elim_none]
    refine mirror_quiet h rfl (context_setUlt_of_same hu true) ?_ ?_ rfl ?_ rfl
    · simp [Thread.working, State.setUlt, hpc]
    · simp [Thread.newborn, hpc, Pc.site, Site.newborn]
    · simp [hpc, Pc.start]
  | save hpc hold hu hstack =>
    have harrival : ∀ s', arrival ⟨s, (t, .advance), s'⟩ = none := by
      intro s'
      cases hp : (s.thread t).pc with
      | released site =>
        rw [hp] at hpc
        cases hpc
      | _ => simp [arrival, hp]
    simp only [fibers, harrival, Option.elim_none]
    exact mirror_save h hi hpc hold hstack
  | unlock hpc hold hu =>
    simp only [fibers, arrival, hpc, Option.elim_none]
    refine mirror_quiet h rfl (context_setUlt_of_same hu false) ?_ ?_ rfl ?_ rfl
    · simp [Thread.working, hpc]
    · simp [Thread.newborn, hpc]
    · simp [hpc, Pc.start]
  | @jump site new u pc hpc hnew hu hresume =>
    have hm := mirror_jump h hi hpc hnew hu hresume
    obtain ⟨hstack, hland⟩ := hi.jump_lands hpc hnew hu hresume
    rcases hland with ⟨rfl, -⟩ | ⟨start, old, rfl, rfl, -⟩
    · simpa [fibers, arrival, hpc, State.setThread, hstack] using hm
    · simpa [fibers, arrival, hpc, State.setThread, hstack] using hm

theorem mirrors_of_run {regs : ℕ → Registers Fx} {h : History Fx} {s : State Fx}
    (hr : Run Step (initial regs) h s) (hz : EveryEntry SavesNonzero h) :
    Cover (mirror (fibers h)) s := by
  induction hr with
  | start => exact mirror_initial regs
  | next hr hs ih => exact (step_cases hs).mirrors (inv_of_run hr hz.2) (ih hz.2)

/-! ## Who is on which fiber -/

/-- In every interleaving without a zero in the place of a return value (`SavesNonzero`) and without
a signal handler inside `ult_switch_to`, the flag of a fiber is set exactly while one thread has it.
A thread in its own code is on its current fiber. Of two threads on the stack of one fiber, one is
behind the unlock of its context switch. -/
theorem one_thread_per_fiber {regs : ℕ → Registers Fx} {h : History Fx} {s : State Fx}
    (hr : Run Step (initial regs) h s) (hz : EveryEntry SavesNonzero h) :
    (∀ f, s.running f = true ↔ ∃! t, s.Holds t f) ∧
      (∀ t, (s.thread t).pc = .user → (s.thread t).current = (s.thread t).stack) ∧
      ∀ t t' f, (s.thread t).stack = some f → (s.thread t').stack = some f → t ≠ t' →
        (∃ site, (s.thread t).pc = .released site) ∨ ∃ site, (s.thread t').pc = .released site := by
  have hi := inv_of_run hr hz
  refine ⟨fun f => ⟨fun hrun => ?_, fun hrun => ?_⟩, fun t hpc => ?_, fun t t' f ht ht' hne => ?_⟩
  · obtain ⟨t, ht⟩ := hi.locks.running_iff.mp hrun
    exact ⟨t, ht, fun t' ht' => hi.locks.unique ht' ht⟩
  · exact hi.locks.running_iff.mpr hrun.exists
  · have hcoherent := hi.coherent t
    simpa [Thread.Coherent, hpc] using hcoherent
  · by_contra hcon
    obtain ⟨hstay, hstay'⟩ := not_or.mp hcon
    have hbase := base_of_stack ht fun site hp => hstay ⟨site, hp⟩
    have hbase' := base_of_stack ht' fun site hp => hstay' ⟨site, hp⟩
    exact hne (hi.locks.unique (.inl hbase) (.inl hbase'))

/-- Registers with one value in all of them. -/
def filled (val : BitVec 64) : Registers Unit :=
  ⟨fun _ => val, ⟨false, false, false, false, false, false⟩, (), 0⟩

/-- The first thread creates a fiber, the second one goes there and computes. -/
def handedOver : List (ℕ × Act Unit) :=
  [(0, .convert 0), (1, .convert 1), (0, .create 2 ⟨100, 7⟩ (filled 5))] ++
    List.replicate 7 (0, .advance) ++ (1, .switchTo (some 2)) :: List.replicate 4 (1, .advance) ++
    [(1, .compute (filled 9)), (0, .switchTo (some 2))]

def execute (h : History Unit) (s : State Unit) (acts : List (ℕ × Act Unit)) :
    Option (History Unit × State Unit) :=
  Run.execute (fun s a => s.step a.1 a.2) h s acts

theorem exists_handedOver : ∃ h s, execute [] (initial fun _ => filled 1) handedOver = some (h, s) ∧
    EveryEntry SavesNonzero h ∧ (s.thread 1).working = some 2 ∧ s.running 2 = true := by
  obtain ⟨h, s, he, hc⟩ := Run.exists_execute (fun s a => s.step a.1 a.2)
    (initial fun _ => filled 1) handedOver
    (fun h s => decide (EveryEntry SavesNonzero h ∧ (s.thread 1).working = some 2 ∧
      s.running 2 = true)) (by decide)
  exact ⟨h, s, he, of_decide_eq_true hc⟩

theorem one_thread_per_fiber_handedOver : ∃ h s,
    execute [] (initial fun _ => filled 1) handedOver = some (h, s) ∧ s.running 2 = true ∧
      ((∀ f, s.running f = true ↔ ∃! t, s.Holds t f) ∧
      (∀ t, (s.thread t).pc = .user → (s.thread t).current = (s.thread t).stack) ∧
      ∀ t t' f, (s.thread t).stack = some f → (s.thread t').stack = some f → t ≠ t' →
        (∃ site, (s.thread t).pc = .released site) ∨
          ∃ site, (s.thread t').pc = .released site) := by
  obtain ⟨h, s, he, hz, -, hrunning⟩ := exists_handedOver
  exact ⟨h, s, he, hrunning, one_thread_per_fiber (Run.of_execute handedOver .start he) hz⟩

/-- The first thread creates a fiber with a zero in `rax` and goes there; the second one follows. -/
def shared : List (ℕ × Act Unit) :=
  [(0, .convert 0), (1, .convert 1), (0, .create 2 ⟨100, 7⟩ (filled 5))] ++
    List.replicate 9 (0, .advance) ++ (1, .switchTo (some 2)) :: List.replicate 4 (1, .advance)

/-- A zero in the place of the return value puts two threads on one fiber. -/
theorem exists_shared : ∃ h s, execute [] (initial fun _ => filled 0) shared = some (h, s) ∧
    ((s.thread 0).pc = .user ∧ (s.thread 0).stack = some 2) ∧
      (s.thread 1).pc = .user ∧ (s.thread 1).stack = some 2 := by
  obtain ⟨h, s, he, hc⟩ := Run.exists_execute (fun s a => s.step a.1 a.2)
    (initial fun _ => filled 0) shared
    (fun _ s => decide (((s.thread 0).pc = .user ∧ (s.thread 0).stack = some 2) ∧
      (s.thread 1).pc = .user ∧ (s.thread 1).stack = some 2)) (by decide)
  exact ⟨h, s, he, of_decide_eq_true hc⟩

theorem Inv.ult_of_holds (hi : Inv s) (hf : s.Holds t f) : ∃ u, s.ult f = some u := by
  have hrunning := hi.locks.running_iff.mpr ⟨t, hf⟩
  cases hu : s.ult f with
  | none =>
    rw [State.running, hu] at hrunning
    cases hrunning
  | some u => exact ⟨u, rfl⟩

/-- A context switch finds its variables, its fiber and its stack. -/
theorem Inv.save_isSome (hi : Inv s) (hpc : (s.thread t).pc.site = some site) :
    (s.save t site).isSome := by
  obtain ⟨hbase, -⟩ := roles_of_site hpc
  obtain ⟨old, new, hold, hnew, -, hstack, -⟩ := (hi.coherent t).atSwitch hpc
  obtain ⟨u, hu⟩ := hi.ult_of_holds (.inl (hbase.trans hstack))
  simp [State.save, hold, hu, hstack]

/-- A context switch can go on with the context that it finds. -/
theorem Inv.jump_isSome (hi : Inv s) (hpc : (s.thread t).pc = .released site) :
    (s.jump t site).isSome := by
  have hat := hi.coherent t
  simp only [Thread.Coherent, hpc] at hat
  obtain ⟨old, new, hold, hnew, -, hstack, hmatch⟩ := hat
  have hbase : (s.thread t).base = some new := by simpa [Thread.base, hpc] using hnew
  obtain ⟨u, hu⟩ := hi.ult_of_holds (.inl hbase)
  suffices hresume : (resume (s.thread t) (site.value u.context) u.context.site).isSome by
    obtain ⟨pc, hp⟩ := Option.isSome_iff_exists.mp hresume
    simp [State.jump, hnew, hu, hp]
  cases hb : site.newborn with
  | none =>
    have hwaits := hi.waits hpc hnew hb
    have hparked := hi.cover.parked new u.context (context_of_ult hu) (fun q => (hwaits q).1)
      fun q => (hwaits q).2
    have hsite := hparked.site
    cases hs : u.context.site with
    | trampoline => exact absurd hs hsite
    | _ => cases hz : returnsZero (site.value u.context) <;> simp [resume, hz]
  | some f =>
    cases site with
    | create context =>
      obtain rfl : context = new := Option.some.inj hnew
      obtain ⟨start, hcreat⟩ := hmatch
      obtain ⟨c, hc, -, hcsite⟩ := hi.cover.newborn t context (by
        simp [Thread.newborn, hpc, Site.newborn])
      obtain rfl : c = u.context := Option.some.inj (hc.symm.trans (context_of_ult hu))
      have hone : returnsZero 1#64 = false := by decide
      simp [resume, Site.value, hone, hcsite, hcreat]
    | _ => cases hb

theorem StepCase.ult_ne_none {a : Act Fx} (hs : StepCase s t a s') (hf : s.ult f ≠ none) :
    s'.ult f ≠ none := by
  have hset : ∀ (r : State Fx) g u, r.ult f ≠ none → (r.setUlt g u).ult f ≠ none := by
    intro r g u hr
    by_cases hg : f = g
    · simp [State.setUlt, hg]
    · simpa [State.setUlt, hg] using hr
  cases hs with
  | compute regs => exact hf
  | convert => exact hset _ _ _ hf
  | create => exact hset _ _ _ hf
  | ignored => exact hf
  | take => exact hset _ _ _ hf
  | enter => exact hf
  | lock => exact hset _ _ _ hf
  | save => exact hset _ _ _ hf
  | unlock => exact hset _ _ _ hf
  | jump => exact hf

/-- A thread gets a current fiber that has been made. -/
theorem StepCase.current {a : Act Fx} (hs : StepCase s t a s') (hi : Inv s) {q : ℕ}
    (hf : (s'.thread q).current = some f) : (s.thread q).current = some f ∨ s'.ult f ≠ none := by
  by_cases hq : q = t
  · subst hq
    cases hs with
    | convert =>
      obtain rfl := by simpa [State.setThread] using hf
      exact .inr (by simp [State.setThread, State.setUlt])
    | @enter src dst hpc =>
      obtain rfl : dst = f := by simpa [State.setThread] using hf
      obtain ⟨u, hu⟩ := hi.ult_of_holds (t := q) (f := dst) (.inr (by simp [Thread.target, hpc]))
      exact .inr (by simp [State.setThread, hu])
    | ignored => exact .inl hf
    | _ => exact .inl (by simpa [State.setThread, State.setPc, State.setUlt] using hf)
  · left
    cases hs with
    | ignored => exact hf
    | _ => simpa [State.setThread, State.setPc, State.setUlt, hq] using hf

theorem current_of_run {regs : ℕ → Registers Fx} {h : History Fx} {s : State Fx}
    (hr : Run Step (initial regs) h s) (hz : EveryEntry SavesNonzero h)
    (hf : (s.thread t).current = some f) : s.ult f ≠ none := by
  induction hr with
  | start => cases hf
  | next hr hs ih =>
    have hstep := step_cases hs
    rcases hstep.current (inv_of_run hr hz.2) hf with hold | hnew
    · exact hstep.ult_ne_none (ih hz.2 hold)
    · exact hnew

/-- In every interleaving without a zero in the place of a return value (`SavesNonzero`) and without
a signal handler inside `ult_switch_to`, a thread inside the library can take its next step, unless
it waits for the fiber to which a new fiber goes back and which another thread has entered. -/
theorem advances_or_waits {regs : ℕ → Registers Fx} {h : History Fx} {s : State Fx}
    (hr : Run Step (initial regs) h s) (hz : EveryEntry SavesNonzero h) {t : ℕ}
    (hpc : (s.thread t).pc ≠ .user) :
    (∃ s', Step s (t, .advance) s') ∨
      ∃ start f t', (s.thread t).pc = .booting start ∧ (s.thread t).current = some f ∧ t' ≠ t ∧
        s.Holds t' f := by
  have hi := inv_of_run hr hz
  have hstep : (s.advance t).isSome → ∃ s', Step s (t, .advance) s' := by
    intro hs
    exact Option.isSome_iff_exists.mp hs
  have hcoherent := hi.coherent t
  cases hp : (s.thread t).pc with
  | user => exact absurd hp hpc
  | taken src dst => exact .inl (hstep (by simp [State.advance, hp]))
  | entered src dst =>
    exact .inl (hstep (by simpa [State.advance, hp] using hi.save_isSome (by rw [hp]; rfl)))
  | created context =>
    exact .inl (hstep (by simpa [State.advance, hp] using hi.save_isSome (by rw [hp]; rfl)))
  | booted start =>
    exact .inl (hstep (by simpa [State.advance, hp] using hi.save_isSome (by rw [hp]; rfl)))
  | booting start =>
    simp only [Thread.Coherent, hp] at hcoherent
    obtain ⟨old, new, hstack, hcurrent, hne, hcreat⟩ := hcoherent
    cases hrunning : s.running new with
    | false =>
      obtain ⟨u, hu⟩ := Option.ne_none_iff_exists'.mp (current_of_run hr hz hcurrent)
      have hfree : u.running = false := (running_of_ult hu).symm.trans hrunning
      exact .inl (hstep (by simp [State.advance, hp, hcurrent, State.lock, hu, hfree]))
    | true =>
      obtain ⟨t', ht'⟩ := hi.locks.running_iff.mp hrunning
      refine .inr ⟨start, new, t', rfl, hcurrent, ?_, ht'⟩
      -- the thread itself is on the new fiber
      rintro rfl
      rcases ht' with hbase | htarget
      · exact hne (by simpa [Thread.base, hp, hstack] using hbase)
      · simp [Thread.target, hp, Pc.site] at htarget
  | saved site =>
    simp only [Thread.Coherent, hp] at hcoherent
    obtain ⟨old, new, hold, hnew, -, hstack, -⟩ := hcoherent
    have hbase : (s.thread t).base = some old := by simpa [Thread.base, hp] using hstack
    obtain ⟨u, hu⟩ := hi.ult_of_holds (.inl hbase)
    exact .inl (hstep (by simp [State.advance, hp, State.unlock, hold, hu]))
  | released site =>
    exact .inl (hstep (by simpa [State.advance, hp] using hi.jump_isSome hp))

theorem advances_or_waits_created : ∃ h s,
    execute [] (initial fun _ => filled 1) [(0, .convert 0), (0, .create 1 ⟨100, 7⟩ (filled 5))] =
        some (h, s) ∧
      ((∃ s', Step s (0, .advance) s') ∨
        ∃ start f t', (s.thread 0).pc = .booting start ∧ (s.thread 0).current = some f ∧ t' ≠ 0 ∧
          s.Holds t' f) := by
  obtain ⟨h, s, he, hc⟩ := Run.exists_execute (fun s a => s.step a.1 a.2)
    (initial fun _ => filled 1) [(0, .convert 0), (0, .create 1 ⟨100, 7⟩ (filled 5))]
    (fun h s => decide (EveryEntry SavesNonzero h ∧ (s.thread 0).pc ≠ .user)) (by decide)
  obtain ⟨hz, hpc⟩ := of_decide_eq_true hc
  exact ⟨h, s, he, advances_or_waits (Run.of_execute _ .start he) hz hpc⟩

/-! ## The registers of a fiber -/

/-- In every interleaving without a zero in the place of a return value (`SavesNonzero`) and without
a signal handler inside `ult_switch_to`, a thread that works on a fiber has exactly the registers of
the fiber. -/
theorem registers_private {regs : ℕ → Registers Fx} {h : History Fx} {s : State Fx}
    (hr : Run Step (initial regs) h s) (hz : EveryEntry SavesNonzero h) {t f : ℕ}
    (hf : (s.thread t).working = some f) :
    (fibers h f).map Fiber.regs = some (s.thread t).regs := by
  have hm : fibers h f = some ⟨(s.thread t).regs, (s.thread t).pc.start⟩ :=
    (mirrors_of_run hr hz).working t f hf
  rw [hm]
  rfl

theorem registers_private_handedOver : ∃ h s,
    execute [] (initial fun _ => filled 1) handedOver = some (h, s) ∧
      (fibers h 2).map Fiber.regs = some (s.thread 1).regs := by
  obtain ⟨h, s, he, hz, hf, -⟩ := exists_handedOver
  exact ⟨h, s, he, registers_private (Run.of_execute handedOver .start he) hz hf⟩

/-! ## The entry point of a fiber -/

def pending (h : History Fx) (f : ℕ) : Option Start := (fibers h f).bind Fiber.pending

/-- What is run on a fiber behind the context switches that reach it, the latest first. -/
def arrivals (f : ℕ) : History Fx → List (Option Start)
  | [] => []
  | e :: past => if arrival e = some f then began e f :: arrivals f past else arrivals f past

theorem StepCase.creates {start : Start} {regs : Registers Fx}
    (hs : StepCase s t (.create f start regs) s') : s.ult f = none ∧ s'.ult f ≠ none := by
  cases hs with
  | create _ _ hnew => exact ⟨hnew, by simp [State.setThread, State.setUlt]⟩

/-- Only a jump reaches a fiber, one that has been made and that waits. -/
theorem StepCase.arrives {a : Act Fx} (hs : StepCase s t a s') (hi : Inv s)
    (ha : arrival ⟨s, (t, a), s'⟩ = some f) :
    ∃ site u, (s.thread t).pc = .released site ∧ site.new (s.thread t) = some f ∧
      s.ult f = some u ∧ site.newborn = none := by
  cases hs with
  | @jump site new u pc hpc hnew hu hresume =>
    obtain ⟨hstack, ⟨rfl, -, hborn, -⟩ | ⟨start, old, rfl, rfl, -⟩⟩ := hi.jump_lands hpc hnew hu hresume
    · obtain rfl : new = f := by simpa [arrival, hpc, State.setThread, hstack] using ha
      exact ⟨site, u, hpc, hnew, hu, hborn⟩
    · simp [arrival, hpc, State.setThread] at ha
  | enter hpc => simp [arrival, hpc] at ha
  | lock hpc => simp [arrival, hpc] at ha
  | save hpc =>
    cases hp : (s.thread t).pc with
    | released site =>
      rw [hp] at hpc
      cases hpc
    | _ => simp [arrival, hp] at ha
  | unlock hpc => simp [arrival, hpc] at ha
  | _ => cases ha

theorem pending_update_of_ne {past : History Fx} {g : ℕ} (hg : f ≠ g) (x : Option (Fiber Fx)) :
    (Function.update (fibers past) g x f).bind Fiber.pending = pending past f := by
  rw [Function.update_of_ne hg]
  rfl

/-- A step reaches a fiber with what the fiber has still to run; any other step leaves that. -/
theorem StepCase.runs {a : Act Fx} (hs : StepCase s t a s') (hi : Inv s) {past : History Fx}
    (h : Cover (mirror (fibers past)) s) (hf : s.ult f ≠ none) :
    arrival ⟨s, (t, a), s'⟩ = some f ∧ began ⟨s, (t, a), s'⟩ f = pending past f ∧
        pending (⟨s, (t, a), s'⟩ :: past) f = none ∨
      arrival ⟨s, (t, a), s'⟩ ≠ some f ∧
        pending (⟨s, (t, a), s'⟩ :: past) f = pending past f := by
  cases a with
  | compute regs =>
    refine .inr ⟨nofun, ?_⟩
    cases hw : (s.thread t).working with
    | none => simp [pending, fibers, hw]
    | some g =>
      by_cases hg : f = g
      · subst hg
        cases hm : fibers past f <;> simp [pending, fibers, hw, hm]
      · simpa [pending, fibers, hw] using pending_update_of_ne hg _
  | convert g =>
    refine .inr ⟨nofun, pending_update_of_ne ?_ _⟩
    rintro rfl
    cases hs with
    | convert _ _ hnew => exact hf hnew
  | create g start regs =>
    refine .inr ⟨nofun, pending_update_of_ne ?_ _⟩
    rintro rfl
    exact hf hs.creates.1
  | switchTo ult => exact .inr ⟨nofun, rfl⟩
  | advance =>
    cases ha : arrival ⟨s, (t, .advance), s'⟩ with
    | none => exact .inr ⟨nofun, by simp [pending, fibers, ha]⟩
    | some g =>
      by_cases hg : f = g
      · subst hg
        obtain ⟨site, u, hpc, hnew, hu, hborn⟩ := hs.arrives hi ha
        have hm := mirror_of_released h hi hpc hnew hu hborn
        refine .inl ⟨rfl, ?_, by simp [pending, fibers, ha, hm]⟩
        simp [began, pending, hm, context_of_ult hu]
      · refine .inr ⟨fun he => hg (Option.some.inj he).symm, ?_⟩
        simpa [pending, fibers, ha] using pending_update_of_ne hg _

/-- Nothing runs on a fiber before it is made. -/
theorem arrivals_of_new {regs : ℕ → Registers Fx} {h : History Fx} {s : State Fx}
    (hr : Run Step (initial regs) h s) (hz : EveryEntry SavesNonzero h) (hf : s.ult f = none) :
    arrivals f h = [] := by
  induction hr with
  | start => rfl
  | @next h s s' a hr hs ih =>
    have hstep := step_cases hs
    have hold : s.ult f = none := by
      by_contra hne
      exact hstep.ult_ne_none hne hf
    have harrival : arrival ⟨s, a, s'⟩ ≠ some f := by
      intro ha
      obtain ⟨site, u, -, -, hu, -⟩ := hstep.arrives (inv_of_run hr hz.2) ha
      rw [hold] at hu
      cases hu
    rw [arrivals, if_neg harrival]
    exact ih hz.2 hold

/-- What a fiber has run since it was made, with what it has still to run. -/
theorem arrivals_since {regs : ℕ → Registers Fx} {later past : History Fx} {s s₁ s₂ : State Fx}
    {t : ℕ} {start : Start} {handler : Registers Fx}
    (hr : Run Step (initial regs) (later ++ ⟨s₁, (t, .create f start handler), s₂⟩ :: past) s)
    (hz : EveryEntry SavesNonzero (later ++ ⟨s₁, (t, .create f start handler), s₂⟩ :: past)) :
    s.ult f ≠ none ∧
      (arrivals f later = [] ∧
          pending (later ++ ⟨s₁, (t, .create f start handler), s₂⟩ :: past) f = some start ∨
        ∃ n, arrivals f later = List.replicate n none ++ [some start] ∧
          pending (later ++ ⟨s₁, (t, .create f start handler), s₂⟩ :: past) f = none) := by
  induction later generalizing s with
  | nil =>
    cases hr with
    | next hr hs =>
      have hstep : StepCase s₁ t (.create f start handler) s₂ := step_cases hs
      refine ⟨hstep.creates.2, .inl ⟨rfl, ?_⟩⟩
      simp [pending, fibers]
  | cons e later ih =>
    rw [List.cons_append] at hr hz ⊢
    cases hr with
    | @next _ s₀ _ a hr hs =>
      obtain ⟨hf, hran⟩ := ih hr hz.2
      have hstep := step_cases hs
      have hruns := hstep.runs (inv_of_run hr hz.2) (mirrors_of_run hr hz.2) hf
      refine ⟨hstep.ult_ne_none hf, ?_⟩
      rcases hruns with ⟨ha, hbegan, hpending⟩ | ⟨ha, hpending⟩
      · have harrivals : arrivals f (⟨s₀, a, s⟩ :: later) = began ⟨s₀, a, s⟩ f :: arrivals f later := by
          rw [arrivals, if_pos ha]
        right
        rcases hran with ⟨hnone, hstart⟩ | ⟨n, hn, hdone⟩
        · refine ⟨0, ?_, hpending⟩
          rw [harrivals, hnone, hbegan, hstart]
          rfl
        · refine ⟨n + 1, ?_, hpending⟩
          rw [harrivals, hn, hbegan, hdone]
          rfl
      · have harrivals : arrivals f (⟨s₀, a, s⟩ :: later) = arrivals f later := by
          rw [arrivals, if_neg ha]
        rw [harrivals]
        rcases hran with ⟨hnone, hstart⟩ | ⟨n, hn, hdone⟩
        · exact .inl ⟨hnone, hpending.trans hstart⟩
        · exact .inr ⟨n, hn, hpending.trans hdone⟩

/-- In every interleaving without a zero in the place of a return value (`SavesNonzero`) and without
a signal handler inside `ult_switch_to`, a created fiber runs its entry point when it is reached for
the first time, and never again. -/
theorem entry_runs_once {regs : ℕ → Registers Fx} {later past : History Fx} {s s₁ s₂ : State Fx}
    {t : ℕ} {start : Start} {handler : Registers Fx}
    (hr : Run Step (initial regs) (later ++ ⟨s₁, (t, .create f start handler), s₂⟩ :: past) s)
    (hz : EveryEntry SavesNonzero (later ++ ⟨s₁, (t, .create f start handler), s₂⟩ :: past)) :
    arrivals f past = [] ∧
      (arrivals f later = [] ∨
        ∃ n, arrivals f later = List.replicate n none ++ [some start]) := by
  constructor
  · obtain ⟨hpast, hs⟩ := hr.split
    have hstep : StepCase s₁ t (.create f start handler) s₂ := step_cases hs
    exact arrivals_of_new hpast (hz.drop later).2 hstep.creates.1
  · rcases (arrivals_since hr hz).2 with ⟨hnone, -⟩ | ⟨n, hn, -⟩
    · exact .inl hnone
    · exact .inr ⟨n, hn⟩

/-- The thread of a converted fiber creates another one and goes there. -/
def entered : List (ℕ × Act Unit) :=
  List.replicate 7 (0, .advance) ++ (0, .switchTo (some 1)) :: List.replicate 4 (0, .advance)

theorem entry_runs_once_entered : ∃ past s₁ s₂ later s,
    execute [] (initial fun _ => filled 1) [(0, .convert 0)] = some (past, s₁) ∧
      execute (⟨s₁, (0, .create 1 ⟨100, 7⟩ (filled 5)), s₂⟩ :: past) s₂ entered =
        some (later ++ ⟨s₁, (0, .create 1 ⟨100, 7⟩ (filled 5)), s₂⟩ :: past, s) ∧
      (arrivals 1 past = [] ∧
        (arrivals 1 later = [] ∨
          ∃ n, arrivals 1 later = List.replicate n none ++ [some ⟨100, 7⟩])) := by
  obtain ⟨past, s₁, he, hc⟩ := Run.exists_execute (fun s a => s.step a.1 a.2)
    (initial fun _ => filled 1) [(0, .convert 0)]
    (fun past s₁ => (s₁.step 0 (.create 1 ⟨100, 7⟩ (filled 5))).any fun s₂ =>
      (execute (⟨s₁, (0, .create 1 ⟨100, 7⟩ (filled 5)), s₂⟩ :: past) s₂ entered).any fun x =>
        decide (EveryEntry SavesNonzero x.1)) (by decide)
  obtain ⟨s₂, hs, hc⟩ := (Option.any_eq_true _ _).mp hc
  obtain ⟨⟨h, s⟩, hrest, hz⟩ := (Option.any_eq_true _ _).mp hc
  obtain ⟨later, rfl⟩ := Run.append_of_execute entered hrest
  refine ⟨past, s₁, s₂, later, s, he, hrest, ?_⟩
  have hpast : Run Step (initial fun _ => filled 1) past s₁ := Run.of_execute _ .start he
  have hs : Step s₁ (0, .create 1 ⟨100, 7⟩ (filled 5)) s₂ := hs
  exact entry_runs_once (Run.of_execute entered (hpast.next hs) hrest) (of_decide_eq_true hz)

end Fibers.Testbed.Ult
