import Fibers.Lib.Run
import Fibers.Testbed.Jmp

/-!
# User-level fibers

The fibers of `ult.c`, which the testbed compares with those of the kernel. A fiber is a stack, a
context and a flag that is set while a thread is on the fiber. A thread leaves a fiber in three
steps: `set_jmp` fills its context, its flag is cleared, and `long_jmp` goes on with another
context. The steps of any number of threads interleave.

A context remembers the call of `set_jmp` that filled it. Where `set_jmp` returns an `int` of value
0, the code behind it takes the call for the first return and leaves the fiber again.

`ult_convert` and the part of `ult_creat` up to the lock of the new fiber are one step each, since
until then no other thread knows the fiber. A thread calls `ult_convert` before anything else, and
only once. No signal handler runs inside `ult_switch_to`.

## Main definitions

- `State.advance` — the next step of a thread inside the library
- `Step` — the steps of all threads
-/

namespace Fibers.Testbed.Ult

open Jmp (Registers)

/-! ## Data -/

/-- What `ult_creat` is to run. -/
structure Start where
  entry : BitVec 64
  arg : BitVec 64
  deriving DecidableEq

/-- A call of `set_jmp`, with the local variables of the code behind it. -/
inductive Site
  | convert
  | trampoline
  /-- `context_switch_create` in `context_create` -/
  | create (context : ℕ)
  /-- `context_switch` in `context_create_boot` -/
  | boot (start : Start)
  /-- `context_switch` in `ult_switch_to` -/
  | switch (src dst : ℕ)
  deriving DecidableEq

variable {Fx : Type}

/-- A context, with the fiber whose stack its stack pointer points into. -/
structure Context (Fx : Type) where
  regs : Registers Fx
  stack : ℕ
  site : Site

/-- `ult_t`. -/
structure UltT (Fx : Type) where
  running : Bool
  context : Context Fx
  id : BitVec 32

/-- Where a thread is. -/
inductive Pc
  | user
  /-- in `ult_switch_to`, with the lock of the new fiber -/
  | taken (src dst : ℕ)
  /-- in `ult_switch_to`, before the context switch -/
  | entered (src dst : ℕ)
  /-- in `context_create`, before the context switch -/
  | created (context : ℕ)
  /-- in `context_create_boot`, before the lock of the creating fiber -/
  | booting (start : Start)
  /-- in `context_create_boot`, before the context switch -/
  | booted (start : Start)
  /-- in a context switch, behind `set_jmp` -/
  | saved (site : Site)
  /-- in a context switch, behind `ult_unlock` -/
  | released (site : Site)
  deriving DecidableEq

/-- A thread with its thread-local variables. -/
structure Thread (Fx : Type) where
  current : Option ℕ
  /-- `context_creat`, and `context_creat_func` with `context_creat_arg` -/
  creat : Option (ℕ × Start)
  regs : Registers Fx
  stack : Option ℕ
  pc : Pc

structure State (Fx : Type) where
  ult : ℕ → Option (UltT Fx)
  ultId : BitVec 32
  thread : ℕ → Thread Fx

/-- The threads before their first call. -/
def initial (regs : ℕ → Registers Fx) : State Fx where
  ult := fun _ => none
  ultId := 0
  thread := fun t => ⟨none, none, regs t, none, .user⟩

/-! ## Context switches -/

def rax (r : Registers Fx) : BitVec 64 := r.reg .rax

def withRax (r : Registers Fx) (val : BitVec 64) : Registers Fx :=
  { r with reg := Function.update r.reg .rax val }

/-- `_set_ret`, an `int`, is 0. -/
def returnsZero (val : BitVec 64) : Bool := val.setWidth 32 = 0

/-- `context_old` of a context switch. -/
def Site.old (th : Thread Fx) : Site → Option ℕ
  | .switch src _ => some src
  | .create _ => th.current
  | .boot _ => th.creat.map Prod.fst
  | _ => none

/-- `context_new` of a context switch. -/
def Site.new (th : Thread Fx) : Site → Option ℕ
  | .switch _ dst => some dst
  | .create context => some context
  | .boot _ => th.current
  | _ => none

/-- The context switch that a thread is about to make. -/
def Pc.site : Pc → Option Site
  | .entered src dst => some (.switch src dst)
  | .created context => some (.create context)
  | .booted start => some (.boot start)
  | _ => none

/-- The second argument of `long_jmp`. -/
def Site.value (c : Context Fx) : Site → BitVec 64
  | .create _ => 1
  | _ => rax c.regs

/-- Where the thread goes on when `set_jmp` returns `val`. -/
def resume (th : Thread Fx) (val : BitVec 64) (site : Site) : Option Pc :=
  match site, returnsZero val with
  | .convert, _ => some .user
  -- the signal handler returns a second time
  | .trampoline, true => none
  | .trampoline, false => th.creat.map fun c => .booting c.2
  | .create context, true => some (.saved (.create context))
  | .create _, false => some .user
  | .boot start, true => some (.saved (.boot start))
  | .boot _, false => some .user
  | .switch src dst, true => some (.saved (.switch src dst))
  | .switch _ _, false => some .user

/-- What `_set_jmp` and then `_long_jmp` do to the registers of their caller. -/
theorem registers_longJmp {cpu : X86.Processor Fx} {s s₁ s₂ : X86.State Fx} {p : Words.Addr}
    (h : Jmp.Called s p) (hset : X86.run cpu s Jmp.setJmp = some s₁)
    (henv : s₂.reg .rdi = s.reg .rdi)
    (hkept : Jmp.contextAt s₂.mem (s.reg .rdi) = Jmp.contextAt s₁.mem (s.reg .rdi)) :
    ∃ s₃, X86.run cpu s₂ Jmp.longJmp = some s₃ ∧
      Jmp.registers s₃ = withRax (Jmp.returning s p (s.reg .rax)) (s₂.reg .rsi) := by
  obtain ⟨s₃, hrun, hregs, -⟩ :=
    Jmp.run_longJmp h henv (hkept.trans (Jmp.contextAt_of_run h hset))
  refine ⟨s₃, hrun, hregs.trans ?_⟩
  simp only [withRax, Jmp.returning, Registers.mk.injEq, and_true]
  funext r
  by_cases hr : r = .rax <;> simp [hr]

/-! ## Steps -/

def State.setThread (s : State Fx) (t : ℕ) (th : Thread Fx) : State Fx :=
  { s with thread := Function.update s.thread t th }

def State.setPc (s : State Fx) (t : ℕ) (pc : Pc) : State Fx :=
  s.setThread t { s.thread t with pc := pc }

def State.setUlt (s : State Fx) (f : ℕ) (u : UltT Fx) : State Fx :=
  { s with ult := Function.update s.ult f (some u) }

/-- `set_jmp`. -/
def State.save (s : State Fx) (t : ℕ) (site : Site) : Option (State Fx) := do
  let th := s.thread t
  let old ← site.old th
  let u ← s.ult old
  let stack ← th.stack
  return (s.setUlt old { u with context := ⟨th.regs, stack, site⟩ }).setPc t (.saved site)

/-- `ult_unlock`. -/
def State.unlock (s : State Fx) (t : ℕ) (site : Site) : Option (State Fx) := do
  let old ← site.old (s.thread t)
  let u ← s.ult old
  return (s.setUlt old { u with running := false }).setPc t (.released site)

/-- `long_jmp`. -/
def State.jump (s : State Fx) (t : ℕ) (site : Site) : Option (State Fx) := do
  let th := s.thread t
  let new ← site.new th
  let u ← s.ult new
  let c := u.context
  let pc ← resume th (site.value c) c.site
  return s.setThread t { th with
    regs := withRax c.regs (site.value c)
    stack := some c.stack
    pc := pc }

/-- `ult_lock` of a flag that is clear; a thread waits for a flag that is set. -/
def State.lock (s : State Fx) (t f : ℕ) (pc : Pc) : Option (State Fx) := do
  let u ← s.ult f
  if u.running then none else return (s.setUlt f { u with running := true }).setPc t pc

/-- The next step of a thread inside the library. -/
def State.advance (s : State Fx) (t : ℕ) : Option (State Fx) :=
  let th := s.thread t
  match th.pc with
  | .user => none
  | .taken src dst =>
    some (s.setThread t { th with current := some dst, pc := .entered src dst })
  | .entered src dst => s.save t (.switch src dst)
  | .created context => s.save t (.create context)
  | .booting start => do
    let current ← th.current
    s.lock t current (.booted start)
  | .booted start => s.save t (.boot start)
  | .saved site => s.unlock t site
  | .released site => s.jump t site

/-- `ult_convert`, with the new `ult_t` at `f`. -/
def State.convert (s : State Fx) (t f : ℕ) : Option (State Fx) :=
  let th := s.thread t
  if th.pc = .user ∧ th.stack = none ∧ s.ult f = none then
    some ({ s with ultId := s.ultId + 1 }.setUlt f ⟨true, ⟨th.regs, f, .convert⟩, s.ultId⟩
      |>.setThread t { th with current := some f, stack := some f })
  else none

/-- `ult_creat`, with the new `ult_t` at `f`, up to the lock of the new fiber; `regs` are the
registers in the signal handler, which runs on the new stack. -/
def State.create (s : State Fx) (t f : ℕ) (start : Start) (regs : Registers Fx) :
    Option (State Fx) :=
  let th := s.thread t
  if th.pc = .user ∧ th.stack ≠ none ∧ s.ult f = none then
    some ({ s with ultId := s.ultId + 1 }.setUlt f ⟨true, ⟨regs, f, .trampoline⟩, s.ultId⟩
      |>.setThread t { th with creat := some (f, start), pc := .created f })
  else none

/-- `ult_switch_to` up to its check: it returns to its caller or goes on with the lock. -/
def State.switchTo (s : State Fx) (t : ℕ) (ult : Option ℕ) : Option (State Fx) :=
  let th := s.thread t
  match ult with
  | none => if th.pc = .user then some s else none
  | some dst => do
    let u ← s.ult dst
    let src ← th.current
    if th.pc ≠ .user then none
    else if u.running then return s
    else return (s.setUlt dst { u with running := true }).setPc t (.taken src dst)

inductive Act (Fx : Type)
  /-- the thread computes, in its own code or in that of the library -/
  | compute (regs : Registers Fx)
  | convert (f : ℕ)
  | create (f : ℕ) (start : Start) (regs : Registers Fx)
  | switchTo (ult : Option ℕ)
  | advance

def State.step (s : State Fx) (t : ℕ) : Act Fx → Option (State Fx)
  | .compute regs => some (s.setThread t { s.thread t with regs := regs })
  | .convert f => s.convert t f
  | .create f start regs => s.create t f start regs
  | .switchTo ult => s.switchTo t ult
  | .advance => s.advance t

/-- A step of one thread. -/
def Step (s : State Fx) (a : ℕ × Act Fx) (s' : State Fx) : Prop := s.step a.1 a.2 = some s'

abbrev History (Fx : Type) := List (Entry (State Fx) (ℕ × Act Fx))

/-- No context switch stores a zero in the place of its own return value. It stores what `rax`
happens to hold at the call of `set_jmp`. -/
def SavesNonzero (_ : History Fx) (e : Entry (State Fx) (ℕ × Act Fx)) : Prop :=
  match e.act.2 with
  | .advance =>
    ((e.pre.thread e.act.1).pc.site).isSome →
      returnsZero (rax (e.pre.thread e.act.1).regs) = false
  | _ => True

instance : ∀ (past : History Fx) e, Decidable (SavesNonzero past e)
  | _, ⟨_, (_, .advance), _⟩ => inferInstanceAs (Decidable (_ → _))
  | _, ⟨_, (_, .compute _), _⟩ => isTrue trivial
  | _, ⟨_, (_, .convert _), _⟩ => isTrue trivial
  | _, ⟨_, (_, .create _ _ _), _⟩ => isTrue trivial
  | _, ⟨_, (_, .switchTo _), _⟩ => isTrue trivial

end Fibers.Testbed.Ult
