import Fibers.Isolation

/-!
# The fiber machine

What the device is for, without its tables, locks, states and counters. A process has a machine
of fibers: each of them is parked, with the context where it goes on, or a thread is on it, and
each has slots of its own. A switch parks the fiber of its thread and unparks another one.

The machine answers the requests that the device answers. It says nothing about how a fiber is
found, about who holds a lock, or about what happens between the steps of a call.

## Main definitions

- `FiberMachine.serve` — the answer to one request
- `World.step` — the machines of all processes, with the registers and memory of their users

## Main results

- `FiberMachine.Consistent.serve` — a request keeps the fibers numbered, and each of them parked
  unless exactly one thread is on it
- `World.consistent_of_run` — so it is in every run
-/

namespace Fibers

/-! ## Fibers and threads -/

/-- A fiber as its process knows it. -/
structure Strand where
  /-- where it goes on, unless a thread is on it -/
  parked : Option Context
  live : Fin flsMaxSize → Bool
  slot : Fin flsMaxSize → Word

/-- A fiber that has no slot yet. -/
def Strand.new (parked : Option Context) : Strand := ⟨parked, fun _ => false, fun _ => 0⟩

open Classical in
/-- The least element of a set, if it has an element. -/
noncomputable def least {α : Type} [LinearOrder α] [WellFoundedLT α] (s : Set α) : Option α :=
  if h : s.Nonempty then some (wellFounded_lt.min s h) else none

theorem least_eq_some {α : Type} [LinearOrder α] [WellFoundedLT α] {s : Set α} {a : α}
    (h : IsLeast s a) : least s = some a := by
  have hs : s.Nonempty := ⟨a, h.1⟩
  rw [least, dif_pos hs, Option.some.injEq]
  apply le_antisymm
  · exact not_lt.mp (wellFounded_lt.not_lt_min s h.1)
  · exact h.2 (wellFounded_lt.min_mem s hs)

@[simp] theorem least_empty {α : Type} [LinearOrder α] [WellFoundedLT α] :
    least (∅ : Set α) = none := dif_neg Set.not_nonempty_empty

/-- The fibers of a process: which one each thread is on, and how many there have been. -/
@[ext] structure FiberMachine where
  on : ℤ → Option ℤ
  strand : ℤ → Option Strand
  count : ℕ

/-- What a request leaves. -/
structure Answer where
  machine : FiberMachine
  cpu : Cpu
  mem : UserMemory
  ret : ℤ

/-- The registers of a thread that goes on from a context. -/
def Cpu.resume (cpu : Cpu) (c : Context) : Cpu := { cpu with regs := c.regs, fpu := c.fpu }

/-- Where a fiber begins that was created with these arguments: on top of its stack, at its
entry point. -/
def FibArgs.start (a : FibArgs) (cpu : Cpu) : Context where
  regs := { cpu.regs with
    ip := a.entryPoint
    di := a.params
    sp := a.stackBase + a.stackSize - 8
    bp := a.stackBase + a.stackSize - 8 }
  fpu := cpu.fpu

namespace FiberMachine

def empty : FiberMachine := ⟨fun _ => none, fun _ => none, 0⟩

section Operations

variable (m : FiberMachine) (pid : ℤ) (cpu : Cpu)

/-- One fiber more. -/
def spawn (parked : Option Context) : FiberMachine :=
  { m with
    strand := Function.update m.strand m.count (some (.new parked))
    count := m.count + 1 }

/-- The fiber `k` is parked, or a thread has come to it. -/
def park (k : ℤ) (parked : Option Context) : FiberMachine :=
  { m with
    strand := Function.update m.strand k ((m.strand k).map fun st => { st with parked := parked }) }

/-- The thread is on the fiber `k`. -/
def enter (k : ℤ) : FiberMachine := { m with on := Function.update m.on pid (some k) }

/-- The fiber `k` with other slots. -/
def store (k : ℤ) (st : Strand) : FiberMachine :=
  { m with strand := Function.update m.strand k (some st) }

@[simp] theorem on_spawn (parked : Option Context) : (m.spawn parked).on = m.on := rfl

@[simp] theorem strand_spawn (parked : Option Context) :
    (m.spawn parked).strand = Function.update m.strand m.count (some (.new parked)) := rfl

@[simp] theorem count_spawn (parked : Option Context) : (m.spawn parked).count = m.count + 1 := rfl

@[simp] theorem on_park (k : ℤ) (parked : Option Context) : (m.park k parked).on = m.on := rfl

@[simp] theorem strand_park (k : ℤ) (parked : Option Context) :
    (m.park k parked).strand =
      Function.update m.strand k ((m.strand k).map fun st => { st with parked := parked }) := rfl

@[simp] theorem count_park (k : ℤ) (parked : Option Context) :
    (m.park k parked).count = m.count := rfl

@[simp] theorem on_enter (k : ℤ) : (m.enter pid k).on = Function.update m.on pid (some k) := rfl

@[simp] theorem strand_enter (k : ℤ) : (m.enter pid k).strand = m.strand := rfl

@[simp] theorem count_enter (k : ℤ) : (m.enter pid k).count = m.count := rfl

@[simp] theorem on_store (k : ℤ) (st : Strand) : (m.store k st).on = m.on := rfl

@[simp] theorem strand_store (k : ℤ) (st : Strand) :
    (m.store k st).strand = Function.update m.strand k (some st) := rfl

@[simp] theorem count_store (k : ℤ) (st : Strand) : (m.store k st).count = m.count := rfl

/-- The fiber that the thread is on. -/
def current : Option (ℤ × Strand) := do
  let k ← m.on pid
  let st ← m.strand k
  pure (k, st)

def convert : FiberMachine × Ret :=
  match m.on pid with
  | some _ => (m, .error .EEXIST)
  | none => ((m.spawn none).enter pid m.count, .ok m.count)

def create (a : FibArgs) : FiberMachine × Ret :=
  match m.on pid with
  | none => (m, .error .ESRCH)
  | some _ => (m.spawn (some (a.start cpu)), .ok m.count)

def switch (next : ℤ) : FiberMachine × Cpu × Ret :=
  match m.on pid, m.strand next with
  | some old, some target =>
    match target.parked with
    | none => (m, cpu, .error .EAGAIN)
    | some c =>
      (((m.park old (some (prepareContext cpu))).park next none).enter pid next, cpu.resume c,
        .ok 0)
  | _, _ => (m, cpu, .error .ESRCH)

/-- The least slot that is not live. -/
noncomputable def flsAlloc : FiberMachine × Ret :=
  match m.current pid with
  | none => (m, .error .ESRCH)
  | some (k, st) =>
    match least {i | st.live i = false} with
    | none => (m, .error .EINVAL)
    | some i => (m.store k { st with live := Function.update st.live i true }, .ok i.val)

/-- The slot of a call and the fiber that it is in, if the index is one. -/
def flsAt (idx : ℤ) (e : Errno) : Except Errno (Fin flsMaxSize × ℤ × Strand) :=
  match flsIndex idx with
  | none => .error e
  | some i =>
    match m.current pid with
    | none => .error .ESRCH
    | some (k, st) => if st.live i then .ok (i, k, st) else .error .EACCES

def flsFree (idx : ℤ) : FiberMachine × Ret :=
  match m.flsAt pid idx .EINVAL with
  | .error e => (m, .error e)
  | .ok (i, k, st) => (m.store k { st with live := Function.update st.live i false }, .ok 0)

def flsSetValue (idx : ℤ) (value : Word) : FiberMachine × Ret :=
  match m.flsAt pid idx .EINVAL with
  | .error e => (m, .error e)
  | .ok (i, k, st) => (m.store k { st with slot := Function.update st.slot i value }, .ok idx)

def flsGetValue (idx : ℤ) : Except Errno Word :=
  match m.flsAt pid idx .ESRCH with
  | .error e => .error e
  | .ok (i, _, st) => .ok (st.slot i)

variable (mem : UserMemory)

/-- The answer of a call whose result is the return value. -/
def answer (x : FiberMachine × Ret) : Answer := ⟨x.1, cpu, mem, x.2.toLong⟩

/-- The answer to a request of the thread `pid`. -/
noncomputable def serve : Request → Answer
  | .unknown => ⟨m, cpu, mem, -Errno.EPERM.code⟩
  | .unreadable => ⟨m, cpu, mem, -Errno.EINVAL.code⟩
  | .convertThreadToFiber => answer cpu mem (m.convert pid)
  | .createFiber a => answer cpu mem (m.create pid cpu a)
  | .switchToFiber next =>
    let (m, cpu, r) := m.switch pid cpu next
    ⟨m, cpu, mem, r.toLong⟩
  | .flsAlloc => answer cpu mem (m.flsAlloc pid)
  | .flsGetValue idx value =>
    -- a value or an error is written as far as there is room
    let (mem, n) := mem.copyTo value (wordBytes (readValue (m.flsGetValue pid idx)))
    ⟨m, cpu, mem, if n = 8 then 0 else -Errno.EINVAL.code⟩
  | .flsFree idx => answer cpu mem (m.flsFree pid idx)
  | .flsSetValue idx value => answer cpu mem (m.flsSetValue pid idx value)

end Operations

/-! ## A fiber is parked, or one thread is on it -/

/-- The fibers are numbered from 0, no two threads are on one, and one is parked unless a thread is
on it. -/
structure Consistent (m : FiberMachine) : Prop where
  numbered : ∀ k, (m.strand k).isSome = true ↔ 0 ≤ k ∧ k < m.count
  alone : ∀ p q k, m.on p = some k → m.on q = some k → p = q
  running_iff : ∀ k, (∃ p, m.on p = some k) ↔ ∃ st, m.strand k = some st ∧ st.parked = none

namespace Consistent

variable {m : FiberMachine} {pid k : ℤ} {cpu : Cpu} {mem : UserMemory}

theorem empty : FiberMachine.empty.Consistent where
  numbered := by
    intro k
    simp only [FiberMachine.empty, Option.isSome_none, Bool.false_eq_true, false_iff]
    omega
  alone := by
    rintro p q k ⟨⟩
  running_iff := by simp [FiberMachine.empty]

theorem strand_count (h : m.Consistent) : m.strand m.count = none := by
  by_contra hn
  have hs := (h.numbered m.count).mp (Option.isSome_iff_ne_none.mpr hn)
  omega

theorem strand_on (h : m.Consistent) (hon : m.on pid = some k) :
    ∃ st, m.strand k = some st ∧ st.parked = none := (h.running_iff k).mp ⟨pid, hon⟩

theorem on_ne_count (h : m.Consistent) (p : ℤ) : m.on p ≠ some m.count := by
  intro hp
  obtain ⟨st, hst, -⟩ := h.strand_on hp
  cases h.strand_count.symm.trans hst

theorem numbered_spawn (h : m.Consistent) (parked : Option Context) (k : ℤ) :
    ((m.spawn parked).strand k).isSome = true ↔ 0 ≤ k ∧ k < (m.spawn parked).count := by
  rw [strand_spawn, count_spawn]
  by_cases hk : k = m.count
  · subst hk
    simp
  · rw [Function.update_of_ne hk, h.numbered]
    push_cast
    omega

theorem create (h : m.Consistent) (a : FibArgs) : (m.create pid cpu a).1.Consistent := by
  unfold FiberMachine.create
  split
  · exact h
  · refine ⟨h.numbered_spawn _, h.alone, ?_⟩
    intro k
    by_cases hk : k = m.count
    · subst hk
      -- nobody is on a fiber that has just been made
      refine iff_of_false ?_ (by simp [Strand.new])
      rintro ⟨p, hp⟩
      exact h.on_ne_count p hp
    · rw [on_spawn, strand_spawn, Function.update_of_ne hk]
      exact h.running_iff k

theorem convert (h : m.Consistent) : (m.convert pid).1.Consistent := by
  unfold FiberMachine.convert
  split
  · exact h
  · next hn =>
    have hon : ∀ p k, ((m.spawn none).enter pid m.count).on p = some k ↔
        p = pid ∧ k = m.count ∨ m.on p = some k := by
      intro p k
      by_cases hp : p = pid
      · subst hp
        simp [hn, eq_comm]
      · simp [hp]
    refine ⟨h.numbered_spawn _, ?_, ?_⟩
    · intro p q k hp hq
      rcases (hon p k).mp hp with ⟨rfl, rfl⟩ | hp'
      · rcases (hon q _).mp hq with ⟨rfl, -⟩ | hq'
        · rfl
        · exact absurd hq' (h.on_ne_count q)
      · rcases (hon q k).mp hq with ⟨-, rfl⟩ | hq'
        · exact absurd hp' (h.on_ne_count p)
        · exact h.alone p q k hp' hq'
    · intro k
      by_cases hk : k = m.count
      · subst hk
        exact iff_of_true ⟨pid, (hon pid _).mpr (.inl ⟨rfl, rfl⟩)⟩
          ⟨.new none, by simp, rfl⟩
      · have hstrand : ((m.spawn none).enter pid m.count).strand k = m.strand k :=
          Function.update_of_ne hk _ _
        rw [hstrand, ← h.running_iff k]
        refine exists_congr (fun p => ?_)
        rw [hon]
        simp [hk]

/-- Other slots of a fiber. -/
theorem store (h : m.Consistent) {st st' : Strand} (hk : m.strand k = some st)
    (hparked : st'.parked = st.parked) : (m.store k st').Consistent := by
  refine ⟨?_, h.alone, ?_⟩
  · intro j
    rw [count_store, ← h.numbered j]
    by_cases hj : j = k
    · subst hj
      simp [hk]
    · simp [hj]
  · intro j
    refine (h.running_iff j).trans ?_
    by_cases hj : j = k
    · subst hj
      simp [hk, hparked]
    · simp [hj]

/-- No thread is on a parked fiber. -/
theorem on_ne_parked (h : m.Consistent) {target : Strand} {c : Context}
    (htarget : m.strand k = some target) (hc : target.parked = some c) (p : ℤ) :
    m.on p ≠ some k := by
  intro hp
  obtain ⟨st, hst, hrun⟩ := h.strand_on hp
  obtain rfl : st = target := Option.some.inj (hst.symm.trans htarget)
  cases hc.symm.trans hrun

/-- A thread parks its fiber and comes to a parked one. -/
theorem handOver (h : m.Consistent) {old next : ℤ} {target : Strand} {c : Context}
    (hold : m.on pid = some old) (htarget : m.strand next = some target)
    (hc : target.parked = some c) (saved : Context) :
    (((m.park old (some saved)).park next none).enter pid next).Consistent := by
  obtain ⟨running, hrunning, -⟩ := h.strand_on hold
  have hfree := h.on_ne_parked htarget hc
  have hne : next ≠ old := by
    rintro rfl
    exact hfree pid hold
  have hon : ∀ p k, (((m.park old (some saved)).park next none).enter pid next).on p = some k ↔
      p = pid ∧ k = next ∨ p ≠ pid ∧ m.on p = some k := by
    intro p k
    by_cases hp : p = pid
    · simp [hp, eq_comm]
    · simp [hp]
  have hstrand : ∀ k, (((m.park old (some saved)).park next none).enter pid next).strand k =
      if k = next then some { target with parked := none }
      else if k = old then some { running with parked := some saved }
      else m.strand k := by
    intro k
    by_cases hk : k = next
    · subst hk
      simp [hne, htarget]
    · by_cases hk' : k = old
      · subst hk'
        simp [hk, hrunning]
      · simp [hk, hk']
  refine ⟨?_, ?_, ?_⟩
  · intro k
    rw [count_enter, count_park, count_park, ← h.numbered k, hstrand]
    split
    · next hk => simp [hk, htarget]
    · split
      · next hk => simp [hk, hrunning]
      · rfl
  · intro p q k hp hq
    rcases (hon p k).mp hp with ⟨rfl, rfl⟩ | ⟨-, hp'⟩
    · rcases (hon q _).mp hq with ⟨rfl, -⟩ | ⟨-, hq'⟩
      · rfl
      · exact absurd hq' (hfree q)
    · rcases (hon q k).mp hq with ⟨-, rfl⟩ | ⟨-, hq'⟩
      · exact absurd hp' (hfree p)
      · exact h.alone p q k hp' hq'
  · intro k
    rw [hstrand]
    split
    · next hk =>
      -- the thread has come to the new fiber
      exact iff_of_true ⟨pid, (hon pid k).mpr (.inl ⟨rfl, hk⟩)⟩ ⟨_, rfl, rfl⟩
    · next hk =>
      split
      · next hk' =>
        -- and has left the old one, where no other thread was
        refine iff_of_false ?_ (by simp)
        rintro ⟨p, hp⟩
        rcases (hon p k).mp hp with ⟨-, hk''⟩ | ⟨hp', hp''⟩
        · exact hk hk''
        · exact hp' (h.alone p pid old (hk' ▸ hp'') hold)
      · next hk' =>
        rw [← h.running_iff k]
        refine exists_congr (fun p => ?_)
        rw [hon]
        constructor
        · rintro (⟨-, hk''⟩ | ⟨-, hp⟩)
          · exact absurd hk'' hk
          · exact hp
        · intro hp
          refine .inr ⟨?_, hp⟩
          rintro rfl
          exact hk' (Option.some.inj (hp.symm.trans hold))

theorem switch (h : m.Consistent) (next : ℤ) : (m.switch pid cpu next).1.Consistent := by
  unfold FiberMachine.switch
  split
  · next hold htarget =>
    split
    · exact h
    · next hc => exact h.handOver hold htarget hc _
  · exact h

theorem strand_current {st : Strand} (hc : m.current pid = some (k, st)) :
    m.strand k = some st := by
  simp only [current, Option.bind_eq_bind, Option.pure_def, Option.bind_eq_some_iff,
    Option.some.injEq, Prod.mk.injEq] at hc
  obtain ⟨k', -, st', hst, rfl, rfl⟩ := hc
  exact hst

theorem strand_flsAt {idx : ℤ} {e : Errno} {i : Fin flsMaxSize} {st : Strand}
    (ha : m.flsAt pid idx e = .ok (i, k, st)) : m.strand k = some st := by
  unfold flsAt at ha
  split at ha
  · cases ha
  · split at ha
    · cases ha
    · next hc =>
      split at ha
      · cases ha
        exact strand_current hc
      · cases ha

theorem flsAlloc (h : m.Consistent) : (m.flsAlloc pid).1.Consistent := by
  unfold FiberMachine.flsAlloc
  split
  · exact h
  · next hc =>
    split
    · exact h
    · exact h.store (strand_current hc) rfl

theorem flsFree (h : m.Consistent) (idx : ℤ) : (m.flsFree pid idx).1.Consistent := by
  unfold FiberMachine.flsFree
  split
  · exact h
  · next ha => exact h.store (strand_flsAt ha) rfl

theorem flsSetValue (h : m.Consistent) (idx : ℤ) (value : Word) :
    (m.flsSetValue pid idx value).1.Consistent := by
  unfold FiberMachine.flsSetValue
  split
  · exact h
  · next ha => exact h.store (strand_flsAt ha) rfl

/-- A request keeps the machine consistent. -/
theorem serve (h : m.Consistent) (r : Request) : (m.serve pid cpu mem r).machine.Consistent := by
  cases r with
  | unknown | unreadable | flsGetValue _ _ => exact h
  | convertThreadToFiber => exact h.convert
  | createFiber a => exact h.create a
  | switchToFiber next => exact h.switch next
  | flsAlloc => exact h.flsAlloc
  | flsFree idx => exact h.flsFree idx
  | flsSetValue idx value => exact h.flsSetValue idx value

end Consistent

/-! ## The ends of a switch on the machine -/

section Switch

variable {m : FiberMachine} {pid next old : ℤ} {cpu : Cpu} {st : Strand}

theorem switch_of_on_none (hon : m.on pid = none) :
    m.switch pid cpu next = (m, cpu, .error .ESRCH) := by
  simp only [switch, hon]

theorem switch_of_strand_none (hs : m.strand next = none) :
    m.switch pid cpu next = (m, cpu, .error .ESRCH) := by
  cases hon : m.on pid <;> simp only [switch, hon, hs]

theorem switch_of_running (hon : m.on pid = some old) (hs : m.strand next = some st)
    (hp : st.parked = none) : m.switch pid cpu next = (m, cpu, .error .EAGAIN) := by
  simp only [switch, hon, hs, hp]

theorem switch_of_parked {c : Context} (hon : m.on pid = some old) (hs : m.strand next = some st)
    (hp : st.parked = some c) :
    m.switch pid cpu next =
      (((m.park old (some (prepareContext cpu))).park next none).enter pid next, cpu.resume c,
        .ok 0) := by
  simp only [switch, hon, hs, hp]

end Switch

/-! ## The contexts and the rest -/

/-- The context of every parked fiber. -/
def parkedAt (m : FiberMachine) (k : ℤ) : Option Context := (m.strand k).bind Strand.parked

/-- The machine without these contexts. -/
def unparked (m : FiberMachine) : FiberMachine :=
  { m with strand := fun k => (m.strand k).map fun st => { st with parked := none } }

section Unparked

variable (m : FiberMachine) {pid k : ℤ} {parked : Option Context}

@[simp] theorem on_unparked : m.unparked.on = m.on := rfl

@[simp] theorem count_unparked : m.unparked.count = m.count := rfl

@[simp] theorem strand_unparked (k : ℤ) :
    m.unparked.strand k = (m.strand k).map fun st => { st with parked := none } := rfl

@[simp] theorem unparked_enter : (m.enter pid k).unparked = m.unparked.enter pid k := rfl

@[simp] theorem unparked_park : (m.park k parked).unparked = m.unparked := by
  ext1
  · rfl
  · funext j
    by_cases hj : j = k
    · simp [hj, Function.comp_def]
    · simp [hj]
  · rfl

@[simp] theorem unparked_spawn : (m.spawn parked).unparked = m.unparked.spawn none := by
  ext1
  · rfl
  · funext j
    by_cases hj : j = m.count
    · simp [hj, Strand.new]
    · simp [hj]
  · rfl

@[simp] theorem parkedAt_enter : (m.enter pid k).parkedAt = m.parkedAt := rfl

@[simp] theorem parkedAt_spawn :
    (m.spawn parked).parkedAt = Function.update m.parkedAt m.count parked := by
  funext j
  by_cases hj : j = m.count
  · simp [parkedAt, hj, Strand.new]
  · simp [parkedAt, hj]

theorem parkedAt_park {st : Strand} (hk : m.strand k = some st) :
    (m.park k parked).parkedAt = Function.update m.parkedAt k parked := by
  funext j
  by_cases hj : j = k
  · simp [parkedAt, hj, hk]
  · simp [parkedAt, hj]

/-- What is left is the contexts. -/
theorem eq_of_unparked {m m' : FiberMachine} (hu : m.unparked = m'.unparked)
    (hp : m.parkedAt = m'.parkedAt) : m = m' := by
  ext1
  · simpa using congrArg on hu
  · funext k
    have hs := congrFun (congrArg strand hu) k
    have hk := congrFun hp k
    simp only [strand_unparked] at hs
    simp only [parkedAt] at hk
    cases h : m.strand k with
    | none =>
      cases h' : m'.strand k with
      | none => rfl
      | some st' => simp [h, h'] at hs
    | some st =>
      cases h' : m'.strand k with
      | none => simp [h, h'] at hs
      | some st' =>
        obtain ⟨parked, live, slot⟩ := st
        obtain ⟨parked', live', slot'⟩ := st'
        simp only [h, h', Option.map_some, Option.some.injEq, Strand.mk.injEq, true_and] at hs
        simp only [h, h', Option.bind_some] at hk
        rw [hs.1, hs.2, hk]
  · simpa using congrArg count hu

end Unparked

end FiberMachine

/-! ## The machines of all processes -/

/-- A machine for each process, and the registers and the memory of their users. -/
structure World where
  machine : ℤ → FiberMachine
  cpu : Task → Cpu
  mem : ℤ → UserMemory

namespace World

/-- A call has returned to its caller. -/
def after (w : World) (t : Task) (a : Answer) : World where
  machine := Function.update w.machine t.tgid a.machine
  cpu := Function.update w.cpu t (a.cpu.setReturn (.ok a.ret))
  mem := Function.update w.mem t.tgid a.mem

/-- An action with the value that a call returns. -/
noncomputable def step (w : World) : DeviceAction → World × Option ℤ
  | .user t cpu => ({ w with cpu := Function.update w.cpu t cpu }, none)
  | .write t mem => ({ w with mem := Function.update w.mem t.tgid mem }, none)
  | .ioctl t cmd args =>
    let mem := w.mem t.tgid
    let a := (w.machine t.tgid).serve t.pid (w.cpu t) mem (request mem cmd args)
    (w.after t a, some a.ret)
  | .release t => ({ w with machine := Function.update w.machine t.tgid .empty }, some 0)

/-- No process has a fiber. -/
def initial (cpu : Task → Cpu) (mem : ℤ → UserMemory) : World := ⟨fun _ => .empty, cpu, mem⟩

/-- An action and its result lead from one world to the other. -/
def Step (w : World) (a : DeviceAction × Option ℤ) (w' : World) : Prop := w.step a.1 = (w', a.2)

/-- The fibers of every process are parked, or one thread is on them. -/
def Consistent (w : World) : Prop := ∀ tgid, (w.machine tgid).Consistent

variable {w w' : World} {a : DeviceAction × Option ℤ}

theorem Step.consistent (hs : Step w a w') (h : w.Consistent) : w'.Consistent := by
  have hupdate : ∀ tgid {m : FiberMachine}, m.Consistent →
      ∀ k, (Function.update w.machine tgid m k).Consistent := by
    intro tgid m hm k
    by_cases hk : k = tgid
    · rwa [hk, Function.update_self]
    · rw [Function.update_of_ne hk]
      exact h k
  obtain ⟨_ | _ | _ | _, ret⟩ := a
  · cases hs
    exact h
  · cases hs
    exact h
  · cases hs
    exact hupdate _ ((h _).serve _)
  · cases hs
    exact hupdate _ .empty

theorem consistent_of_run {cpu : Task → Cpu} {mem : ℤ → UserMemory} {h : List (Entry World _)}
    (hr : Run Step (initial cpu mem) h w) : w.Consistent :=
  hr.invariant (fun _ => .empty) (fun _ _ _ hi hs => hs.consistent hi)

end World

end Fibers
