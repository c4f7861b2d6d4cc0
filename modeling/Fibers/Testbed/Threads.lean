import Fibers.Lib.Run
import Mathlib.Data.BitVec
import Mathlib.Data.List.Nodup
import Mathlib.Logic.Function.Basic

/-!
# Threads

`thread.c`: `create_threads` makes threads that share one record with their start routine, and each
new thread takes an id from a counter by compare-and-swap, again and again until it succeeds. The
steps of all threads interleave.

Two accesses to the record of a thread follow its id: the call of the start routine, and `free`
when that returns. Both are faults when the record is gone.

## Main results

- `thread_ids` — the ids are 1, 2, 3 and so on, each for one thread
- `failed_swap` — a thread has to try again only if another one has got an id since
- `helper_alive` — the record lives as long as no start routine returns
-/

namespace Fibers.Testbed.Threads

/-! ## The steps -/

/-- `struct _helper_thread`. -/
structure HelperThread where
  startRoutine : BitVec 64
  arg : BitVec 64
  deriving DecidableEq

/-- Where a thread is in `__helper_create_thread`. -/
inductive Pc
  | unborn
  /-- before `old_counter = thread_counter` -/
  | reading
  /-- before the compare-and-swap -/
  | swapping (oldCounter : BitVec 32)
  /-- before the call of the start routine -/
  | calling
  | running (routine : HelperThread)
  /-- before `free` -/
  | returned
  | finished
  deriving DecidableEq

structure Thread where
  realArg : ℕ
  tid : BitVec 32
  pc : Pc

/-- `left` is how many threads the loop of `create_threads` has still to make for a record. -/
structure State where
  threadCounter : BitVec 32
  helper : ℕ → Option HelperThread
  left : ℕ → ℕ
  thread : ℕ → Thread

def initial : State := ⟨0, fun _ => none, fun _ => 0, fun _ => ⟨0, 0, .unborn⟩⟩

inductive Act
  /-- `create_threads` up to its loop, with the record at `addr` -/
  | create (n : BitVec 16) (addr : ℕ) (routine : HelperThread)
  /-- `new_thread` makes the thread `t` -/
  | spawn (addr t : ℕ)
  | step (t : ℕ)
  deriving DecidableEq

def State.setThread (s : State) (t : ℕ) (th : Thread) : State :=
  { s with thread := Function.update s.thread t th }

/-- `__sync_bool_compare_and_swap` with the id that the thread has set. -/
def State.swap (s : State) (t : ℕ) (oldCounter : BitVec 32) : State :=
  let th := { s.thread t with tid := oldCounter + 1 }
  if s.threadCounter = oldCounter then
    { s with threadCounter := th.tid }.setThread t { th with pc := .calling }
  else s.setThread t { th with pc := .reading }

/-- The next step of a thread. -/
def State.advance (s : State) (t : ℕ) : Option State :=
  let th := s.thread t
  match th.pc with
  | .unborn => none
  | .reading => some (s.setThread t { th with pc := .swapping s.threadCounter })
  | .swapping oldCounter => some (s.swap t oldCounter)
  | .calling =>
    (s.helper th.realArg).map fun routine => s.setThread t { th with pc := .running routine }
  | .running _ => some (s.setThread t { th with pc := .returned })
  | .returned =>
    (s.helper th.realArg).map fun _ =>
      { s with helper := Function.update s.helper th.realArg none }.setThread t
        { th with pc := .finished }
  | .finished => none

def State.step (s : State) : Act → Option State
  | .create n addr routine =>
    if s.helper addr = none ∧ s.left addr = 0 then
      some { s with
        helper := Function.update s.helper addr (some routine)
        left := Function.update s.left addr n.toNat }
    else none
  | .spawn addr t =>
    if 0 < s.left addr ∧ (s.thread t).pc = .unborn then
      some ({ s with left := Function.update s.left addr (s.left addr - 1) }.setThread t
        ⟨addr, 0, .reading⟩)
    else none
  | .step t => s.advance t

def Step (s : State) (a : Act) (s' : State) : Prop := s.step a = some s'

abbrev History := List (Entry State Act)

/-! ## One step -/

/-- What a step can do, with everything that its branch has checked. -/
inductive StepCase (s : State) : Act → State → Prop
  | create {n : BitVec 16} {addr : ℕ} {routine : HelperThread} (hfree : s.helper addr = none)
      (hleft : s.left addr = 0) :
      StepCase s (.create n addr routine) { s with
        helper := Function.update s.helper addr (some routine)
        left := Function.update s.left addr n.toNat }
  | spawn {addr t : ℕ} (hleft : 0 < s.left addr) (hpc : (s.thread t).pc = .unborn) :
      StepCase s (.spawn addr t)
        ({ s with left := Function.update s.left addr (s.left addr - 1) }.setThread t
          ⟨addr, 0, .reading⟩)
  | read {t : ℕ} (hpc : (s.thread t).pc = .reading) :
      StepCase s (.step t)
        (s.setThread t { s.thread t with pc := .swapping s.threadCounter })
  | won {t : ℕ} (hpc : (s.thread t).pc = .swapping s.threadCounter) :
      StepCase s (.step t)
        ({ s with threadCounter := s.threadCounter + 1 }.setThread t
          { s.thread t with tid := s.threadCounter + 1, pc := .calling })
  | lost {t : ℕ} {oldCounter : BitVec 32} (hpc : (s.thread t).pc = .swapping oldCounter)
      (hne : s.threadCounter ≠ oldCounter) :
      StepCase s (.step t)
        (s.setThread t { s.thread t with tid := oldCounter + 1, pc := .reading })
  | call {t : ℕ} {routine : HelperThread} (hpc : (s.thread t).pc = .calling)
      (hhelper : s.helper (s.thread t).realArg = some routine) :
      StepCase s (.step t) (s.setThread t { s.thread t with pc := .running routine })
  | ret {t : ℕ} {routine : HelperThread} (hpc : (s.thread t).pc = .running routine) :
      StepCase s (.step t) (s.setThread t { s.thread t with pc := .returned })
  | free {t : ℕ} {routine : HelperThread} (hpc : (s.thread t).pc = .returned)
      (hhelper : s.helper (s.thread t).realArg = some routine) :
      StepCase s (.step t)
        ({ s with helper := Function.update s.helper (s.thread t).realArg none }.setThread t
          { s.thread t with pc := .finished })

variable {s s' : State} {a : Act} {t : ℕ} {h : History}

theorem advance_cases (h : s.advance t = some s') : StepCase s (.step t) s' := by
  unfold State.advance at h
  simp only at h
  split at h
  · cases h
  · next hpc =>
    obtain rfl := Option.some.inj h
    exact .read hpc
  · next oldCounter hpc =>
    obtain rfl := Option.some.inj h
    by_cases hc : s.threadCounter = oldCounter
    · subst hc
      simpa [State.swap] using StepCase.won hpc
    · simpa [State.swap, hc] using StepCase.lost hpc hc
  · next hpc =>
    obtain ⟨routine, hhelper, rfl⟩ := Option.map_eq_some_iff.mp h
    exact .call hpc hhelper
  · next routine hpc =>
    obtain rfl := Option.some.inj h
    exact .ret hpc
  · next hpc =>
    obtain ⟨routine, hhelper, rfl⟩ := Option.map_eq_some_iff.mp h
    exact .free hpc hhelper
  · cases h

theorem step_cases (h : s.step a = some s') : StepCase s a s' := by
  cases a with
  | create n addr routine =>
    simp only [State.step] at h
    split at h
    · next hc =>
      obtain rfl := Option.some.inj h
      exact .create hc.1 hc.2
    · cases h
  | spawn addr t =>
    simp only [State.step] at h
    split at h
    · next hc =>
      obtain rfl := Option.some.inj h
      exact .spawn hc.1 hc.2
    · cases h
  | step t => exact advance_cases h

@[simp] theorem thread_setThread_self (s : State) (t : ℕ) (th : Thread) :
    (s.setThread t th).thread t = th := by
  simp [State.setThread]

theorem thread_setThread_of_ne (s : State) {t q : ℕ} (hq : q ≠ t) (th : Thread) :
    (s.setThread t th).thread q = s.thread q := by
  simp [State.setThread, hq]

/-! ## Ids -/

/-- The thread has got its id. -/
def Pc.hasId : Pc → Bool
  | .calling => true
  | .running _ => true
  | .returned => true
  | .finished => true
  | _ => false

/-- The thread whose compare-and-swap succeeds, with its id. -/
def won (e : Entry State Act) : Option (ℕ × BitVec 32) :=
  match e.act with
  | .step t =>
    if (e.pre.thread t).pc = .swapping e.pre.threadCounter then some (t, e.pre.threadCounter + 1)
    else none
  | _ => none

/-- The ids that threads have got, the latest first. -/
def ids (h : History) : List (ℕ × BitVec 32) := h.filterMap won

/-- The ids up to `n`, the latest first. -/
def idsUpTo : ℕ → List (BitVec 32)
  | 0 => []
  | n + 1 => BitVec.ofNat 32 (n + 1) :: idsUpTo n

theorem mem_idsUpTo {n : ℕ} {x : BitVec 32} :
    x ∈ idsUpTo n ↔ ∃ i, 0 < i ∧ i ≤ n ∧ x = BitVec.ofNat 32 i := by
  induction n with
  | zero => simp [idsUpTo]
  | succ n ih =>
    rw [idsUpTo, List.mem_cons, ih]
    constructor
    · rintro (rfl | ⟨i, hpos, hi, rfl⟩)
      · exact ⟨n + 1, by omega, le_rfl, rfl⟩
      · exact ⟨i, hpos, by omega, rfl⟩
    · rintro ⟨i, hpos, hi, rfl⟩
      rcases Nat.lt_or_ge n i with hlt | hle
      · obtain rfl : i = n + 1 := by omega
        exact .inl rfl
      · exact .inr ⟨i, hpos, hle, rfl⟩

theorem nodup_idsUpTo {n : ℕ} (hn : n < 2 ^ 32) : (idsUpTo n).Nodup := by
  induction n with
  | zero => exact List.nodup_nil
  | succ n ih =>
    refine List.nodup_cons.mpr ⟨fun hmem => ?_, ih (by omega)⟩
    obtain ⟨i, hpos, hi, he⟩ := mem_idsUpTo.mp hmem
    have hval := congrArg BitVec.toNat he
    rw [BitVec.toNat_ofNat, BitVec.toNat_ofNat] at hval
    omega

/-- Every thread with an id is in the list. -/
structure Numbered (h : History) (s : State) : Prop where
  counter : s.threadCounter = BitVec.ofNat 32 (ids h).length
  tids : (ids h).map Prod.snd = idsUpTo (ids h).length
  mem : ∀ t, (s.thread t).pc.hasId = true → (t, (s.thread t).tid) ∈ ids h

/-- A step in which no thread gets an id. -/
theorem Numbered.keep {th : Thread} (hn : Numbered h s) (hwon : won ⟨s, a, s'⟩ = none)
    (hcounter : s'.threadCounter = s.threadCounter)
    (hthread : s'.thread = Function.update s.thread t th)
    (hid : th.pc.hasId = true → (s.thread t).pc.hasId = true ∧ th.tid = (s.thread t).tid) :
    Numbered (⟨s, a, s'⟩ :: h) s' := by
  have hids : ids (⟨s, a, s'⟩ :: h) = ids h := List.filterMap_cons_none hwon
  refine ⟨by rw [hids, hcounter, hn.counter], by rw [hids, hn.tids], fun q hq => ?_⟩
  rw [hids]
  by_cases hqt : q = t
  · subst hqt
    rw [hthread, Function.update_self] at hq ⊢
    obtain ⟨hold, htid⟩ := hid hq
    rw [htid]
    exact hn.mem q hold
  · rw [hthread, Function.update_of_ne hqt] at hq ⊢
    exact hn.mem q hq

theorem Numbered.step (hn : Numbered h s) (hs : StepCase s a s') :
    Numbered (⟨s, a, s'⟩ :: h) s' := by
  cases hs with
  | create hfree hleft =>
    exact ⟨hn.counter, hn.tids, hn.mem⟩
  | spawn hleft hpc => exact hn.keep rfl rfl rfl nofun
  | read hpc =>
    refine hn.keep ?_ rfl rfl nofun
    simp [won, hpc]
  | @won t hpc =>
    have hids : ids (⟨s, .step t, { s with threadCounter := s.threadCounter + 1 }.setThread t
        { s.thread t with tid := s.threadCounter + 1, pc := .calling }⟩ :: h) =
          (t, s.threadCounter + 1) :: ids h := by
      apply List.filterMap_cons_some
      simp [Threads.won, hpc]
    have hnext : s.threadCounter + 1 = BitVec.ofNat 32 ((ids h).length + 1) := by
      rw [hn.counter]
      exact (BitVec.ofNat_add _ 1).symm
    refine ⟨by rw [hids, List.length_cons, ← hnext]; rfl, ?_, fun q hq => ?_⟩
    · rw [hids, List.map_cons, List.length_cons, idsUpTo, hn.tids, ← hnext]
    · rw [hids]
      by_cases hqt : q = t
      · subst hqt
        rw [thread_setThread_self]
        exact List.mem_cons_self
      · rw [thread_setThread_of_ne _ hqt] at hq ⊢
        exact List.mem_cons_of_mem _ (hn.mem q hq)
  | lost hpc hne =>
    refine hn.keep ?_ rfl rfl nofun
    simp [won, hpc, Ne.symm hne]
  | call hpc hhelper =>
    refine hn.keep ?_ rfl rfl fun _ => ⟨by rw [hpc]; rfl, rfl⟩
    simp [won, hpc]
  | ret hpc =>
    refine hn.keep ?_ rfl rfl fun _ => ⟨by rw [hpc]; rfl, rfl⟩
    simp [won, hpc]
  | free hpc hhelper =>
    refine hn.keep ?_ rfl rfl fun _ => ⟨by rw [hpc]; rfl, rfl⟩
    simp [won, hpc]

theorem numbered_of_run (hr : Run Step initial h s) : Numbered h s := by
  refine hr.induct (I := Numbered) ⟨rfl, rfl, nofun⟩ ?_
  intro h s a s' _ hn hs
  exact hn.step (step_cases hs)

/-- In every interleaving the ids that have been handed out are 1, 2, 3 and so on in this order, the
counter is the last one, each thread past its loop has the id that it got, and up to `2 ^ 32` ids no
two threads have the same one. -/
theorem thread_ids (hr : Run Step initial h s) :
    (ids h).map Prod.snd = idsUpTo (ids h).length ∧
      s.threadCounter = BitVec.ofNat 32 (ids h).length ∧
      (∀ t, (s.thread t).pc.hasId = true → (t, (s.thread t).tid) ∈ ids h) ∧
      ((ids h).length < 2 ^ 32 → ∀ t t', (s.thread t).pc.hasId = true →
        (s.thread t').pc.hasId = true → (s.thread t).tid = (s.thread t').tid → t = t') := by
  have hn := numbered_of_run hr
  refine ⟨hn.tids, hn.counter, hn.mem, fun hlt t t' ht ht' htid => ?_⟩
  have hnodup : ((ids h).map Prod.snd).Nodup := hn.tids ▸ nodup_idsUpTo hlt
  exact congrArg Prod.fst (List.inj_on_of_nodup_map hnodup (hn.mem t ht) (hn.mem t' ht') htid)

/-- Two threads read the counter, and the second one gets the first id. -/
def contended : List Act :=
  [.create 2 64 ⟨100, 0⟩, .spawn 64 1, .spawn 64 2, .step 1, .step 2, .step 2]

/-- The threads run their start routine. -/
def contendedOn : List Act :=
  contended ++ [.step 1, .step 1, .step 1, .step 1, .step 2]

theorem thread_ids_contendedOn : ∃ h s, Run.execute State.step [] initial contendedOn = some (h, s) ∧
    ids h = [(1, 2), (2, 1)] ∧
    ((ids h).map Prod.snd = idsUpTo (ids h).length ∧
      s.threadCounter = BitVec.ofNat 32 (ids h).length ∧
      (∀ t, (s.thread t).pc.hasId = true → (t, (s.thread t).tid) ∈ ids h) ∧
      ((ids h).length < 2 ^ 32 → ∀ t t', (s.thread t).pc.hasId = true →
        (s.thread t').pc.hasId = true → (s.thread t).tid = (s.thread t').tid → t = t')) := by
  obtain ⟨h, s, he, hc⟩ := Run.exists_execute State.step initial contendedOn
    (fun h _ => decide (ids h = [(1, 2), (2, 1)])) (by decide)
  exact ⟨h, s, he, of_decide_eq_true hc, thread_ids (Run.of_execute contendedOn .start he)⟩

/-! ## Failing -/

/-- The ids that threads have got since the thread last read the counter. -/
def since (t : ℕ) : History → List (ℕ × BitVec 32)
  | [] => []
  | e :: past =>
    if e.act = .step t ∧ (e.pre.thread t).pc = .reading then []
    else (won e).toList ++ since t past

/-- The counter is ahead of what the thread has read by these ids, and they went to others. -/
def Behind (h : History) (s : State) : Prop :=
  ∀ t oldCounter, (s.thread t).pc = .swapping oldCounter →
    s.threadCounter = oldCounter + BitVec.ofNat 32 (since t h).length ∧ ∀ p ∈ since t h, p.1 ≠ t

/-- A step in which no thread gets an id, and after which its own thread is not about to swap. -/
theorem Behind.keep {th : Thread} (hb : Behind h s) (hwon : won ⟨s, a, s'⟩ = none)
    (hcounter : s'.threadCounter = s.threadCounter)
    (hthread : s'.thread = Function.update s.thread t th) (hpc : ∀ old, th.pc ≠ .swapping old)
    (hact : ∀ q, q ≠ t → a ≠ .step q) : Behind (⟨s, a, s'⟩ :: h) s' := by
  intro q old hq
  by_cases hqt : q = t
  · subst hqt
    rw [hthread, Function.update_self] at hq
    exact absurd hq (hpc old)
  · rw [hthread, Function.update_of_ne hqt] at hq
    have hsince : since q (⟨s, a, s'⟩ :: h) = since q h := by
      rw [since, if_neg fun hread => hact q hqt hread.1, hwon]
      rfl
    rw [hsince, hcounter]
    exact hb q old hq

theorem Behind.step (hb : Behind h s) (hs : StepCase s a s') : Behind (⟨s, a, s'⟩ :: h) s' := by
  cases hs with
  | create hfree hleft =>
    intro q old hq
    simpa [since, won] using hb q old hq
  | spawn hleft hpc => exact hb.keep rfl rfl rfl nofun nofun
  | @read t hpc =>
    intro q old hq
    by_cases hqt : q = t
    · subst hqt
      rw [thread_setThread_self] at hq
      obtain rfl : s.threadCounter = old := Pc.swapping.inj hq
      simp [since, hpc, State.setThread]
    · rw [thread_setThread_of_ne _ hqt] at hq
      have hne : t ≠ q := Ne.symm hqt
      simpa [since, won, hpc, hne, State.setThread] using hb q old hq
  | @won t hpc =>
    intro q old hq
    by_cases hqt : q = t
    · subst hqt
      rw [thread_setThread_self] at hq
      cases hq
    · rw [thread_setThread_of_ne _ hqt] at hq
      obtain ⟨hcounter, hothers⟩ := hb q old hq
      have hne : t ≠ q := Ne.symm hqt
      have hsince : since q (⟨s, .step t, { s with threadCounter := s.threadCounter + 1 }.setThread t
          { s.thread t with tid := s.threadCounter + 1, pc := .calling }⟩ :: h) =
            (t, s.threadCounter + 1) :: since q h := by
        simp [since, Threads.won, hpc, hne]
      rw [hsince]
      constructor
      · show s.threadCounter + 1 = old + BitVec.ofNat 32 ((since q h).length + 1)
        rw [BitVec.ofNat_add, ← BitVec.add_assoc, ← hcounter]
        rfl
      · exact List.forall_mem_cons.mpr ⟨hne, hothers⟩
  | @lost t _ hpc hne =>
    refine hb.keep ?_ rfl rfl nofun fun q hq => by simpa using Ne.symm hq
    simp [won, hpc, Ne.symm hne]
  | @call t _ hpc hhelper =>
    refine hb.keep ?_ rfl rfl nofun fun q hq => by simpa using Ne.symm hq
    simp [won, hpc]
  | @ret t _ hpc =>
    refine hb.keep ?_ rfl rfl nofun fun q hq => by simpa using Ne.symm hq
    simp [won, hpc]
  | @free t _ hpc hhelper =>
    refine hb.keep ?_ rfl rfl nofun fun q hq => by simpa using Ne.symm hq
    simp [won, hpc]

/-- In every interleaving a compare-and-swap fails only if another thread has got an id since the
thread read the counter. -/
theorem failed_swap (hr : Run Step initial h s) {oldCounter : BitVec 32}
    (hpc : (s.thread t).pc = .swapping oldCounter) (hne : s.threadCounter ≠ oldCounter) :
    ∃ p ∈ since t h, p.1 ≠ t := by
  have hb : Behind h s := by
    refine hr.induct (I := Behind) nofun ?_
    intro h s a s' _ hb hs
    exact hb.step (step_cases hs)
  obtain ⟨hcounter, hothers⟩ := hb t oldCounter hpc
  cases hsince : since t h with
  | nil =>
    rw [hsince] at hcounter
    exact absurd (hcounter.trans (BitVec.add_zero oldCounter)) hne
  | cons p ps =>
    have hp : p ∈ since t h := hsince ▸ List.mem_cons_self
    exact ⟨p, List.mem_cons_self, hothers p hp⟩

theorem failed_swap_contended : ∃ h s, Run.execute State.step [] initial contended = some (h, s) ∧
    ∃ p ∈ since 1 h, p.1 ≠ 1 := by
  obtain ⟨h, s, he, hc⟩ := Run.exists_execute State.step initial contended
    (fun _ s => decide ((s.thread 1).pc = .swapping 0 ∧ s.threadCounter ≠ 0)) (by decide)
  obtain ⟨hpc, hne⟩ := of_decide_eq_true hc
  exact ⟨h, s, he, failed_swap (Run.of_execute contended .start he) hpc hne⟩

/-! ## The record -/

/-- No start routine returns. -/
def NeverReturns (_ : History) (e : Entry State Act) : Prop :=
  ∀ t routine, e.act = .step t → (e.pre.thread t).pc ≠ .running routine

instance (past : History) (e : Entry State Act) : Decidable (NeverReturns past e) :=
  match e with
  | ⟨_, .create _ _ _, _⟩ => isTrue nofun
  | ⟨_, .spawn _ _, _⟩ => isTrue nofun
  | ⟨s, .step t, _⟩ =>
    match hpc : (s.thread t).pc with
    | .running routine => isFalse fun h => h t routine rfl hpc
    | .unborn | .reading | .swapping _ | .calling | .returned | .finished =>
      isTrue fun q routine hq => by
        obtain rfl : t = q := Act.step.inj hq
        simp [hpc]

/-- A thread that has not returned, with the record that it uses. -/
structure Uses (helper : ℕ → Option HelperThread) (th : Thread) : Prop where
  alive : helper th.realArg ≠ none
  running : ∀ routine, th.pc = .running routine → helper th.realArg = some routine
  returned : th.pc ≠ .returned
  finished : th.pc ≠ .finished

structure Alive (h : History) (s : State) : Prop where
  given : ∀ addr routine, s.helper addr = some routine →
    ∃ e ∈ h, ∃ n, e.act = .create n addr routine
  left : ∀ addr, 0 < s.left addr → s.helper addr ≠ none
  uses : ∀ t, (s.thread t).pc ≠ .unborn → Uses s.helper (s.thread t)

theorem Uses.mono {helper helper' : ℕ → Option HelperThread} {th : Thread} (hu : Uses helper th)
    (hsame : ∀ addr, helper addr ≠ none → helper' addr = helper addr) : Uses helper' th := by
  have haddr := hsame th.realArg hu.alive
  exact ⟨haddr ▸ hu.alive, fun routine hpc => haddr ▸ hu.running routine hpc, hu.returned,
    hu.finished⟩

/-- A step of a thread that leaves the records. -/
theorem Alive.keep {th : Thread} (ha : Alive h s) (hhelper : s'.helper = s.helper)
    (hleft : ∀ addr, 0 < s'.left addr → 0 < s.left addr)
    (hthread : s'.thread = Function.update s.thread t th) (huses : Uses s.helper th) :
    Alive (⟨s, a, s'⟩ :: h) s' := by
  refine ⟨fun addr routine hr => ?_, fun addr hl => ?_, fun q hq => ?_⟩
  · rw [hhelper] at hr
    obtain ⟨e, he, hgiven⟩ := ha.given addr routine hr
    exact ⟨e, List.mem_cons_of_mem _ he, hgiven⟩
  · rw [hhelper]
    exact ha.left addr (hleft addr hl)
  · rw [hhelper]
    by_cases hqt : q = t
    · rw [hthread, hqt, Function.update_self]
      exact huses
    · rw [hthread, Function.update_of_ne hqt] at hq ⊢
      exact ha.uses q hq

theorem Alive.step (ha : Alive h s) (hs : StepCase s a s') (hn : NeverReturns h ⟨s, a, s'⟩) :
    Alive (⟨s, a, s'⟩ :: h) s' := by
  cases hs with
  | @create n addr routine hfree hleft =>
    have hsame : ∀ g, s.helper g ≠ none →
        Function.update s.helper addr (some routine) g = s.helper g := by
      intro g hg
      refine Function.update_of_ne ?_ _ _
      rintro rfl
      exact hg hfree
    refine ⟨fun g r hr => ?_, fun g hg => ?_, fun q hq => (ha.uses q hq).mono hsame⟩
    · by_cases hga : g = addr
      · subst hga
        obtain rfl : routine = r := by simpa using hr
        exact ⟨_, List.mem_cons_self, n, rfl⟩
      · have hr : s.helper g = some r := by simpa [hga] using hr
        obtain ⟨e, he, hgiven⟩ := ha.given g r hr
        exact ⟨e, List.mem_cons_of_mem _ he, hgiven⟩
    · by_cases hga : g = addr
      · simp [hga]
      · have hold : 0 < s.left g := by simpa [hga] using hg
        simpa [hga] using ha.left g hold
  | @spawn addr t hleft hpc =>
    refine ha.keep rfl (fun g hg => ?_) rfl ⟨ha.left addr hleft, nofun, nofun, nofun⟩
    by_cases hga : g = addr
    · rwa [hga]
    · simpa [State.setThread, hga] using hg
  | read hpc =>
    have hu := ha.uses _ (by rw [hpc]; nofun)
    exact ha.keep rfl (fun _ => id) rfl ⟨hu.alive, nofun, nofun, nofun⟩
  | won hpc =>
    have hu := ha.uses _ (by rw [hpc]; nofun)
    exact ha.keep rfl (fun _ => id) rfl ⟨hu.alive, nofun, nofun, nofun⟩
  | lost hpc hne =>
    have hu := ha.uses _ (by rw [hpc]; nofun)
    exact ha.keep rfl (fun _ => id) rfl ⟨hu.alive, nofun, nofun, nofun⟩
  | call hpc hhelper =>
    have hu := ha.uses _ (by rw [hpc]; nofun)
    refine ha.keep rfl (fun _ => id) rfl ⟨hu.alive, ?_, nofun, nofun⟩
    rintro _ ⟨⟩
    exact hhelper
  | ret hpc => exact absurd hpc (hn _ _ rfl)
  | free hpc hhelper => exact absurd hpc (ha.uses _ (by rw [hpc]; nofun)).returned

theorem alive_of_run (hr : Run Step initial h s) (hn : EveryEntry NeverReturns h) : Alive h s := by
  induction hr with
  | start => exact ⟨nofun, nofun, fun _ hq => absurd rfl hq⟩
  | next _ hs ih => exact (ih hn.2).step (step_cases hs) hn.1

/-- As long as no start routine returns, in every interleaving each thread finds the record of its
`create_threads` and runs the start routine with the argument that was given there. -/
theorem helper_alive (hr : Run Step initial h s) (hn : EveryEntry NeverReturns h)
    (hborn : (s.thread t).pc ≠ .unborn) :
    ∃ routine, s.helper (s.thread t).realArg = some routine ∧
      (∃ e ∈ h, ∃ n, e.act = .create n (s.thread t).realArg routine) ∧
      ∀ r, (s.thread t).pc = .running r → r = routine := by
  have ha := alive_of_run hr hn
  have hu := ha.uses t hborn
  obtain ⟨routine, hroutine⟩ := Option.ne_none_iff_exists'.mp hu.alive
  refine ⟨routine, hroutine, ha.given _ _ hroutine, fun r hpc => ?_⟩
  exact Option.some.inj ((hu.running r hpc).symm.trans hroutine)

theorem helper_alive_contendedOn : ∃ h s,
    Run.execute State.step [] initial contendedOn = some (h, s) ∧
      ∃ routine, s.helper (s.thread 1).realArg = some routine ∧
        (∃ e ∈ h, ∃ n, e.act = .create n (s.thread 1).realArg routine) ∧
        ∀ r, (s.thread 1).pc = .running r → r = routine := by
  obtain ⟨h, s, he, hc⟩ := Run.exists_execute State.step initial contendedOn
    (fun h s => decide (EveryEntry NeverReturns h ∧ (s.thread 1).pc ≠ .unborn)) (by decide)
  obtain ⟨hn, hborn⟩ := of_decide_eq_true hc
  exact ⟨h, s, he, helper_alive (Run.of_execute contendedOn .start he) hn hborn⟩

/-- Two start routines that return free the one record twice. -/
theorem exists_freed_twice : ∃ h s, Run.execute State.step [] initial
      (contendedOn ++ [.step 1, .step 2, .step 1]) = some (h, s) ∧
    (s.thread 2).pc = .returned ∧ s.helper (s.thread 2).realArg = none := by
  obtain ⟨h, s, he, hc⟩ := Run.exists_execute State.step initial
    (contendedOn ++ [.step 1, .step 2, .step 1])
    (fun _ s => decide ((s.thread 2).pc = .returned ∧ s.helper (s.thread 2).realArg = none))
    (by decide)
  exact ⟨h, s, he, of_decide_eq_true hc⟩

end Fibers.Testbed.Threads
