import Fibers.WholeCalls
import Mathlib.Algebra.Order.BigOperators.Group.List
import Mathlib.Tactic.Ring

/-!
# Running time is conserved

The history of whole calls says when each thread was put on which fiber, and so what time each
activation gained. The registry keeps the same account in two fields of every fiber: the time
of the last activation, a reading of the clock of one thread, and the total.

## Main results

- `groupTimed_of_run` — the registry follows the account of the history
- `running_time_conserved` — no subtraction wraps, totals are sums, and threads lose no time
-/

namespace Fibers

/-! ## The account of the history -/

/-- An activation that has ended: the thread, its fiber, and the thread's `utime` at both ends. -/
structure Activation where
  task : Task
  fid : ℤ
  start : Word
  stop : Word

/-- The time that an activation gained. -/
def Activation.gained (a : Activation) : ℤ := a.stop.toNat - a.start.toNat

/-- The thread that a call puts on a fiber, the fiber, and the thread's `utime`. -/
def DeviceCall.activation : DeviceCall → Option (Task × ℤ × Word)
  | .call t cpu r ret => (r.activated ret).map fun fid => (t, fid, cpu.utime)
  | .release _ => none

/-- The fiber that a thread was last put on, and its `utime` then. -/
def lastActivation : CallHistory → Task → Option (ℤ × Word)
  | [], _ => none
  | e :: past, t =>
    match e.act.activation with
    | none => lastActivation past t
    | some (t', x) => if t = t' then some x else lastActivation past t

/-- The activation that ends when a thread is put on a fiber. -/
def ended (past : CallHistory) (t : Task) (utime : Word) : Option Activation :=
  (lastActivation past t).map fun (fid, start) => ⟨t, fid, start, utime⟩

/-- The activations that have ended, the latest first. -/
def completed : CallHistory → List Activation
  | [] => []
  | e :: past =>
    match e.act.activation with
    | none => completed past
    | some (t, _, utime) => (ended past t utime).toList ++ completed past

/-- The time gained by the activations of a kind. -/
def timeOf (P : Activation → Prop) [DecidablePred P] (h : CallHistory) : ℤ :=
  (((completed h).filter (P ·)).map Activation.gained).sum

def timeOnFiber (h : CallHistory) (tgid fid : ℤ) : ℤ :=
  timeOf (fun a => a.task.tgid = tgid ∧ a.fid = fid) h

def timeOfThread (h : CallHistory) (t : Task) : ℤ := timeOf (fun a => a.task = t) h

/-- The `utime` of a thread at its last call of a kind, by request and result. -/
def lastTime (P : Request → ℤ → Prop) [∀ r ret, Decidable (P r ret)] :
    CallHistory → Task → Option Word
  | [], _ => none
  | e :: past, t =>
    match e.act with
    | .call t' cpu r ret => if t = t' ∧ P r ret then some cpu.utime else lastTime P past t
    | .release _ => lastTime P past t

def Request.isConvert : Request → Bool
  | .convertThreadToFiber => true
  | _ => false

def Request.isSwitch : Request → Bool
  | .switchToFiber _ => true
  | _ => false

/-- The `utime` of a thread when it was converted. -/
def convertTime : CallHistory → Task → Option Word :=
  lastTime fun r ret => r.isConvert = true ∧ 0 ≤ ret

/-- The `utime` of a thread at its last successful switch. -/
def lastSwitchTime : CallHistory → Task → Option Word :=
  lastTime fun r ret => r.isSwitch = true ∧ 0 ≤ ret

/-- The thread that makes a call, and its `utime`. -/
def DeviceCall.reading : DeviceCall → Option (Task × Word)
  | .call t cpu _ _ => some (t, cpu.utime)
  | .release _ => none

/-- The clock of a thread does not run backwards. -/
def ClockRuns (past : CallHistory) (e : Entry Groups DeviceCall) : Prop :=
  ∀ x ∈ e.act.reading, ∀ e' ∈ past, ∀ x' ∈ e'.act.reading, x'.1 = x.1 → x'.2 ≤ x.2

instance (past : CallHistory) (e : Entry Groups DeviceCall) : Decidable (ClockRuns past e) :=
  inferInstanceAs (Decidable (∀ x ∈ e.act.reading, ∀ e' ∈ past, ∀ x' ∈ e'.act.reading,
    x'.1 = x.1 → x'.2 ≤ x.2))

/-- A switch subtracts an earlier reading from a later one. -/
def SubtractsForward (e : Entry Groups DeviceCall) : Prop :=
  ∀ t cpu next, e.act = .call t cpu (.switchToFiber next) 0 →
    ∃ tg th f, getGroup t.tgid e.pre = some tg ∧ getThread t.pid tg = some th ∧
      getFiber th.currentFid tg = some f ∧ f.info.lastActivationTime ≤ cpu.utime

section History

variable {past : CallHistory} {e : Entry Groups DeviceCall} {t : Task} {fid : ℤ} {utime : Word}

theorem lastActivation_cons_none (he : e.act.activation = none) :
    lastActivation (e :: past) = lastActivation past := by
  funext u
  rw [lastActivation, he]

theorem lastActivation_cons (he : e.act.activation = some (t, fid, utime)) :
    lastActivation (e :: past) = Function.update (lastActivation past) t (some (fid, utime)) := by
  funext u
  rw [lastActivation, he]
  by_cases hu : u = t
  · simp [hu]
  · simp [hu]

variable (P : Activation → Prop) [DecidablePred P]

theorem timeOf_cons_none (he : e.act.activation = none) :
    timeOf P (e :: past) = timeOf P past := by
  unfold timeOf
  rw [completed, he]

theorem timeOf_cons_first (he : e.act.activation = some (t, fid, utime))
    (hlast : lastActivation past t = none) : timeOf P (e :: past) = timeOf P past := by
  unfold timeOf
  rw [completed, he]
  simp [ended, hlast]

theorem timeOf_cons (he : e.act.activation = some (t, fid, utime)) {old : ℤ} {start : Word}
    (hlast : lastActivation past t = some (old, start)) :
    timeOf P (e :: past) =
      (if P ⟨t, old, start, utime⟩ then (utime.toNat : ℤ) - start.toNat else 0) + timeOf P past := by
  unfold timeOf
  rw [completed, he]
  by_cases hP : P ⟨t, old, start, utime⟩
  · simp [ended, hlast, hP, Activation.gained]
  · simp [ended, hlast, hP]

end History

/-! ## The account of a thread -/

/-- The time that a thread has contributed is the difference of two readings of its clock. -/
structure ThreadTimed (h : CallHistory) (t : Task) : Prop where
  unconverted : lastActivation h t = none →
    convertTime h t = none ∧ lastSwitchTime h t = none ∧ timeOfThread h t = 0
  converted : ∀ fid u, lastActivation h t = some (fid, u) →
    ∃ u₀, convertTime h t = some u₀ ∧ (∀ u', lastSwitchTime h t = some u' → u' = u) ∧
      timeOfThread h t = (u.toNat : ℤ) - u₀.toNat

theorem lastTime_cons_of_not {P : Request → ℤ → Prop} [∀ r ret, Decidable (P r ret)]
    {past : CallHistory} {g g' : Groups} {t u : Task} {cpu : Cpu} {r : Request} {ret : ℤ}
    (h : ¬ (u = t ∧ P r ret)) :
    lastTime P (⟨g, .call t cpu r ret, g'⟩ :: past) u = lastTime P past u := if_neg h

theorem lastTime_cons {P : Request → ℤ → Prop} [∀ r ret, Decidable (P r ret)]
    {past : CallHistory} {g g' : Groups} {t : Task} {cpu : Cpu} {r : Request} {ret : ℤ}
    (h : P r ret) :
    lastTime P (⟨g, .call t cpu r ret, g'⟩ :: past) t = some cpu.utime := if_pos ⟨rfl, h⟩

section Threads

variable {past : CallHistory} {g g' : Groups} {t u : Task} {cpu : Cpu} {r : Request} {ret : ℤ}

theorem activated_of_convert (hr : r.isConvert = true) (hret : 0 ≤ ret) :
    r.activated ret = some ret := by
  cases r <;> simp_all [Request.isConvert, Request.activated]

theorem activated_of_switch (hr : r.isSwitch = true) (hret : 0 ≤ ret) :
    (r.activated ret).isSome = true := by
  cases r <;> simp_all [Request.isSwitch, Request.activated]

/-- A time counts nothing at a call that puts no thread on a fiber, or a thread whose activations do
not count. -/
theorem timeOf_cons_other {P : Activation → Prop} [DecidablePred P]
    (hne : (∀ fid start stop, ¬ P ⟨t, fid, start, stop⟩) ∨ r.activated ret = none) :
    timeOf P (⟨g, .call t cpu r ret, g'⟩ :: past) = timeOf P past := by
  cases ha : r.activated ret with
  | none => exact timeOf_cons_none P (by simp [DeviceCall.activation, ha])
  | some fid =>
    have hP := hne.resolve_right (by simp [ha])
    have he : (DeviceCall.call t cpu r ret).activation = some (t, fid, cpu.utime) := by
      simp [DeviceCall.activation, ha]
    cases hlast : lastActivation past t with
    | none => exact timeOf_cons_first P he hlast
    | some x =>
      rw [timeOf_cons P he hlast, if_neg (hP _ _ _), zero_add]

variable (past g g' cpu) in
/-- The account of a thread does not see a call that puts no thread, or another one, on a fiber. -/
theorem account_other (hne : u ≠ t ∨ r.activated ret = none) :
    lastActivation (⟨g, .call t cpu r ret, g'⟩ :: past) u = lastActivation past u ∧
      timeOfThread (⟨g, .call t cpu r ret, g'⟩ :: past) u = timeOfThread past u := by
  refine ⟨?_, timeOf_cons_other (hne.imp_left fun h _ _ _ => h.symm)⟩
  cases ha : r.activated ret with
  | none =>
    have he : (DeviceCall.call t cpu r ret).activation = none := by simp [DeviceCall.activation, ha]
    exact congrFun (lastActivation_cons_none he) u
  | some fid =>
    have hne : u ≠ t := hne.resolve_right (by simp [ha])
    have he : (DeviceCall.call t cpu r ret).activation = some (t, fid, cpu.utime) := by
      simp [DeviceCall.activation, ha]
    rw [lastActivation_cons he, Function.update_of_ne hne]

theorem ThreadTimed.other (h : ThreadTimed past u) (hne : u ≠ t ∨ r.activated ret = none) :
    ThreadTimed (⟨g, .call t cpu r ret, g'⟩ :: past) u := by
  obtain ⟨hlast, htime⟩ := account_other past g g' cpu hne
  have hconvert : convertTime (⟨g, .call t cpu r ret, g'⟩ :: past) u = convertTime past u := by
    refine lastTime_cons_of_not ?_
    rintro ⟨hu, hr, hret⟩
    exact hne.elim (fun h => h hu) (by simp [activated_of_convert hr hret])
  have hswitch : lastSwitchTime (⟨g, .call t cpu r ret, g'⟩ :: past) u = lastSwitchTime past u := by
    refine lastTime_cons_of_not ?_
    rintro ⟨hu, hr, hret⟩
    refine hne.elim (fun h => h hu) (fun h => ?_)
    have := activated_of_switch hr hret
    rw [h] at this
    cases this
  constructor
  · rw [hlast, htime, hconvert, hswitch]
    exact h.unconverted
  · rw [hlast, htime, hconvert, hswitch]
    exact h.converted

/-- A convert of a thread that was on no fiber. -/
theorem ThreadTimed.convert (h : ThreadTimed past t) (hlast : lastActivation past t = none)
    (hret : 0 ≤ ret) :
    ThreadTimed (⟨g, .call t cpu .convertThreadToFiber ret, g'⟩ :: past) t := by
  have he : (DeviceCall.call t cpu .convertThreadToFiber ret).activation =
      some (t, ret, cpu.utime) := by
    rw [DeviceCall.activation, activated_of_convert rfl hret]
    rfl
  obtain ⟨-, hswitch, htime⟩ := h.unconverted hlast
  have hnow : timeOfThread (⟨g, .call t cpu .convertThreadToFiber ret, g'⟩ :: past) t = 0 :=
    (timeOf_cons_first _ he hlast).trans htime
  constructor
  · intro hnone
    rw [lastActivation_cons he, Function.update_self] at hnone
    cases hnone
  · intro fid u hu
    rw [lastActivation_cons he, Function.update_self] at hu
    cases hu
    refine ⟨cpu.utime, lastTime_cons ⟨rfl, hret⟩, ?_, ?_⟩
    · intro u' hu'
      have hsame : lastSwitchTime (⟨g, .call t cpu .convertThreadToFiber ret, g'⟩ :: past) t =
          lastSwitchTime past t := lastTime_cons_of_not (by simp [Request.isSwitch])
      rw [hsame, hswitch] at hu'
      cases hu'
    · rw [hnow, sub_self]

/-- A successful switch of a thread that was on a fiber. -/
theorem ThreadTimed.switch (h : ThreadTimed past t) {old next : ℤ} {start : Word}
    (hlast : lastActivation past t = some (old, start)) :
    ThreadTimed (⟨g, .call t cpu (.switchToFiber next) 0, g'⟩ :: past) t := by
  have he : (DeviceCall.call t cpu (.switchToFiber next) 0).activation =
      some (t, next, cpu.utime) := rfl
  obtain ⟨u₀, hconvert, -, htime⟩ := h.converted old start hlast
  have hnow : timeOfThread (⟨g, .call t cpu (.switchToFiber next) 0, g'⟩ :: past) t =
      ((cpu.utime.toNat : ℤ) - start.toNat) + timeOfThread past t := by
    refine (timeOf_cons _ he hlast).trans ?_
    rw [if_pos rfl]
    rfl
  constructor
  · intro hnone
    rw [lastActivation_cons he, Function.update_self] at hnone
    cases hnone
  · intro fid u hu
    rw [lastActivation_cons he, Function.update_self] at hu
    cases hu
    refine ⟨u₀, ?_, ?_, ?_⟩
    · exact (lastTime_cons_of_not (by simp [Request.isConvert])).trans hconvert
    · intro u' hu'
      have hnew : lastSwitchTime (⟨g, .call t cpu (.switchToFiber next) 0, g'⟩ :: past) t =
          some cpu.utime := lastTime_cons ⟨rfl, le_rfl⟩
      rw [hnew] at hu'
      exact (Option.some.inj hu').symm
    · rw [hnow, htime]
      ring

end Threads

/-! ## The account of a group -/

/-- A group keeps the account of the history in the two fields of its fibers. -/
structure GroupTimed (h : CallHistory) (tgid : ℤ) (tg : ThreadGroup) : Prop where
  current : ∀ pid fid, tg.CurrentIs pid fid → ∃ f, getFiber fid tg = some f ∧
    lastActivation h ⟨tgid, pid⟩ = some (fid, f.info.lastActivationTime)
  unregistered : ∀ pid, ¬ tg.HasThread pid → lastActivation h ⟨tgid, pid⟩ = none
  total : ∀ fid f, getFiber fid tg = some f →
    f.info.totalRunningTime = BitVec.ofInt 64 (timeOnFiber h tgid fid)
  absent : ∀ fid, ¬ tg.HasFiber fid → timeOnFiber h tgid fid = 0

/-- Two fibers with the same account. -/
structure SameTimes (f f' : Fiber) : Prop where
  activation : f'.info.lastActivationTime = f.info.lastActivationTime
  total : f'.info.totalRunningTime = f.info.totalRunningTime

/-- A change of a group that puts no thread on a fiber. -/
structure KeepsTimes (tg tg' : ThreadGroup) : Prop where
  threads : tg'.threads = tg.threads
  kept : ∀ fid f, getFiber fid tg = some f → ∃ f', getFiber fid tg' = some f' ∧ SameTimes f f'
  new : ∀ fid f', getFiber fid tg = none → getFiber fid tg' = some f' →
    f'.info.totalRunningTime = 0

section Groups

variable {past : CallHistory} {g g' : Groups} {t : Task} {tgid : ℤ} {cpu : Cpu} {r : Request}
  {ret : ℤ} {tg tg' : ThreadGroup}

theorem GroupTimed.fresh (hash : ℤ → Bucket) (tgid : ℤ) :
    GroupTimed [] tgid (freshGroup hash tgid) where
  current := by simp [ThreadGroup.CurrentIs]
  unregistered := fun _ _ => rfl
  total := by simp
  absent := fun _ _ => rfl

/-- Histories that agree on the process. -/
theorem GroupTimed.congr {h : CallHistory} (hg : GroupTimed past tgid tg)
    (hlast : ∀ pid, lastActivation h ⟨tgid, pid⟩ = lastActivation past ⟨tgid, pid⟩)
    (htime : ∀ fid, timeOnFiber h tgid fid = timeOnFiber past tgid fid) : GroupTimed h tgid tg where
  current := fun pid => by
    rw [hlast]
    exact hg.current pid
  unregistered := fun pid => by
    rw [hlast]
    exact hg.unregistered pid
  total := fun fid => by
    rw [htime]
    exact hg.total fid
  absent := fun fid => by
    rw [htime]
    exact hg.absent fid

theorem GroupTimed.keeps (h : GroupTimed past tgid tg) (hk : KeepsTimes tg tg') :
    GroupTimed past tgid tg' where
  current := by
    intro pid fid hc
    have hc₀ : tg.CurrentIs pid fid := by
      rwa [ThreadGroup.CurrentIs, getThread, hk.threads] at hc
    obtain ⟨f, hf, hlast⟩ := h.current pid fid hc₀
    obtain ⟨f', hf', hsame⟩ := hk.kept fid f hf
    exact ⟨f', hf', by rw [hlast, hsame.activation]⟩
  unregistered := by
    intro pid hn
    rw [ThreadGroup.HasThread, getThread, hk.threads] at hn
    exact h.unregistered pid hn
  total := by
    intro fid f' hf'
    cases hf : getFiber fid tg with
    | none =>
      rw [hk.new fid f' hf hf', h.absent fid (by simp [ThreadGroup.HasFiber, hf])]
      rfl
    | some f =>
      obtain ⟨f₁, hf₁, hsame⟩ := hk.kept fid f hf
      obtain rfl : f₁ = f' := Option.some.inj (hf₁.symm.trans hf')
      rw [hsame.total, h.total fid f hf]
  absent := by
    intro fid hn
    refine h.absent fid (fun hf => hn ?_)
    obtain ⟨f, hf⟩ := Option.isSome_iff_exists.mp hf
    obtain ⟨f', hf', -⟩ := hk.kept fid f hf
    simp [ThreadGroup.HasFiber, hf']

theorem KeepsTimes.write {fid : ℤ} {w : Fiber → Fiber} {hw : ∀ f, (w f).fid = f.fid}
    (hsame : ∀ f, SameTimes f (w f)) : KeepsTimes tg (tg.onFiber fid w hw) where
  threads := rfl
  kept := by
    intro k f hf
    rw [getFiber_onFiber]
    by_cases hk : k = fid
    · subst hk
      exact ⟨w f, by simp [hf], hsame f⟩
    · exact ⟨f, by simp [hk, hf], rfl, rfl⟩
  new := by
    intro k f' hf hf'
    rw [getFiber_onFiber] at hf'
    split at hf'
    · next hk =>
      subst hk
      rw [hf] at hf'
      cases hf'
    · rw [hf] at hf'
      cases hf'

theorem KeepsTimes.created (hn : getFiber (nextFid tg) tg = none) {th : Thread} {a : FibArgs} :
    KeepsTimes tg (created tg th cpu a) where
  threads := rfl
  kept := by
    intro k f hf
    have hk : k ≠ nextFid tg := by
      rintro rfl
      rw [hn] at hf
      cases hf
    exact ⟨f, by rw [getFiber_created, if_neg hk, hf], rfl, rfl⟩
  new := by
    intro k f' hf hf'
    rw [getFiber_created] at hf'
    split at hf'
    · cases hf'
      rfl
    · rw [hf] at hf'
      cases hf'

variable (past g g' cpu r ret) in
/-- The account of a group does not see a call that puts no thread of it on a fiber. -/
theorem group_account_other (hne : tgid ≠ t.tgid ∨ r.activated ret = none) :
    (∀ pid, lastActivation (⟨g, .call t cpu r ret, g'⟩ :: past) ⟨tgid, pid⟩ =
      lastActivation past ⟨tgid, pid⟩) ∧
    ∀ fid, timeOnFiber (⟨g, .call t cpu r ret, g'⟩ :: past) tgid fid =
      timeOnFiber past tgid fid := by
  have hother : ∀ pid, (⟨tgid, pid⟩ : Task) ≠ t ∨ r.activated ret = none := by
    intro pid
    refine hne.imp_left (fun h hp => h ?_)
    rw [← hp]
  refine ⟨fun pid => (account_other past g g' cpu (hother pid)).1, fun fid => ?_⟩
  exact timeOf_cons_other (hne.imp_left fun h _ _ _ hp => h hp.1.symm)

theorem GroupTimed.convert (h : GroupTimed past t.tgid tg) (hrest : AtRest tg)
    (hn : getThread t.pid tg = none) (hpos : 0 ≤ nextFid tg) (hfid : getFiber (nextFid tg) tg = none) :
    GroupTimed (⟨g, .call t cpu .convertThreadToFiber (nextFid tg), g'⟩ :: past) t.tgid
      (converted tg t.pid cpu) := by
  have he : (DeviceCall.call t cpu .convertThreadToFiber (nextFid tg)).activation =
      some (t, nextFid tg, cpu.utime) := by
    rw [DeviceCall.activation, activated_of_convert rfl hpos]
    rfl
  have hlast : lastActivation past t = none :=
    h.unregistered t.pid (by simp [ThreadGroup.HasThread, hn])
  have htime : ∀ fid, timeOnFiber
      (⟨g, .call t cpu .convertThreadToFiber (nextFid tg), g'⟩ :: past) t.tgid fid =
      timeOnFiber past t.tgid fid := fun fid => timeOf_cons_first _ he hlast
  have hkept : ∀ {fid}, tg.HasFiber fid → fid ≠ nextFid tg := by
    rintro fid hf rfl
    rw [ThreadGroup.HasFiber, hfid] at hf
    cases hf
  refine ⟨?_, ?_, ?_, ?_⟩
  · intro pid fid hc
    rw [lastActivation_cons he]
    rcases (currentIs_converted hn).mp hc with ⟨rfl, rfl⟩ | hc
    · refine ⟨convertedFiber tg t.pid cpu, by simp, ?_⟩
      rw [Function.update_self]
      rfl
    · obtain ⟨f, hf, hf'⟩ := h.current pid fid hc
      have hne : (⟨t.tgid, pid⟩ : Task) ≠ t := by
        rintro hp
        rw [← hp] at hlast
        rw [hlast] at hf'
        cases hf'
      refine ⟨f, ?_, by rw [Function.update_of_ne hne, hf']⟩
      rw [getFiber_converted, if_neg (hkept (hrest.live pid fid hc)), hf]
  · intro pid hnot
    have hpid : pid ≠ t.pid := by
      rintro rfl
      exact hnot (by simp [ThreadGroup.HasThread])
    have hne : (⟨t.tgid, pid⟩ : Task) ≠ t := fun hp => hpid (congrArg Task.pid hp)
    rw [lastActivation_cons he, Function.update_of_ne hne]
    exact h.unregistered pid (by simpa [ThreadGroup.HasThread, hpid] using hnot)
  · intro fid f hf
    rw [htime]
    rw [getFiber_converted] at hf
    split at hf
    · next hk =>
      cases hf
      rw [hk, h.absent (nextFid tg) (by simp [ThreadGroup.HasFiber, hfid])]
      rfl
    · exact h.total fid f hf
  · intro fid hnot
    rw [htime]
    refine h.absent fid (fun hf => hnot ?_)
    exact (converted_effects hn cpu).getFiber_isSome hf

/-- The subtraction of the code is the difference of the readings, modulo 2^64. -/
theorem sub_eq_ofInt (u s : Word) : u - s = BitVec.ofInt 64 ((u.toNat : ℤ) - s.toNat) := by
  rw [Int.sub_eq_add_neg, BitVec.ofInt_add, BitVec.ofInt_neg, BitVec.ofInt_natCast,
    BitVec.ofInt_natCast, BitVec.ofNat_toNat, BitVec.ofNat_toNat, BitVec.setWidth_eq,
    BitVec.setWidth_eq, BitVec.sub_eq_add_neg]

theorem GroupTimed.switch (h : GroupTimed past t.tgid tg) (hrest : AtRest tg) {th : Thread}
    {f : Fiber} {next : ℤ} (ht : getThread t.pid tg = some th) (hf : getFiber next tg = some f)
    (hl : f.flock = false) :
    GroupTimed (⟨g, .call t cpu (.switchToFiber next) 0, g'⟩ :: past) t.tgid
      (switched tg t.pid cpu th.currentFid next) := by
  have he : (DeviceCall.call t cpu (.switchToFiber next) 0).activation =
      some (t, next, cpu.utime) := rfl
  have hold : tg.CurrentIs t.pid th.currentFid := ⟨th, ht, rfl⟩
  have hne := hrest.old_ne_new hold hf hl
  obtain ⟨old, hlive, hlast⟩ := h.current t.pid th.currentFid hold
  have hlast : lastActivation past t = some (th.currentFid, old.info.lastActivationTime) := hlast
  have htime : ∀ fid, timeOnFiber (⟨g, .call t cpu (.switchToFiber next) 0, g'⟩ :: past) t.tgid fid =
      (if fid = th.currentFid then
        (cpu.utime.toNat : ℤ) - old.info.lastActivationTime.toNat else 0) +
      timeOnFiber past t.tgid fid := by
    intro fid
    refine (timeOf_cons _ he hlast).trans ?_
    congr 1
    by_cases hk : fid = th.currentFid
    · rw [if_pos hk, if_pos ⟨rfl, hk.symm⟩]
    · rw [if_neg hk, if_neg (fun hP => hk hP.2.symm)]
  refine ⟨?_, ?_, ?_, ?_⟩
  · intro pid fid hc
    rw [lastActivation_cons he, getFiber_switched hne]
    rcases (currentIs_switched hold.hasThread).mp hc with ⟨rfl, rfl⟩ | ⟨hpid, hc'⟩
    · refine ⟨f.entered t.pid cpu.utime, by rw [if_pos rfl, hf]; rfl, ?_⟩
      rw [Function.update_self]
      rfl
    · obtain ⟨f₁, hf₁, hf'⟩ := h.current pid fid hc'
      have htask : (⟨t.tgid, pid⟩ : Task) ≠ t := fun hp => hpid (congrArg Task.pid hp)
      have hnew : fid ≠ next := by
        rintro rfl
        rw [(hrest.locked_iff _ f hf).mpr ⟨pid, hc'⟩] at hl
        cases hl
      have holdne : fid ≠ th.currentFid := by
        rintro rfl
        exact hpid (hrest.distinct pid t.pid _ hc' hold)
      refine ⟨f₁, by rw [if_neg hnew, if_neg holdne, hf₁], ?_⟩
      rw [Function.update_of_ne htask, hf']
  · intro pid hnot
    have hpid : pid ≠ t.pid := by
      rintro rfl
      exact hnot (by simp [ThreadGroup.HasThread, getThread_switched, ht])
    have htask : (⟨t.tgid, pid⟩ : Task) ≠ t := fun hp => hpid (congrArg Task.pid hp)
    rw [lastActivation_cons he, Function.update_of_ne htask]
    refine h.unregistered pid (fun hthread => hnot ?_)
    rwa [ThreadGroup.HasThread, getThread_switched, if_neg hpid]
  · intro fid f' hf'
    rw [htime]
    rw [getFiber_switched hne] at hf'
    by_cases hk : fid = next
    · subst hk
      rw [if_pos rfl, hf] at hf'
      cases hf'
      rw [if_neg hne.symm, zero_add]
      exact h.total fid f hf
    · rw [if_neg hk] at hf'
      by_cases hko : fid = th.currentFid
      · -- the activation that ends here
        subst hko
        rw [if_pos rfl, hlive] at hf'
        cases hf'
        rw [if_pos rfl, BitVec.ofInt_add, ← sub_eq_ofInt, ← h.total _ old hlive, BitVec.add_comm]
        rfl
      · rw [if_neg hko] at hf'
        rw [if_neg hko, zero_add]
        exact h.total fid f' hf'
  · intro fid hnot
    have habsent : ¬ tg.HasFiber fid := fun hfid =>
      hnot ((switched_effects tg t.pid cpu th.currentFid next).getFiber_isSome hfid)
    have hko : fid ≠ th.currentFid := by
      rintro rfl
      exact habsent (hrest.live _ _ hold)
    rw [htime, if_neg hko, zero_add]
    exact h.absent fid habsent

end Groups

/-! ## Runs -/

/-- The account of the history is that of the registry. -/
structure Timed (h : CallHistory) (groups : Groups) : Prop where
  groups : ∀ tgid, GroupTimed h tgid (groupOf groups tgid)
  threads : ∀ t, ThreadTimed h t

section Runs

variable {past : CallHistory} {groups g : Groups} {t : Task} {cpu : Cpu} {r : Request} {ret : ℤ}

theorem groupOf_of_some {tgid : ℤ} {tg : ThreadGroup} (hg : getGroup tgid groups = some tg) :
    groupOf groups tgid = tg := by
  rw [groupOf, hg]
  rfl

theorem Served.hash (hs : Served groups t cpu r ret g) : g.hash = groups.hash := by
  cases hs with
  | converted _ _ => exact @hash_writeBack groups t.tgid (some _)
  | same _ | created _ _ | refused _ _ | switched _ _ _ _ | stored _ _ _ => rfl

/-- A call of another process. -/
theorem Timed.elsewhere (h : Timed past groups) (hs : Served groups t cpu r ret g) {tgid : ℤ}
    (hne : tgid ≠ t.tgid) :
    GroupTimed (⟨groups, .call t cpu r ret, g⟩ :: past) tgid (groupOf g tgid) := by
  have hgroup : groupOf g tgid = groupOf groups tgid := by
    unfold groupOf
    rw [hs.elsewhere hne, hs.hash]
  obtain ⟨hlast, htime⟩ := group_account_other past groups g cpu r ret (.inl hne)
  rw [hgroup]
  exact (h.groups tgid).congr hlast htime

theorem Timed.step (h : Timed past groups) (hrest : RegistryAtRest groups)
    (hs : Served groups t cpu r ret g)
    (few : ∀ tg, getGroup t.tgid g = some tg → tg.fibers.size < 2 ^ 31) :
    Timed (⟨groups, .call t cpu r ret, g⟩ :: past) g := by
  suffices hself : GroupTimed (⟨groups, .call t cpu r ret, g⟩ :: past) t.tgid (groupOf g t.tgid) ∧
      ThreadTimed (⟨groups, .call t cpu r ret, g⟩ :: past) t by
    refine ⟨fun tgid => ?_, fun u => ?_⟩
    · by_cases hne : tgid = t.tgid
      · rw [hne]
        exact hself.1
      · exact h.elsewhere hs hne
    · by_cases hne : u = t
      · rw [hne]
        exact hself.2
      · exact (h.threads u).other (.inl hne)
  have hgroup := h.groups t.tgid
  have hthread := h.threads t
  -- a call that puts no thread on a fiber, and keeps the account in the registry
  have hidle : r.activated ret = none → KeepsTimes (groupOf groups t.tgid) (groupOf g t.tgid) →
      GroupTimed (⟨groups, .call t cpu r ret, g⟩ :: past) t.tgid (groupOf g t.tgid) ∧
        ThreadTimed (⟨groups, .call t cpu r ret, g⟩ :: past) t := by
    intro ha hk
    obtain ⟨hlast, htime⟩ := group_account_other past groups g cpu r ret (.inr ha)
    exact ⟨(hgroup.keeps hk).congr hlast htime, hthread.other (.inr ha)⟩
  have hstore : ∀ {tg tg' : ThreadGroup}, getGroup t.tgid groups = some tg → tg'.tgid = tg.tgid →
      getGroup t.tgid (storeGroup groups tg') = some tg' := fun hg ht =>
    getGroup_storeGroup_self groups (ht.trans (tgid_of_getGroup hg)) hg
  cases hs with
  | same ha =>
    exact hidle ha ⟨rfl, fun _ f hf => ⟨f, hf, rfl, rfl⟩, fun _ _ hn hf => by simp [hn] at hf⟩
  | @created a tg th ret hg =>
    have hg' := hstore hg (tgid_created tg th cpu a)
    have hfid := (hrest.atRest _ tg hg).nextFid_fresh
      (lt_of_le_of_lt (created_effects tg t.pid th cpu a).size_le (few _ hg'))
    refine hidle (by simp [Request.activated]) ?_
    rw [groupOf_of_some hg, groupOf_of_some hg']
    exact .created hfid
  | @refused next tg f hg hf =>
    refine hidle (activated_of_neg (by decide)) ?_
    rw [groupOf_of_some hg, groupOf_of_some (hstore hg (tgid_onFiber tg next _ _))]
    exact .write (fun _ => ⟨rfl, rfl⟩)
  | @stored r ret tg fid w hw ha hg hfls =>
    refine hidle ha ?_
    rw [groupOf_of_some hg, groupOf_of_some (hstore hg (tgid_onFiber tg fid w hw))]
    refine .write (fun f => ?_)
    obtain ⟨x, hx⟩ := hfls f
    rw [hx]
    exact ⟨rfl, rfl⟩
  | converted hn hpos =>
    have hg' := getGroup_storeGroup_converted groups t cpu
    have hfid := (hrest.groupOf t.tgid).nextFid_fresh
      (lt_of_le_of_lt (converted_effects hn cpu).size_le (few _ hg'))
    rw [groupOf_of_some hg']
    refine ⟨hgroup.convert (hrest.groupOf t.tgid) hn hpos hfid, hthread.convert ?_ hpos⟩
    exact hgroup.unregistered t.pid (by simp [ThreadGroup.HasThread, hn])
  | @switched next tg th f hg ht hf hl =>
    rw [groupOf_of_some hg] at hgroup
    rw [groupOf_of_some (hstore hg (tgid_switched tg t.pid cpu th.currentFid next))]
    obtain ⟨old, -, hlast⟩ := hgroup.current t.pid th.currentFid ⟨th, ht, rfl⟩
    exact ⟨hgroup.switch (hrest.atRest _ tg hg) ht hf hl, hthread.switch hlast⟩

/-- No process has released the device. -/
def DeviceCall.isCall : DeviceCall → Bool
  | .call _ _ _ _ => true
  | .release _ => false

theorem timed_of_run {hash : ℤ → Bucket} {h : CallHistory} (hr : Run CallStep (.init hash) h groups)
    (hcalls : ∀ e ∈ h, e.act.isCall = true) : Timed h groups := by
  induction hr with
  | start =>
    refine ⟨fun tgid => .fresh hash tgid, fun t => ⟨fun _ => ⟨rfl, rfl, rfl⟩, ?_⟩⟩
    rintro fid u ⟨⟩
  | next hr hs ih =>
    have hpast := ih (fun e he => hcalls e (List.mem_cons_of_mem _ he))
    have hrest := atRest_of_run hr
    cases hs with
    | call mem run few => exact hpast.step hrest (serve_cases hrest run few) few
    | release t => cases hcalls _ List.mem_cons_self

/-! ## The clocks -/

theorem lastActivation_mem {h : CallHistory} {fid : ℤ} {u : Word}
    (hlast : lastActivation h t = some (fid, u)) :
    ∃ e ∈ h, ∃ cpu r ret, e.act = .call t cpu r ret ∧ cpu.utime = u := by
  induction h with
  | nil => cases hlast
  | cons e past ih =>
    have hpast : lastActivation past t = some (fid, u) →
        ∃ e' ∈ e :: past, ∃ cpu r ret, e'.act = .call t cpu r ret ∧ cpu.utime = u := by
      intro h
      obtain ⟨e', he', hcall⟩ := ih h
      exact ⟨e', List.mem_cons_of_mem e he', hcall⟩
    cases ha : e.act.activation with
    | none =>
      rw [lastActivation_cons_none ha] at hlast
      exact hpast hlast
    | some x =>
      obtain ⟨t', k, v⟩ := x
      rw [lastActivation_cons ha] at hlast
      by_cases ht : t = t'
      · subst ht
        rw [Function.update_self] at hlast
        cases hlast
        cases hact : e.act with
        | release t' =>
          rw [hact] at ha
          cases ha
        | call t' cpu r ret =>
          rw [hact] at ha
          obtain ⟨k', -, hk⟩ := Option.map_eq_some_iff.mp ha
          cases hk
          exact ⟨e, List.mem_cons_self, cpu, r, ret, hact, rfl⟩
      · rw [Function.update_of_ne ht] at hlast
        exact hpast hlast

/-- The reading at an activation is not later than the reading at a later call of the thread. -/
theorem start_le {e : Entry Groups DeviceCall} {fid : ℤ} {u : Word} (hclock : ClockRuns past e)
    (he : e.act = .call t cpu r ret) (hlast : lastActivation past t = some (fid, u)) :
    u ≤ cpu.utime := by
  obtain ⟨e', he', cpu', r', ret', hact, rfl⟩ := lastActivation_mem hlast
  have hread : e.act.reading = some (t, cpu.utime) := by
    rw [he]
    rfl
  have hread' : e'.act.reading = some (t, cpu'.utime) := by
    rw [hact]
    rfl
  exact hclock _ hread e' he' _ hread' rfl

theorem completed_ordered {h : CallHistory} (hclock : EveryEntry ClockRuns h) :
    ∀ a ∈ completed h, a.start ≤ a.stop := by
  induction h with
  | nil => simp [completed]
  | cons e past ih =>
    have hpast := ih hclock.2
    intro a ha
    cases hact : e.act with
    | release t =>
      rw [completed, hact] at ha
      exact hpast a ha
    | call t cpu r ret =>
      have hactivation : e.act.activation = (r.activated ret).map fun fid => (t, fid, cpu.utime) := by
        rw [hact]
        rfl
      cases hk : r.activated ret with
      | none =>
        rw [completed, hactivation, hk] at ha
        exact hpast a ha
      | some k =>
        rw [completed, hactivation, hk] at ha
        rcases List.mem_append.mp ha with ha | ha
        · obtain ⟨⟨fid, u⟩, hlast, rfl⟩ := Option.map_eq_some_iff.mp (Option.mem_toList.mp ha)
          exact start_le hclock.1 hact hlast
        · exact hpast a ha

theorem timeOf_nonneg {h : CallHistory} (hclock : EveryEntry ClockRuns h) (P : Activation → Prop)
    [DecidablePred P] : 0 ≤ timeOf P h := by
  refine List.sum_nonneg (fun x hx => ?_)
  obtain ⟨a, ha, rfl⟩ := List.mem_map.mp hx
  have hle := completed_ordered hclock a (List.mem_of_mem_filter ha)
  have : a.start.toNat ≤ a.stop.toNat := hle
  unfold Activation.gained
  omega

/-- A successful switch subtracts the reading at the activation of the fiber it leaves, which the
same thread has activated. -/
theorem subtractsForward_step (h : Timed past groups) (hs : Served groups t cpu r ret g)
    (hclock : ClockRuns past ⟨groups, .call t cpu r ret, g⟩) :
    SubtractsForward ⟨groups, .call t cpu r ret, g⟩ := by
  rintro _ _ next ⟨⟩
  have hsome : (Request.switchToFiber next).activated 0 = some next := rfl
  obtain ⟨tg, th, hg, ht⟩ : ∃ tg th, getGroup t.tgid groups = some tg ∧
      getThread t.pid tg = some th := by
    generalize hr : Request.switchToFiber next = r at hs hsome
    generalize hret : (0 : ℤ) = ret at hs hsome
    cases hs with
    | same ha | stored ha _ _ =>
      rw [hsome] at ha
      cases ha
    | converted _ _ | created _ _ => cases hr
    | refused _ _ => cases hret
    | switched hg ht _ _ => exact ⟨_, _, hg, ht⟩
  have hgroup := h.groups t.tgid
  rw [groupOf_of_some hg] at hgroup
  obtain ⟨f, hf, hlast⟩ := hgroup.current t.pid th.currentFid ⟨th, ht, rfl⟩
  exact ⟨tg, th, f, hg, ht, hf, start_le hclock rfl hlast⟩

theorem subtractsForward_of_run {hash : ℤ → Bucket} {h : CallHistory}
    (hr : Run CallStep (.init hash) h groups) (hcalls : ∀ e ∈ h, e.act.isCall = true)
    (hclock : EveryEntry ClockRuns h) : EveryEntry (fun _ e => SubtractsForward e) h := by
  induction hr with
  | start => trivial
  | next hr hs ih =>
    have hpast := fun e he => hcalls e (List.mem_cons_of_mem _ he)
    refine ⟨?_, ih hpast hclock.2⟩
    cases hs with
    | call mem run few =>
      have hserved := serve_cases (atRest_of_run hr) run few
      exact subtractsForward_step (timed_of_run hr hpast) hserved hclock.1
    | release t => cases hcalls _ List.mem_cons_self

/-- In every run of whole calls without a release, with clocks that do not run backwards: no switch
subtracts a later reading, the total of a fiber is the sum of what its activations gained, and a
thread has contributed the time from its convert to its last switch. -/
theorem running_time_conserved {hash : ℤ → Bucket} {h : CallHistory}
    (hr : Run CallStep (.init hash) h groups) (hcalls : ∀ e ∈ h, e.act.isCall = true)
    (hclock : EveryEntry ClockRuns h) :
    EveryEntry (fun _ e => SubtractsForward e) h ∧
      (∀ tgid tg fid f, getGroup tgid groups = some tg → getFiber fid tg = some f →
        timeOnFiber h tgid fid < 2 ^ 64 →
        (f.info.totalRunningTime.toNat : ℤ) = timeOnFiber h tgid fid) ∧
      ∀ t u₀ u, convertTime h t = some u₀ → lastSwitchTime h t = some u →
        timeOfThread h t = (u.toNat : ℤ) - u₀.toNat := by
  have htimed := timed_of_run hr hcalls
  refine ⟨subtractsForward_of_run hr hcalls hclock, ?_, ?_⟩
  · intro tgid tg fid f hg hf hlt
    have hgroup := htimed.groups tgid
    rw [groupOf_of_some hg] at hgroup
    have hpos : 0 ≤ timeOnFiber h tgid fid := timeOf_nonneg hclock _
    rw [hgroup.total fid f hf, BitVec.toNat_ofInt]
    omega
  · intro t u₀ u hconvert hswitch
    have hthread := htimed.threads t
    cases hlast : lastActivation h t with
    | none =>
      rw [(hthread.unconverted hlast).1] at hconvert
      cases hconvert
    | some x =>
      obtain ⟨fid, v⟩ := x
      obtain ⟨v₀, hv₀, hv, htime⟩ := hthread.converted fid v hlast
      obtain rfl : v₀ = u₀ := Option.some.inj (hv₀.symm.trans hconvert)
      rw [hv u hswitch]
      exact htime

end Runs

/-- A thread leaves its fiber after 15 ticks, and another thread, whose clock is far ahead, enters it
and leaves it after 7. -/
def sharedFiber : List DeviceCall :=
  [.call ⟨1, 1⟩ { (default : Cpu) with utime := 10 } .convertThreadToFiber 0,
    .call ⟨1, 2⟩ { (default : Cpu) with utime := 1000 } .convertThreadToFiber 1,
    .call ⟨1, 1⟩ { (default : Cpu) with utime := 20 } (.createFiber ⟨0x4000, 16, 0x400000, 7⟩) 2,
    .call ⟨1, 1⟩ { (default : Cpu) with utime := 25 } (.switchToFiber 2) 0,
    .call ⟨1, 2⟩ { (default : Cpu) with utime := 1003 } (.switchToFiber 0) 0,
    .call ⟨1, 2⟩ { (default : Cpu) with utime := 1010 } (.switchToFiber 1) 0]

theorem running_time_conserved_sharedFiber :
    ∃ h groups, Run CallStep (.init (fun _ => 0)) h groups ∧ timeOnFiber h 1 0 = 22 ∧
      (EveryEntry (fun _ e => SubtractsForward e) h ∧
        (∀ tgid tg fid f, getGroup tgid groups = some tg → getFiber fid tg = some f →
          timeOnFiber h tgid fid < 2 ^ 64 →
          (f.info.totalRunningTime.toNat : ℤ) = timeOnFiber h tgid fid) ∧
        ∀ t u₀ u, convertTime h t = some u₀ → lastSwitchTime h t = some u →
          timeOfThread h t = (u.toNat : ℤ) - u₀.toNat) := by
  obtain ⟨h, groups, he, hc⟩ := Run.exists_execute (fun g a => DeviceCall.apply g a)
    (.init (fun _ => 0)) sharedFiber
    (fun h _ => decide (timeOnFiber h 1 0 = 22 ∧ (∀ e ∈ h, e.act.isCall = true) ∧
      EveryEntry ClockRuns h)) (by decide +kernel)
  obtain ⟨htime, hcalls, hclock⟩ := of_decide_eq_true hc
  have hr := run_of_applied _ he
  exact ⟨h, groups, hr, htime, running_time_conserved hr hcalls hclock⟩

end Fibers
