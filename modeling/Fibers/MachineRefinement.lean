import Fibers.FiberMachine
import Fibers.SlotAllocator
import Fibers.WholeCalls

/-!
# The device is a fiber machine

The registry, seen from a process, is its machine of fibers: a locked fiber is one that a thread is
on, and its saved context is nobody's; an unlocked fiber is parked. Hash tables, buckets, states,
statistics and times are not seen. Every action of a user of the device is then the action of the
machine, with the same result, registers and memory. An ioctl is one step, its allocations succeed,
and no group gets to 2^31 fibers.

## Main results

- `answer_serve` — a request to a registry at rest gets the answer of the machine
- `device_is_machine` — a run of the device is a run of the machines of its processes
-/

namespace Fibers

/-! ## The machine of a group -/

/-- The fiber as its process knows it. -/
def Fiber.strand (f : Fiber) : Strand where
  parked := if f.flock then none else some f.context
  live := f.fls.bmp
  slot := f.fls.data

/-- The fibers of a group, or of none. -/
def machineOf : Option ThreadGroup → FiberMachine
  | none => .empty
  | some tg =>
    { on := fun pid => (getThread pid tg).map Thread.currentFid
      strand := fun fid => (getFiber fid tg).map Fiber.strand
      count := tg.fibers.size }

/-- The machine of a process. -/
def machineIn (groups : Groups) (tgid : ℤ) : FiberMachine := machineOf (getGroup tgid groups)

section Group

variable {tg : ThreadGroup} {pid fid : ℤ} {cpu : Cpu}

@[simp] theorem on_machineOf (tg : ThreadGroup) (pid : ℤ) :
    (machineOf (some tg)).on pid = (getThread pid tg).map Thread.currentFid := rfl

@[simp] theorem strand_machineOf (tg : ThreadGroup) (fid : ℤ) :
    (machineOf (some tg)).strand fid = (getFiber fid tg).map Fiber.strand := rfl

@[simp] theorem count_machineOf (tg : ThreadGroup) :
    (machineOf (some tg)).count = tg.fibers.size := by
  simp only [machineOf]

theorem machineOf_freshGroup (hash : ℤ → Bucket) (tgid : ℤ) :
    machineOf (some (freshGroup hash tgid)) = .empty := by
  ext1
  · rfl
  · rfl
  · rw [count_machineOf]
    exact HashTable.size_init hash

theorem machineOf_groupOf (groups : Groups) (tgid : ℤ) :
    machineOf (some (groupOf groups tgid)) = machineIn groups tgid := by
  unfold groupOf machineIn
  cases getGroup tgid groups with
  | none => exact machineOf_freshGroup _ _
  | some tg => rfl

/-- A write to a fiber that is there. -/
theorem machineOf_onFiber {f : Fiber} {g : Fiber → Fiber} {hg : ∀ f, (g f).fid = f.fid}
    (hf : getFiber fid tg = some f) :
    machineOf (some (tg.onFiber fid g hg)) = (machineOf (some tg)).store fid (g f).strand := by
  ext1
  · rfl
  · funext k
    by_cases hk : k = fid
    · simp [hk, hf]
    · simp [hk]
  · simp

theorem store_self {m : FiberMachine} {st : Strand} (h : m.strand fid = some st) :
    m.store fid st = m := by
  ext1
  · rfl
  · rw [FiberMachine.strand_store, ← h]
    exact Function.update_eq_self _ _
  · rfl

/-- The number of a new fiber, when the counter has not wrapped. -/
theorem AtRest.nextFid_eq_count (h : AtRest tg) (few : tg.fibers.size < 2 ^ 31) :
    nextFid tg = (machineOf (some tg)).count := by
  rw [count_machineOf]
  exact h.numbered.nextFid_eq few

theorem machineOf_converted (hfid : nextFid tg = (machineOf (some tg)).count) :
    machineOf (some (converted tg pid cpu)) =
      ((machineOf (some tg)).spawn none).enter pid (nextFid tg) := by
  have hnew : (convertedFiber tg pid cpu).strand = .new none := rfl
  ext1
  · funext p
    by_cases hp : p = pid
    · simp [hp]
    · simp [hp]
  · funext k
    rw [FiberMachine.strand_enter, FiberMachine.strand_spawn, ← hfid]
    by_cases hk : k = nextFid tg
    · simp [hk, hnew]
    · simp [hk]
  · rw [FiberMachine.count_enter, FiberMachine.count_spawn, count_machineOf, count_machineOf,
      size_converted]

theorem machineOf_created (t : Thread) (a : FibArgs)
    (hfid : nextFid tg = (machineOf (some tg)).count) :
    machineOf (some (created tg t cpu a)) = (machineOf (some tg)).spawn (some (a.start cpu)) := by
  have hnew : (createdFiber tg t cpu a).strand = .new (some (a.start cpu)) := rfl
  ext1
  · rfl
  · funext k
    rw [FiberMachine.strand_spawn, ← hfid]
    by_cases hk : k = nextFid tg
    · simp [hk, hnew]
    · simp [hk]
  · rw [FiberMachine.count_spawn, count_machineOf, count_machineOf, size_created]

theorem size_switched (old new : ℤ) :
    (switched tg pid cpu old new).fibers.size = tg.fibers.size := by
  simp [switched, activateFiberFromThread]

theorem machineOf_switched {old new : ℤ} (hne : old ≠ new) (ht : tg.HasThread pid) :
    machineOf (some (switched tg pid cpu old new)) =
      (((machineOf (some tg)).park old (some (prepareContext cpu))).park new none).enter
        pid new := by
  obtain ⟨th, ht⟩ := Option.isSome_iff_exists.mp ht
  have hentered : ∀ f : Fiber, (f.entered pid cpu.utime).strand = { f.strand with parked := none } :=
    fun _ => rfl
  have hleft : ∀ f : Fiber,
      (f.leave cpu).strand = { f.strand with parked := some (prepareContext cpu) } := fun _ => rfl
  ext1
  · funext p
    by_cases hp : p = pid
    · simp [hp, getThread_switched, ht]
    · simp [hp, getThread_switched]
  · funext k
    by_cases hk : k = new
    · simp [hk, hne.symm, getFiber_switched hne, Function.comp_def, hentered]
    · by_cases hk' : k = old
      · simp [hk', hne, getFiber_switched hne, Function.comp_def, hleft]
      · simp [hk, hk', getFiber_switched hne]
  · simp [size_switched]

end Group

/-! ## Request by request -/

/-- What a process sees of an outcome. -/
def Outcome.answer (o : Outcome) (tgid : ℤ) : Answer :=
  ⟨machineIn o.groups tgid, o.cpu, o.mem, o.ret⟩

section Calls

variable {groups g : Groups} {t : Task} {cpu : Cpu} {mem : UserMemory} {r : Ret} {tg : ThreadGroup}

theorem machineIn_storeGroup (tg' : ThreadGroup) (hg : getGroup t.tgid groups = some tg)
    (ht : tg'.tgid = tg.tgid) :
    machineIn (storeGroup groups tg') t.tgid = machineOf (some tg') := by
  rw [machineIn, getGroup_storeGroup_self groups (ht.trans (tgid_of_getGroup hg)) hg]

theorem convert_answer (h : RegistryAtRest groups)
    (ho : doConvertThreadToFiber .succeeds groups t cpu = some (g, r))
    (few : ∀ tg, getGroup t.tgid g = some tg → tg.fibers.size < 2 ^ 31) :
    (machineIn g t.tgid, r) = (machineIn groups t.tgid).convert t.pid := by
  rw [doConvertThreadToFiber_eq, if_neg (by simp [Kmalloc.succeeds])] at ho
  rw [← machineOf_groupOf groups, FiberMachine.convert, on_machineOf]
  cases ht : getThread t.pid (groupOf groups t.tgid) with
  | some th =>
    simp only [ht, Option.some.injEq, Prod.mk.injEq] at ho
    obtain ⟨rfl, rfl⟩ := ho
    rw [machineIn, getGroup_lookupOrGenerate, if_pos rfl]
    rfl
  | none =>
    simp only [ht, Kmalloc.succeeds, and_self, if_true, Option.some.injEq, Prod.mk.injEq] at ho
    obtain ⟨rfl, rfl⟩ := ho
    have hgroup := getGroup_storeGroup_converted groups t cpu
    have hsize := few _ hgroup
    rw [size_converted] at hsize
    have hfid := (h.groupOf t.tgid).nextFid_eq_count (by omega)
    rw [machineIn, hgroup, machineOf_converted hfid, hfid]
    rfl

theorem create_answer (h : RegistryAtRest groups) {a : FibArgs}
    (ho : doCreateFiber .succeeds groups t cpu a = some (g, r))
    (few : ∀ tg, getGroup t.tgid g = some tg → tg.fibers.size < 2 ^ 31) :
    (machineIn g t.tgid, r) = (machineIn groups t.tgid).create t.pid cpu a := by
  rw [doCreateFiber_eq] at ho
  cases hg : getGroup t.tgid groups with
  | none =>
    simp only [hg, Option.some.injEq, Prod.mk.injEq] at ho
    obtain ⟨rfl, rfl⟩ := ho
    rw [machineIn, hg]
    rfl
  | some tg =>
    have hm : machineIn groups t.tgid = machineOf (some tg) := congrArg machineOf hg
    rw [hm, FiberMachine.create, on_machineOf]
    cases ht : getThread t.pid tg with
    | none =>
      simp only [hg, ht, Option.some.injEq, Prod.mk.injEq] at ho
      obtain ⟨rfl, rfl⟩ := ho
      rw [hm]
      rfl
    | some th =>
      simp only [hg, ht, Kmalloc.succeeds, if_true, Option.some.injEq, Prod.mk.injEq] at ho
      obtain ⟨rfl, rfl⟩ := ho
      have htgid := (tgid_created tg th cpu a).trans (tgid_of_getGroup hg)
      have hstored := getGroup_storeGroup_self groups htgid hg
      have hsize := few _ hstored
      rw [size_created] at hsize
      have hfid := (h.atRest _ _ hg).nextFid_eq_count (by omega)
      rw [machineIn, hstored, machineOf_created th a hfid, hfid]
      rfl

theorem switch_answer (h : RegistryAtRest groups) (next : ℤ) :
    (machineIn (doSwitchToFiber groups t cpu next).1 t.tgid, (doSwitchToFiber groups t cpu next).2) =
      (machineIn groups t.tgid).switch t.pid cpu next := by
  cases hg : getGroup t.tgid groups with
  | none =>
    have hm : machineIn groups t.tgid = .empty := congrArg machineOf hg
    simp only [doSwitchToFiber, hg, hm]
    rfl
  | some tg =>
    have hm : machineIn groups t.tgid = machineOf (some tg) := congrArg machineOf hg
    have hrest := h.atRest _ _ hg
    rw [doSwitchToFiber_eq hrest hg, hm]
    unfold FiberMachine.switch
    cases ht : getThread t.pid tg with
    | none => simp [machineOf, ht, hm]
    | some th =>
      cases hf : getFiber next tg with
      | none => simp [machineOf, ht, hf, hm]
      | some f =>
        cases hl : f.flock with
        | true =>
          -- a failure is counted, which the process does not see
          have hstored : machineIn (storeGroup groups (tg.onFiber next Fiber.countFailure)) t.tgid =
              machineOf (some tg) := by
            rw [machineIn_storeGroup (tg.onFiber next Fiber.countFailure) hg rfl,
              machineOf_onFiber hf]
            apply store_self
            simp [hf, Fiber.strand]
          simp [machineOf, ht, hf, hl, hstored, Fiber.strand]
        | false =>
          have hold : tg.CurrentIs t.pid th.currentFid := ⟨th, ht, rfl⟩
          have hne := hrest.old_ne_new hold hf hl
          have hstored := machineIn_storeGroup _ hg (tgid_switched tg t.pid cpu th.currentFid next)
          rw [machineOf_switched hne hold.hasThread] at hstored
          simp [machineOf, ht, hf, hl, hstored, Fiber.strand, Cpu.resume]

/-- The fiber of a caller, on both sides. -/
theorem current_machineIn (groups : Groups) (t : Task) :
    (machineIn groups t.tgid).current t.pid =
      (currentFiber groups t).map fun x => (x.2.fid, x.2.strand) := by
  unfold FiberMachine.current currentFiber
  cases hg : getGroup t.tgid groups with
  | none =>
    rw [machineIn, hg]
    rfl
  | some tg =>
    rw [machineIn, hg, on_machineOf]
    cases ht : getThread t.pid tg with
    | none => simp [ht]
    | some th =>
      cases hf : getFiber th.currentFid tg with
      | none => simp [ht, hf]
      | some f => simp [ht, hf, fid_of_getFiber hf]

/-- A write to the slots of the caller's fiber. -/
theorem machineIn_write {f : Fiber} (hc : currentFiber groups t = some (tg, f)) {w : Fiber → Fiber}
    {hw : ∀ f, (w f).fid = f.fid} :
    machineIn (storeGroup groups (tg.onFiber f.fid w hw)) t.tgid =
      (machineIn groups t.tgid).store f.fid (w f).strand := by
  obtain ⟨hg, th, ht, hf⟩ := currentFiber_eq_some_iff.mp hc
  have hfid := fid_of_getFiber hf
  rw [machineIn_storeGroup _ hg (tgid_onFiber tg f.fid w hw), machineOf_onFiber (hfid ▸ hf),
    machineIn, hg]

theorem flsAlloc_answer (groups : Groups) (t : Task) :
    (machineIn (doFlsAlloc groups t).1 t.tgid, (doFlsAlloc groups t).2) =
      (machineIn groups t.tgid).flsAlloc t.pid := by
  unfold doFlsAlloc FiberMachine.flsAlloc
  rw [current_machineIn]
  cases hc : currentFiber groups t with
  | none => rfl
  | some x =>
    obtain ⟨tg, f⟩ := x
    dsimp only [Option.map_some]
    by_cases hlt : findFirstZeroBit f.fls.bmp < flsMaxSize
    · have hbit := bmp_findFirstZeroBit hlt
      have hleast : IsLeast {i | f.strand.live i = false} ⟨findFirstZeroBit f.fls.bmp, hlt⟩ := by
        refine ⟨hbit, ?_⟩
        intro j hj
        by_contra hn
        cases (bmp_of_lt_findFirstZeroBit (not_le.mp hn)).symm.trans hj
      rw [dif_pos hlt, least_eq_some hleast, machineIn_write hc]
      simp [Fiber.strand, hbit]
    · have hfull : {i | f.strand.live i = false} = ∅ := by
        ext i
        have hset := bmp_of_lt_findFirstZeroBit (show i < findFirstZeroBit f.fls.bmp by omega)
        simp [Fiber.strand, hset]
      rw [dif_neg hlt, hfull, least_empty]

theorem flsAt_machineIn (groups : Groups) (t : Task) (idx : ℤ) (e : Errno) :
    (machineIn groups t.tgid).flsAt t.pid idx e =
      match flsIndex idx with
      | none => .error e
      | some i =>
        match currentFiber groups t with
        | none => .error .ESRCH
        | some (_, f) => if f.fls.bmp i then .ok (i, f.fid, f.strand) else .error .EACCES := by
  unfold FiberMachine.flsAt
  rw [current_machineIn]
  cases flsIndex idx with
  | none => rfl
  | some i => cases currentFiber groups t <;> rfl

theorem flsFree_answer (groups : Groups) (t : Task) (idx : ℤ) :
    (machineIn (doFlsFree groups t idx).1 t.tgid, (doFlsFree groups t idx).2) =
      (machineIn groups t.tgid).flsFree t.pid idx := by
  unfold doFlsFree FiberMachine.flsFree
  rw [flsAt_machineIn]
  cases flsIndex idx with
  | none => rfl
  | some i =>
    cases hc : currentFiber groups t with
    | none => rfl
    | some x =>
      obtain ⟨tg, f⟩ := x
      cases hb : f.fls.bmp i with
      | false => simp [hb]
      | true =>
        simp only [hb, if_true, machineIn_write hc]
        simp [Fiber.strand, hb]

theorem flsSetValue_answer (groups : Groups) (t : Task) (idx : ℤ) (value : Word) :
    (machineIn (doFlsSetValue groups t idx value).1 t.tgid, (doFlsSetValue groups t idx value).2) =
      (machineIn groups t.tgid).flsSetValue t.pid idx value := by
  unfold doFlsSetValue FiberMachine.flsSetValue
  rw [flsAt_machineIn]
  cases flsIndex idx with
  | none => rfl
  | some i =>
    cases hc : currentFiber groups t with
    | none => rfl
    | some x =>
      obtain ⟨tg, f⟩ := x
      cases hb : f.fls.bmp i with
      | false => simp [hb]
      | true =>
        simp only [hb, if_true, machineIn_write hc]
        simp [Fiber.strand]

theorem flsGetValue_answer (groups : Groups) (t : Task) (idx : ℤ) :
    doFlsGetValue groups t idx = (machineIn groups t.tgid).flsGetValue t.pid idx := by
  unfold doFlsGetValue FiberMachine.flsGetValue
  rw [flsAt_machineIn]
  cases flsIndex idx with
  | none => rfl
  | some i =>
    cases currentFiber groups t with
    | none => rfl
    | some x =>
      obtain ⟨tg, f⟩ := x
      cases hb : f.fls.bmp i with
      | false => simp [hb]
      | true => simp [hb, Fiber.strand]

/-- A request to a registry at rest gets the answer of the machine. -/
theorem answer_serve (h : RegistryAtRest groups) {req : Request} {o : Outcome}
    (ho : req.serve .succeeds groups t cpu mem = some o)
    (few : ∀ tg, getGroup t.tgid o.groups = some tg → tg.fibers.size < 2 ^ 31) :
    o.answer t.tgid = (machineIn groups t.tgid).serve t.pid cpu mem req := by
  have hcall : ∀ {x : Groups × Ret} {y : FiberMachine × Ret}, (machineIn x.1 t.tgid, x.2) = y →
      (Outcome.call cpu mem x).answer t.tgid = FiberMachine.answer cpu mem y := by
    rintro x y rfl
    rfl
  cases req with
  | unknown | unreadable =>
    cases ho
    rfl
  | convertThreadToFiber =>
    obtain ⟨⟨g, r⟩, hdo, rfl⟩ := Option.map_eq_some_iff.mp ho
    exact hcall (convert_answer h hdo few)
  | createFiber a =>
    obtain ⟨⟨g, r⟩, hdo, rfl⟩ := Option.map_eq_some_iff.mp ho
    exact hcall (create_answer h hdo few)
  | switchToFiber next =>
    cases ho
    rw [FiberMachine.serve, ← switch_answer h]
    rfl
  | flsAlloc =>
    cases ho
    exact hcall (flsAlloc_answer groups t)
  | flsGetValue idx value =>
    cases ho
    rw [FiberMachine.serve, ← flsGetValue_answer]
    rfl
  | flsFree idx =>
    cases ho
    exact hcall (flsFree_answer groups t idx)
  | flsSetValue idx value =>
    cases ho
    exact hcall (flsSetValue_answer groups t idx value)

end Calls

/-! ## Runs of the device -/

/-- The machines of the processes that use the device. -/
def DeviceCfg.world (s : DeviceCfg) : World := ⟨machineIn s.groups, s.cpu, s.mem⟩

/-- An action of a user of the device with its result, after which its group has fewer than 2^31
fibers. -/
def DeviceStep (s : DeviceCfg) (a : DeviceAction × Option ℤ) (s' : DeviceCfg) : Prop :=
  s.step a.1 = some (s', a.2) ∧
    ∀ tg, getGroup a.1.task.tgid s'.groups = some tg → tg.fibers.size < 2 ^ 31

section Runs

variable {s s' : DeviceCfg} {a : DeviceAction × Option ℤ}

theorem RegistryAtRest.release {groups : Groups} (h : RegistryAtRest groups) (t : Task) :
    RegistryAtRest (fibersRelease groups t) := (CallStep.release t).atRest h

theorem DeviceStep.atRest (hs : DeviceStep s a s') (h : RegistryAtRest s.groups) :
    RegistryAtRest s'.groups := by
  obtain ⟨act, ret⟩ := a
  obtain ⟨hstep, few⟩ := hs
  cases act with
  | user t cpu =>
    cases hstep
    exact h
  | write t mem =>
    cases hstep
    exact h
  | ioctl t cmd args =>
    obtain ⟨o, ho, he⟩ := Option.map_eq_some_iff.mp hstep
    cases he
    rw [fibersIoctl_eq] at ho
    exact (serve_cases h ho few).atRest h few
  | release t =>
    cases hstep
    exact h.release t

/-- A step of the device is a step of the machines. -/
theorem DeviceStep.refines (hs : DeviceStep s a s') (h : RegistryAtRest s.groups) :
    World.Step s.world a s'.world := by
  obtain ⟨act, ret⟩ := a
  obtain ⟨hstep, few⟩ := hs
  cases act with
  | user t cpu =>
    cases hstep
    rfl
  | write t mem =>
    cases hstep
    rfl
  | ioctl t cmd args =>
    obtain ⟨o, ho, he⟩ := Option.map_eq_some_iff.mp hstep
    cases he
    rw [fibersIoctl_eq] at ho
    have hserved := serve_cases h ho few
    have hanswer := answer_serve h ho few
    have hmachine : Function.update (machineIn s.groups) t.tgid (machineIn o.groups t.tgid) =
        machineIn o.groups := by
      funext k
      by_cases hk : k = t.tgid
      · rw [hk, Function.update_self]
      · rw [Function.update_of_ne hk, machineIn, machineIn, hserved.elsewhere hk]
    have hafter : s.world.after t (o.answer t.tgid) = (s.after t o).world :=
      congrArg (fun m => World.mk m (s.after t o).cpu (s.after t o).mem) hmachine
    rw [World.Step, ← hafter]
    exact congrArg (fun a : Answer => (s.world.after t a, some a.ret)) hanswer.symm
  | release t =>
    cases hstep
    have hmachine : Function.update (machineIn s.groups) t.tgid .empty =
        machineIn (fibersRelease s.groups t) := by
      funext k
      rw [machineIn, fibersRelease, getGroup_cleanupProcess h.unique]
      by_cases hk : k = t.tgid
      · rw [hk, Function.update_self, if_pos rfl]
        rfl
      · rw [Function.update_of_ne hk, if_neg hk]
        rfl
    exact congrArg (fun m => (World.mk m s.cpu s.mem, some (0 : ℤ))) hmachine

theorem world_initial (hash : ℤ → Bucket) (cpu : Task → Cpu) (mem : ℤ → UserMemory) :
    (DeviceCfg.initial hash cpu mem).world = .initial cpu mem := rfl

theorem atRest_initial (hash : ℤ → Bucket) (cpu : Task → Cpu) (mem : ℤ → UserMemory) :
    RegistryAtRest (DeviceCfg.initial hash cpu mem).groups := by
  refine ⟨HashTable.unique_init hash, ?_⟩
  intro tgid tg hg
  cases hg

/-- A run of the device is a run of the machines of its processes: the same results, registers and
memory, and fibers that are parked unless exactly one thread is on them. -/
theorem device_is_machine {hash : ℤ → Bucket} {cpu : Task → Cpu} {mem : ℤ → UserMemory}
    {h : List (Entry DeviceCfg (DeviceAction × Option ℤ))}
    (hr : Run DeviceStep (.initial hash cpu mem) h s) :
    Run World.Step (.initial cpu mem) (h.map (Entry.map DeviceCfg.world)) s.world ∧
      s.world.Consistent := by
  have hrun := hr.refined (f := DeviceCfg.world) (I := fun s => RegistryAtRest s.groups)
    (atRest_initial hash cpu mem) (fun _ _ _ hi hs => hs.atRest hi)
    (fun _ _ _ hi hs => hs.refines hi)
  rw [world_initial] at hrun
  exact ⟨hrun, World.consistent_of_run hrun⟩

/-- A step as a function, for runs of given actions. -/
def DeviceCfg.apply (s : DeviceCfg) (a : DeviceAction × Option ℤ) : Option DeviceCfg :=
  match s.step a.1 with
  | none => none
  | some (s', ret) =>
    if ret = a.2 ∧ (getGroup a.1.task.tgid s'.groups).all (fun tg => tg.fibers.size < 2 ^ 31) then
      some s'
    else none

theorem deviceStep_of_apply (ha : s.apply a = some s') : DeviceStep s a s' := by
  unfold DeviceCfg.apply at ha
  split at ha
  · cases ha
  · next hstep =>
    split at ha
    · next hc =>
      obtain ⟨rfl, hfew⟩ := hc
      cases ha
      refine ⟨hstep, ?_⟩
      intro tg hg
      simpa [hg] using hfew
    · cases ha

/-- One thread creates a fiber and switches to it, a second one gets a fiber with a slot and cannot
switch to the first one's, and another process comes and goes. -/
def twoProcesses : List (DeviceAction × Option ℤ) :=
  let args := wordBytes 0x4000 ++ wordBytes 16 ++ wordBytes 0x400000 ++ wordBytes 7
  [(.ioctl ⟨1, 1⟩ ioctlConvertThreadToFiber 0, some 0),
    (.write ⟨1, 1⟩ (flatMemory.store 0x1000 args), none),
    (.ioctl ⟨1, 1⟩ ioctlCreateFiber 0x1000, some 1),
    (.write ⟨1, 1⟩ (flatMemory.store 0x1000 [1, 0, 0, 0]), none),
    (.ioctl ⟨1, 1⟩ ioctlSwitchToFiber 0x1000, some 0),
    (.ioctl ⟨2, 2⟩ ioctlConvertThreadToFiber 0, some 0),
    (.ioctl ⟨1, 3⟩ ioctlConvertThreadToFiber 0, some 2),
    (.ioctl ⟨1, 3⟩ ioctlFlsAlloc 0, some 0),
    (.ioctl ⟨1, 3⟩ ioctlSwitchToFiber 0x1000, some (-11)),
    (.release ⟨2, 2⟩, some 0)]

theorem device_is_machine_twoProcesses :
    ∃ h s, Run DeviceStep (.initial (fun _ => 0) default fun _ => flatMemory) h s ∧
      (s.cpu ⟨1, 1⟩).regs.ip = 0x400000 ∧ (machineIn s.groups 1).on 1 = some 1 ∧
      Run World.Step (.initial default fun _ => flatMemory) (h.map (Entry.map DeviceCfg.world))
        s.world ∧ s.world.Consistent := by
  obtain ⟨h, s, he, hc⟩ := Run.exists_execute (fun s a => DeviceCfg.apply s a)
    (.initial (fun _ => 0) default fun _ => flatMemory) twoProcesses
    (fun _ s => decide ((s.cpu ⟨1, 1⟩).regs.ip = 0x400000 ∧ (machineIn s.groups 1).on 1 = some 1))
    (by decide +kernel)
  have hr := (Run.of_execute _ .start he).mono (fun _ _ _ => deviceStep_of_apply)
  obtain ⟨hip, hon⟩ := of_decide_eq_true hc
  exact ⟨h, s, hr, hip, hon, device_is_machine hr⟩

end Runs

end Fibers
