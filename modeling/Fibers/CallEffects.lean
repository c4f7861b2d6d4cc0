import Fibers.GroupEffect

/-!
# What a whole convert or create does

One equation for each of the two calls, over the registry before it: which records it
finds, which allocations it needs, and the group that it stores. A call that an
allocation fails has no result, so a call that returns has made all its insertions.

## Main results

- `doConvertThreadToFiber_eq`, `doCreateFiber_eq` — the calls as single updates
- `converted_effects`, `created_effects` — both are sequences of the effects of pieces
-/

namespace Fibers

/-! ## The group of a caller -/

/-- A group just generated. -/
def freshGroup (hash : ℤ → Bucket) (tgid : ℤ) : ThreadGroup where
  tgid := tgid
  fidCount := noFibers
  threads := .init hash
  fibers := .init hash

/-- The group that a convert works on: the one in the table, or a new one. -/
def groupOf (groups : Groups) (tgid : ℤ) : ThreadGroup :=
  (getGroup tgid groups).getD (freshGroup groups.hash tgid)

@[simp] theorem getThread_freshGroup (hash : ℤ → Bucket) (tgid pid : ℤ) :
    getThread pid (freshGroup hash tgid) = none := rfl

@[simp] theorem getFiber_freshGroup (hash : ℤ → Bucket) (tgid fid : ℤ) :
    getFiber fid (freshGroup hash tgid) = none := rfl

theorem numbered_freshGroup (hash : ℤ → Bucket) (tgid : ℤ) : Numbered (freshGroup hash tgid) where
  threads_unique := HashTable.unique_init hash
  fids := by simp [freshGroup]
  count := by simp [freshGroup, noFibers]

@[simp] theorem tgid_groupOf (groups : Groups) (tgid : ℤ) : (groupOf groups tgid).tgid = tgid := by
  unfold groupOf
  cases hg : getGroup tgid groups with
  | none => rfl
  | some tg => exact tgid_of_getGroup hg

@[simp] theorem getGroup_lookupOrGenerate (groups : Groups) (tgid k : ℤ) :
    getGroup k (lookupOrGenerate groups tgid) =
      if k = tgid then some (groupOf groups tgid) else getGroup k groups := by
  unfold lookupOrGenerate getOrGenerateGroup groupOf
  cases hg : getGroup tgid groups with
  | none =>
    by_cases hk : k = tgid
    · simp [generateGroup, getGroup, hk, freshGroup]
    · simp [generateGroup, getGroup, hk, Ne.symm hk]
  | some tg =>
    by_cases hk : k = tgid
    · simp [hk, hg]
    · simp [hk]

/-! ## Convert and create as single updates -/

/-- The group after a convert: the thread and its fiber, locked, activated and current. -/
def converted (tg : ThreadGroup) (pid : ℤ) (cpu : Cpu) : ThreadGroup :=
  activateFiberFromThread
    ((addFiber (addThread tg pid) ⟨pid, noFibers⟩ cpu).onFiber (nextFid tg) Fiber.lock)
    (nextFid tg) pid cpu.utime

/-- The group after a create: the new fiber with its stack and its entry point. -/
def created (tg : ThreadGroup) (t : Thread) (cpu : Cpu) (a : FibArgs) : ThreadGroup :=
  ((addFiber tg t cpu).onFiber (nextFid tg) (Fiber.allocStack a)).onFiber (nextFid tg)
    (Fiber.allocContext a)

@[simp] theorem nextFid_addThread (tg : ThreadGroup) (pid : ℤ) :
    nextFid (addThread tg pid) = nextFid tg := rfl

@[simp] theorem tgid_addThread (tg : ThreadGroup) (pid : ℤ) : (addThread tg pid).tgid = tg.tgid := rfl

@[simp] theorem tgid_addFiber (tg : ThreadGroup) (t : Thread) (cpu : Cpu) :
    (addFiber tg t cpu).tgid = tg.tgid := rfl

@[simp] theorem tgid_converted (tg : ThreadGroup) (pid : ℤ) (cpu : Cpu) :
    (converted tg pid cpu).tgid = tg.tgid := rfl

@[simp] theorem tgid_created (tg : ThreadGroup) (t : Thread) (cpu : Cpu) (a : FibArgs) :
    (created tg t cpu a).tgid = tg.tgid := rfl

/-- The fiber that a convert leaves. -/
def convertedFiber (tg : ThreadGroup) (pid : ℤ) (cpu : Cpu) : Fiber :=
  let f := newFiber tg ⟨pid, noFibers⟩ cpu
  { f with
    flock := true
    info := { f.info with
      state := pid
      successfulActivations := 0 + 1
      lastActivationTime := cpu.utime } }

/-- The fiber that a create leaves. -/
def createdFiber (tg : ThreadGroup) (t : Thread) (cpu : Cpu) (a : FibArgs) : Fiber :=
  ((newFiber tg t cpu).allocStack a).allocContext a

@[simp] theorem getFiber_converted (tg : ThreadGroup) (pid : ℤ) (cpu : Cpu) (k : ℤ) :
    getFiber k (converted tg pid cpu) =
      if k = nextFid tg then some (convertedFiber tg pid cpu) else getFiber k tg := by
  unfold converted activateFiberFromThread
  rw [getFiber_onThread, getFiber_onFiber, getFiber_onFiber, getFiber_onFiber, getFiber_addFiber,
    getFiber_addFiber, nextFid_addThread]
  by_cases hk : k = nextFid tg
  · simp only [hk, if_true]
    rfl
  · simp only [hk, Ne.symm hk, if_false]
    rfl

@[simp] theorem getThread_converted (tg : ThreadGroup) (pid : ℤ) (cpu : Cpu) (q : ℤ) :
    getThread q (converted tg pid cpu) =
      if q = pid then some ⟨pid, nextFid tg⟩ else getThread q tg := by
  unfold converted activateFiberFromThread
  rw [getThread_onThread, getThread_onFiber, getThread_onFiber, getThread_onFiber,
    getThread_onFiber, getThread_addFiber, getThread_addFiber, getThread_addThread,
    getThread_addThread]
  by_cases hq : q = pid
  · simp [hq]
  · simp [hq, Ne.symm hq]

@[simp] theorem getFiber_created (tg : ThreadGroup) (t : Thread) (cpu : Cpu) (a : FibArgs) (k : ℤ) :
    getFiber k (created tg t cpu a) =
      if k = nextFid tg then some (createdFiber tg t cpu a) else getFiber k tg := by
  unfold created
  rw [getFiber_onFiber, getFiber_onFiber, getFiber_onFiber, getFiber_addFiber, getFiber_addFiber]
  by_cases hk : k = nextFid tg
  · simp only [hk, if_true]
    rfl
  · simp only [hk, Ne.symm hk, if_false]

@[simp] theorem getThread_created (tg : ThreadGroup) (t : Thread) (cpu : Cpu) (a : FibArgs) (q : ℤ) :
    getThread q (created tg t cpu a) = getThread q tg := rfl

section Fields

variable {α : Type*} (look : Option Fiber → α) {d : α} {proj : Fiber → α} {tg : ThreadGroup}
variable {t : Thread} {pid : ℤ} {cpu : Cpu} {a : FibArgs}

theorem seen_converted (tg : ThreadGroup) (pid : ℤ) (cpu : Cpu) :
    (converted tg pid cpu).seen look =
      Function.update (tg.seen look) (nextFid tg) (look (some (convertedFiber tg pid cpu))) := by
  funext k
  by_cases hk : k = nextFid tg <;> simp [ThreadGroup.seen, hk]

theorem seen_created (tg : ThreadGroup) (t : Thread) (cpu : Cpu) (a : FibArgs) :
    (created tg t cpu a).seen look =
      Function.update (tg.seen look) (nextFid tg) (look (some (createdFiber tg t cpu a))) := by
  funext k
  by_cases hk : k = nextFid tg <;> simp [ThreadGroup.seen, hk]

/-- A created fiber that looks like a fiber that does not exist. -/
theorem seen_created_of_same (hn : getFiber (nextFid tg) tg = none)
    (hnew : look (some (createdFiber tg t cpu a)) = look none) :
    (created tg t cpu a).seen look = tg.seen look := by
  have hold : tg.seen look (nextFid tg) = look none := congrArg look hn
  rw [seen_created, hnew, ← hold]
  exact Function.update_eq_self _ _

theorem seen_converted_of_same (hn : getFiber (nextFid tg) tg = none)
    (hnew : look (some (convertedFiber tg pid cpu)) = look none) :
    (converted tg pid cpu).seen look = tg.seen look := by
  have hold : tg.seen look (nextFid tg) = look none := congrArg look hn
  rw [seen_converted, hnew, ← hold]
  exact Function.update_eq_self _ _

theorem field_converted (tg : ThreadGroup) (pid : ℤ) (cpu : Cpu) :
    (converted tg pid cpu).field d proj =
      Function.update (tg.field d proj) (nextFid tg) (proj (convertedFiber tg pid cpu)) :=
  seen_converted (fun o => o.elim d proj) tg pid cpu

theorem field_created_of_default (hn : getFiber (nextFid tg) tg = none)
    (hnew : proj (createdFiber tg t cpu a) = d) :
    (created tg t cpu a).field d proj = tg.field d proj :=
  seen_created_of_same (fun o => o.elim d proj) hn hnew

theorem field_converted_of_default (hn : getFiber (nextFid tg) tg = none)
    (hnew : proj (convertedFiber tg pid cpu) = d) :
    (converted tg pid cpu).field d proj = tg.field d proj :=
  seen_converted_of_same (fun o => o.elim d proj) hn hnew

end Fields

/-- The try-lock of a fiber that the same call inserted succeeds. -/
theorem tryEnter_newFiber (tg : ThreadGroup) (t : Thread) (cpu : Cpu) :
    tryEnter (addFiber tg t cpu) (newFiber tg t cpu) =
      ((addFiber tg t cpu).onFiber (nextFid tg) Fiber.lock, true) := by
  simp [tryEnter, newFiber, prepareInfo, nextFid]

theorem doConvertThreadToFiber_eq (k : Kmalloc) (groups : Groups) (t : Task) (cpu : Cpu) :
    doConvertThreadToFiber k groups t cpu =
      if getGroup t.tgid groups = none ∧ k.group = false then none
      else
        match getThread t.pid (groupOf groups t.tgid) with
        | some _ => some (lookupOrGenerate groups t.tgid, .error .EEXIST)
        | none =>
          if k.thread = true ∧ k.fiber = true then
            some (storeGroup (lookupOrGenerate groups t.tgid)
              (converted (groupOf groups t.tgid) t.pid cpu), .ok (nextFid (groupOf groups t.tgid)))
          else none := by
  have hderef : derefGroup (lookupOrGenerate groups t.tgid) (.ok t.tgid) =
      some (groupOf groups t.tgid) := by simp [derefGroup]
  unfold doConvertThreadToFiber
  by_cases hn : getGroup t.tgid groups = none ∧ k.group = false
  · simp [getOrGenerateGroup, generateGroup, hn, derefGroup]
  · have hplock : getOrGenerateGroup k.group groups t.tgid =
        (lookupOrGenerate groups t.tgid, .ok t.tgid) := by
      unfold lookupOrGenerate getOrGenerateGroup
      cases hg : getGroup t.tgid groups with
      | some _ => rfl
      | none =>
        have hk : k.group = true := by simpa [hg] using hn
        rw [hk]
        rfl
    simp only [if_neg hn, hplock, hderef]
    cases ht : getThread t.pid (groupOf groups t.tgid) with
    | some _ => rfl
    | none =>
      cases hkt : k.thread with
      | false => cases hkf : k.fiber <;> simp [generateThread, generateFiber, derefThread, derefFiber]
      | true =>
        cases hkf : k.fiber with
        | false => simp [generateThread, generateFiber, derefFiber]
        | true =>
          have hthread : getThread t.pid (addThread (groupOf groups t.tgid) t.pid) =
              some ⟨t.pid, noFibers⟩ := by simp
          have hgen : generateThread true (groupOf groups t.tgid) t.pid =
              (addThread (groupOf groups t.tgid) t.pid, .ok t.pid) := rfl
          simp only [hgen, generateFiber, if_true, derefThread, hthread, Option.map_some,
            derefFiber, newFiber_fid, getFiber_addFiber, tryEnter_newFiber, and_self]
          rfl

theorem doCreateFiber_eq (k : Kmalloc) (groups : Groups) (t : Task) (cpu : Cpu) (a : FibArgs) :
    doCreateFiber k groups t cpu a =
      match getGroup t.tgid groups with
      | none => some (groups, .error .ESRCH)
      | some tg =>
        match getThread t.pid tg with
        | none => some (groups, .error .ESRCH)
        | some th =>
          if k.fiber = true then
            some (storeGroup groups (created tg th cpu a), .ok (nextFid tg))
          else none := by
  unfold doCreateFiber
  cases hg : getGroup t.tgid groups with
  | none => rfl
  | some tg =>
    cases ht : getThread t.pid tg with
    | none => simp [ht]
    | some th =>
      have hpid : th.pid = t.pid := pid_of_getThread ht
      cases hk : k.fiber with
      | false => simp [generateFiber, derefFiber, ht]
      | true =>
        simp only [ht, hpid, generateFiber, if_true, derefThread, Option.map_some, derefFiber,
          newFiber_fid, getFiber_addFiber]
        rfl

/-! ## Both calls are made of the effects of pieces -/

/-- What several pieces of one thread, one after the other, may do to their group. -/
inductive GroupEffects (pid : ℤ) : ThreadGroup → ThreadGroup → Prop
  | refl (tg : ThreadGroup) : GroupEffects pid tg tg
  | step {tg tg' tg'' : ThreadGroup} :
      GroupEffect tg pid tg' → GroupEffects pid tg' tg'' → GroupEffects pid tg tg''

namespace GroupEffects

variable {tg tg' : ThreadGroup} {pid : ℤ}

theorem size_le (h : GroupEffects pid tg tg') : tg.fibers.size ≤ tg'.fibers.size := by
  induction h with
  | refl => exact le_rfl
  | step he _ ih => exact he.size_le.trans ih

theorem numbered (h : GroupEffects pid tg tg') (hn : Numbered tg)
    (few : tg'.fibers.size < 2 ^ 31) : Numbered tg' := by
  induction h with
  | refl => exact hn
  | step he hr ih => exact ih (hn.effect he (lt_of_le_of_lt hr.size_le few)) few

theorem trans {tg'' : ThreadGroup} (h : GroupEffects pid tg tg') (h' : GroupEffects pid tg' tg'') :
    GroupEffects pid tg tg'' := by
  induction h with
  | refl => exact h'
  | step he _ ih => exact .step he (ih h')

theorem getFiber_isSome (h : GroupEffects pid tg tg') {fid : ℤ}
    (hf : (getFiber fid tg).isSome) : (getFiber fid tg').isSome := by
  induction h with
  | refl => exact hf
  | step he _ ih => exact ih (he.getFiber_isSome hf)

theorem getThread_of_ne (h : GroupEffects pid tg tg') {q : ℤ} (hq : q ≠ pid) :
    getThread q tg' = getThread q tg := by
  induction h with
  | refl => rfl
  | step he _ ih => rw [ih, he.getThread_of_ne hq]

end GroupEffects

theorem activate_effects (tg : ThreadGroup) (fid pid : ℤ) (utime : Word) :
    GroupEffects pid tg (activateFiberFromThread tg fid pid utime) :=
  .step (.writeFiber fid (fun f => ((f.setState pid).setSuccessful
    (f.info.successfulActivations + 1)).setActivationTime utime) (fun _ => rfl)) <|
  .step (.writeThread (Thread.setCurrent fid) (fun _ => rfl)) <|
  .refl _

theorem converted_effects {tg : ThreadGroup} {pid : ℤ} (hn : getThread pid tg = none) (cpu : Cpu) :
    GroupEffects pid tg (converted tg pid cpu) :=
  .step (.thread hn) <|
  .step (.fiber ⟨pid, noFibers⟩ cpu) <|
  .step (.writeFiber (nextFid tg) Fiber.lock (fun _ => rfl)) <|
  activate_effects _ _ _ _

theorem created_effects (tg : ThreadGroup) (pid : ℤ) (t : Thread) (cpu : Cpu) (a : FibArgs) :
    GroupEffects pid tg (created tg t cpu a) :=
  .step (.fiber t cpu) <|
  .step (.writeFiber (nextFid tg) (Fiber.allocStack a) (fun _ => rfl)) <|
  .step (.writeFiber (nextFid tg) (Fiber.allocContext a) (fun _ => rfl)) <|
  .refl _

end Fibers
