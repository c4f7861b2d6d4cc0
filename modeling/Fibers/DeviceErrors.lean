import Fibers.AllocationFailure
import Fibers.Library

/-!
# When the device reports a failure

A request is what a command and its argument ask for. `fibers_ioctl` should return a
negative value exactly when there is no such request or it fails; an operation that fails
should write no user memory. `IOCTL_FLS_GET_VALUE` copies the error code out in place of
the value and returns 0.

## Main results

- `device_reports_failure` — when the device reports exactly the failures
- `unallocated_index_reported_as_value` — a failed read that returns 0
-/

namespace Fibers

section Requests

variable (k : Kmalloc) (groups : Groups) (tsk : Task) (cpu : Cpu) (mem : UserMemory)

/-- The operation behind the request fails. -/
def Request.Fails : Request → Prop
  | .unknown => False
  | .unreadable => False
  | .convertThreadToFiber => ∃ g e, doConvertThreadToFiber k groups tsk cpu = some (g, .error e)
  | .createFiber a => ∃ g e, doCreateFiber k groups tsk cpu a = some (g, .error e)
  | .switchToFiber fid => ∃ e, (doSwitchToFiber groups tsk cpu fid).2.2 = .error e
  | .flsAlloc => ∃ e, (doFlsAlloc groups tsk).2 = .error e
  | .flsGetValue idx _ => ∃ e, doFlsGetValue groups tsk idx = .error e
  | .flsFree idx => ∃ e, (doFlsFree groups tsk idx).2 = .error e
  | .flsSetValue idx value => ∃ e, (doFlsSetValue groups tsk idx value).2 = .error e

/-- The result of the request cannot be copied out. -/
def Request.Unwritable : Request → Prop
  | .flsGetValue _ value => (Memory.range value 8).all mem.writable = false
  | _ => False

/-- The call returns, with a negative value exactly on a failure; it leaves the registry and the
registers alone if its argument cannot be read, and writes no user memory if the operation
fails. -/
def ReportsFailure (req : Request) (o : Option Outcome) : Prop :=
  ∃ out, o = some out ∧
    (out.ret < 0 ↔ req = .unknown ∨ req = .unreadable ∨ req.Fails k groups tsk cpu ∨
      req.Unwritable mem) ∧
    (req = .unreadable → out.groups = groups ∧ out.cpu = cpu) ∧
    (req.Fails k groups tsk cpu → out.written = 0)

/-- The caller's current fiber has the index allocated. -/
def HasIndex (idx : ℤ) : Prop :=
  ∃ tg f i, currentFiber groups tsk = some (tg, f) ∧ flsIndex idx = some i ∧ f.fls.bmp i = true

/-- The allocations of a convert or a create succeed and the number of the new fiber is not
negative; an index that is read is allocated, or nothing of its value can be written. -/
def Request.Reportable : Request → Prop
  | .convertThreadToFiber => k.ServesConvert groups tsk ∧
      (getThread tsk.pid (groupOf groups tsk.tgid) = none → 0 ≤ nextFid (groupOf groups tsk.tgid))
  | .createFiber _ => k.ServesCreate groups tsk ∧
      ∀ tg th, getGroup tsk.tgid groups = some tg → getThread tsk.pid tg = some th → 0 ≤ nextFid tg
  | .flsGetValue idx value => HasIndex groups tsk idx ∨
      mem.accessOk value 8 = false ∨ mem.writable value = false
  | _ => True

end Requests

section Reports

variable {k : Kmalloc} {groups : Groups} {tsk : Task} {cpu : Cpu} {mem : UserMemory}

/-! ## Requests whose result is the return value -/

theorem toLong_neg_iff {r : Ret} : r.toLong < 0 ↔ (∃ e, r = .error e) ∨ ∃ v, r = .ok v ∧ v < 0 := by
  cases r with
  | error e =>
    have := e.code_pos
    simp only [Ret.toLong, Except.error.injEq, exists_eq', true_or, iff_true]
    omega
  | ok v => simp [Ret.toLong]

/-- An operation whose result is returned is reported exactly when what it returns on success is
not negative. -/
theorem reports_result {req : Request} {o : Outcome} {r : Ret} (hret : o.ret = r.toLong)
    (hwritten : o.written = 0) (hfails : req.Fails k groups tsk cpu ↔ ∃ e, r = .error e)
    (hout : ¬ req.Unwritable mem) (hunknown : req ≠ .unknown) (hunreadable : req ≠ .unreadable) :
    ReportsFailure k groups tsk cpu mem req (some o) ↔ ∀ v, r = .ok v → 0 ≤ v := by
  constructor
  · rintro ⟨_, ⟨⟩, hneg, _⟩ v rfl
    by_contra hv
    have hlt : o.ret < 0 := by
      rw [hret, toLong_neg_iff]
      exact Or.inr ⟨v, rfl, by omega⟩
    rcases hneg.mp hlt with h | h | h | h
    · exact hunknown h
    · exact hunreadable h
    · obtain ⟨e, he⟩ := hfails.mp h
      cases he
    · exact hout h
  · intro hv
    refine ⟨o, rfl, ?_, fun h => absurd h hunreadable, fun _ => hwritten⟩
    rw [hret, toLong_neg_iff]
    constructor
    · rintro (he | ⟨v, hr, hlt⟩)
      · exact Or.inr (Or.inr (Or.inl (hfails.mpr he)))
      · have := hv v hr
        omega
    · rintro (h | h | h | h)
      · exact absurd h hunknown
      · exact absurd h hunreadable
      · exact Or.inl (hfails.mp h)
      · exact absurd h hout

/-- A call of the kernel that may not return. -/
theorem reports_call {req : Request} {o : Option (Groups × Ret)}
    (hfails : req.Fails k groups tsk cpu ↔ ∃ g e, o = some (g, .error e))
    (hout : ¬ req.Unwritable mem) (hunknown : req ≠ .unknown) (hunreadable : req ≠ .unreadable) :
    ReportsFailure k groups tsk cpu mem req (o.map (.call cpu mem)) ↔
      o.isSome = true ∧ ∀ g v, o = some (g, .ok v) → 0 ≤ v := by
  cases o with
  | none =>
    constructor
    · rintro ⟨_, ⟨⟩, _⟩
    · rintro ⟨⟨⟩, _⟩
  | some x =>
    obtain ⟨g, r⟩ := x
    have hf : req.Fails k groups tsk cpu ↔ ∃ e, r = .error e := by
      rw [hfails]
      simp
    change ReportsFailure k groups tsk cpu mem req (some (.call cpu mem (g, r))) ↔ _
    rw [reports_result rfl rfl hf hout hunknown hunreadable]
    constructor
    · rintro hv
      refine ⟨rfl, ?_⟩
      rintro _ v ⟨⟩
      exact hv v rfl
    · rintro ⟨_, hv⟩ v rfl
      exact hv g v rfl

/-! ## The operations -/

/-- What a convert that is served returns on success is the number of its fiber. -/
theorem convert_result (hk : k.ServesConvert groups tsk) :
    (∀ g v, doConvertThreadToFiber k groups tsk cpu = some (g, .ok v) → 0 ≤ v) ↔
      (getThread tsk.pid (groupOf groups tsk.tgid) = none →
        0 ≤ nextFid (groupOf groups tsk.tgid)) := by
  have hgroup : ¬ (getGroup tsk.tgid groups = none ∧ k.group = false) := by
    rintro ⟨hg, hkg⟩
    rw [hk.1 hg] at hkg
    cases hkg
  rw [doConvertThreadToFiber_eq, if_neg hgroup]
  cases ht : getThread tsk.pid (groupOf groups tsk.tgid) with
  | some th => simp
  | none =>
    have hserved := hk.2 ht
    simp only [hserved, and_self, if_true, forall_const]
    constructor
    · exact fun hv => hv _ _ rfl
    · rintro hn g v ⟨⟩
      exact hn

theorem create_result (a : FibArgs) (hk : k.ServesCreate groups tsk) :
    (∀ g v, doCreateFiber k groups tsk cpu a = some (g, .ok v) → 0 ≤ v) ↔
      ∀ tg th, getGroup tsk.tgid groups = some tg → getThread tsk.pid tg = some th →
        0 ≤ nextFid tg := by
  rw [doCreateFiber_eq]
  cases hg : getGroup tsk.tgid groups with
  | none => simp
  | some tg =>
    dsimp only
    cases ht : getThread tsk.pid tg with
    | none =>
      refine iff_of_true (by simp) ?_
      rintro _ th ⟨⟩ ht'
      rw [ht] at ht'
      cases ht'
    | some th =>
      simp only [hk tg th hg ht, if_true]
      constructor
      · rintro hv _ _ ⟨⟩ _
        exact hv _ _ rfl
      · rintro hn g v ⟨⟩
        exact hn tg th rfl ht

/-- A read fails exactly when the index is not allocated in a current fiber. -/
theorem flsGetValue_fails_iff {idx : ℤ} :
    (∃ e, doFlsGetValue groups tsk idx = .error e) ↔ ¬ HasIndex groups tsk idx := by
  unfold doFlsGetValue HasIndex
  cases hi : flsIndex idx with
  | none => simp
  | some i =>
    cases hc : currentFiber groups tsk with
    | none => simp
    | some x =>
      obtain ⟨tg, f⟩ := x
      by_cases hb : f.fls.bmp i = true
      · simp only [hb, if_true]
        constructor
        · rintro ⟨_, ⟨⟩⟩
        · exact fun hn => absurd ⟨tg, f, i, rfl, rfl, hb⟩ hn
      · simp only [hb]
        refine ⟨fun _ => ?_, fun _ => ⟨_, rfl⟩⟩
        rintro ⟨_, _, _, ⟨⟩, ⟨⟩, hb'⟩
        exact hb hb'

theorem flsGetValue_error {idx : ℤ} {e : Errno} (h : doFlsGetValue groups tsk idx = .error e) :
    e = .ESRCH ∨ e = .EACCES := by
  unfold doFlsGetValue at h
  split at h
  · cases h
    exact Or.inl rfl
  · split at h
    · cases h
      exact Or.inl rfl
    · split at h
      · cases h
      · cases h
        exact Or.inr rfl

/-! ## The reading of a value -/

/-- A read is reported exactly when it does not fail or has nowhere to write to: `copy_to_user`
rejects the range or stops at its first byte. -/
theorem reports_flsGetValue (idx : ℤ) (value : Word) :
    ReportsFailure k groups tsk cpu mem (.flsGetValue idx value)
        (some (copyOut groups cpu mem value (readValue (doFlsGetValue groups tsk idx)))) ↔
      HasIndex groups tsk idx ∨ mem.accessOk value 8 = false ∨ mem.writable value = false := by
  generalize hv : readValue (doFlsGetValue groups tsk idx) = v
  have hwritten : (copyOut groups cpu mem value v).written = mem.copied value 8 := by
    simp [copyOut, Memory.copyTo]
  have hret : (copyOut groups cpu mem value v).ret =
      if mem.copied value 8 = 8 then 0 else -Errno.EINVAL.code := by
    simp [copyOut, Memory.copyTo]
  have hcopied : mem.copied value 8 = 0 ↔
      mem.accessOk value 8 = false ∨ mem.writable value = false :=
    Memory.copied_eq_zero_iff (by decide)
  have hneg : (copyOut groups cpu mem value v).ret < 0 ↔ mem.copied value 8 ≠ 8 := by
    rw [hret]
    split
    · next h => simp [h]
    · next h => simp [h, Errno.code]
  have hfull : mem.copied value 8 ≠ 8 ↔ (Memory.range value 8).all mem.writable = false := by
    rw [ne_eq, Memory.copied_eq_iff, Bool.not_eq_true]
  by_cases hi : HasIndex groups tsk idx
  · -- the read succeeds, so only the copy out can fail
    have hok : ¬ (∃ e, doFlsGetValue groups tsk idx = .error e) := by
      rw [flsGetValue_fails_iff]
      exact not_not_intro hi
    refine iff_of_true ⟨_, rfl, ?_, by simp, fun h => absurd h hok⟩ (Or.inl hi)
    rw [hneg, hfull]
    constructor
    · exact fun h => Or.inr (Or.inr (Or.inr h))
    · rintro (h | h | h | h)
      · cases h
      · cases h
      · exact absurd h hok
      · exact h
  · have hfails : Request.Fails k groups tsk cpu (.flsGetValue idx value) :=
      flsGetValue_fails_iff.mpr hi
    rw [← hcopied]
    constructor
    · rintro ⟨_, ⟨⟩, _, _, hnone⟩
      exact Or.inr (hwritten ▸ hnone hfails)
    · rintro (h | h)
      · exact absurd h hi
      · refine ⟨_, rfl, iff_of_true ?_ (Or.inr (Or.inr (Or.inl hfails))), by simp, fun _ => ?_⟩
        · rw [hneg, h]
          decide
        · rw [hwritten, h]

/-- The device reports exactly the failures of a request that is reportable, and of no other. -/
theorem reports_serve (req : Request) :
    ReportsFailure k groups tsk cpu mem req (req.serve k groups tsk cpu mem) ↔
      req.Reportable k groups tsk mem := by
  cases req with
  | unknown =>
    refine iff_of_true ⟨_, rfl, ?_, by simp, by simp [Request.Fails]⟩ trivial
    simp [Outcome.error, Errno.code]
  | unreadable =>
    refine iff_of_true ⟨_, rfl, ?_, fun _ => ⟨rfl, rfl⟩, by simp [Request.Fails]⟩ trivial
    simp [Outcome.error, Errno.code]
  | convertThreadToFiber =>
    refine (reports_call Iff.rfl id (by simp) (by simp)).trans ?_
    rw [doConvertThreadToFiber_isSome]
    exact and_congr_right (fun hk => convert_result hk)
  | createFiber a =>
    refine (reports_call Iff.rfl id (by simp) (by simp)).trans ?_
    rw [doCreateFiber_isSome]
    exact and_congr_right (fun hk => create_result a hk)
  | switchToFiber fid =>
    refine (reports_result rfl rfl Iff.rfl id (by simp) (by simp)).trans (iff_of_true ?_ trivial)
    exact fun v hv => (switch_result hv).ge
  | flsAlloc =>
    refine (reports_result rfl rfl Iff.rfl id (by simp) (by simp)).trans (iff_of_true ?_ trivial)
    exact fun v hv => (flsAlloc_range hv).1
  | flsGetValue idx value => exact reports_flsGetValue idx value
  | flsFree idx =>
    refine (reports_result rfl rfl Iff.rfl id (by simp) (by simp)).trans (iff_of_true ?_ trivial)
    exact fun v hv => (flsFree_result hv).ge
  | flsSetValue idx value =>
    refine (reports_result rfl rfl Iff.rfl id (by simp) (by simp)).trans (iff_of_true ?_ trivial)
    exact fun v hv => (flsSetValue_range hv).1

/-- The library's read returns `-EAGAIN` when the index is not allocated in a current fiber. -/
def LibraryReportsFailure (groups : Groups) (tsk : Task) (idx : ℤ) (o : Option Outcome) : Prop :=
  ∃ out, o = some out ∧ (¬ HasIndex groups tsk idx → out.ret = -Errno.EAGAIN.code)

theorem library_reports (sl : Slots mem) (idx : Word) :
    LibraryReportsFailure groups tsk idx.toInt (flsGetValue k groups tsk cpu mem sl idx) ↔
      HasIndex groups tsk idx.toInt := by
  obtain ⟨mem', hrun⟩ := flsGetValue_eq sl k groups tsk cpu idx
  rw [hrun]
  constructor
  · rintro ⟨_, ⟨⟩, hret⟩
    by_contra hi
    -- the error code reaches the caller as if it were the value
    obtain ⟨e, he⟩ := flsGetValue_fails_iff.mpr hi
    have hagain : (readValue (doFlsGetValue groups tsk idx.toInt)).toInt = -Errno.EAGAIN.code :=
      hret hi
    rw [he] at hagain
    rcases flsGetValue_error he with rfl | rfl <;> exact absurd hagain (by decide)
  · exact fun hi => ⟨_, rfl, fun hn => absurd hi hn⟩

/-- For every registry, caller, memory, command and argument, the device reports exactly the
failures of the requests that are reportable; the library reports the failure of a read in no
case. -/
theorem device_reports_failure (k : Kmalloc) (groups : Groups) (tsk : Task) (cpu : Cpu)
    (mem : UserMemory) (cmd : BitVec 32) (args : Word) :
    (ReportsFailure k groups tsk cpu mem (request mem cmd args)
        (fibersIoctl k groups tsk cpu mem cmd args) ↔
      (request mem cmd args).Reportable k groups tsk mem) ∧
    ∀ (sl : Slots mem) (idx : Word),
      LibraryReportsFailure groups tsk idx.toInt (flsGetValue k groups tsk cpu mem sl idx) ↔
        HasIndex groups tsk idx.toInt := by
  refine ⟨?_, library_reports⟩
  rw [fibersIoctl_eq]
  exact reports_serve _

end Reports

/-- A thread that was never converted reads the index 0 into the address 0. -/
theorem unallocated_index_reported_as_value :
    ∃ out, fibersIoctl .succeeds (.init fun _ => 0) ⟨1, 1⟩ default flatMemory ioctlFlsGetValue 0 =
        some out ∧ out.ret = 0 ∧ out.written = 8 ∧
      ¬ ReportsFailure .succeeds (.init fun _ => 0) ⟨1, 1⟩ default flatMemory
        (request flatMemory ioctlFlsGetValue 0) (some out) := by
  have hrun : (fibersIoctl .succeeds (.init fun _ => 0) ⟨1, 1⟩ default flatMemory ioctlFlsGetValue
      0).map (fun out => (out.ret, out.written)) = some (0, 8) := by decide +kernel
  obtain ⟨out, ho, hout⟩ := Option.map_eq_some_iff.mp hrun
  obtain ⟨hret, hwritten⟩ := Prod.mk.inj hout
  refine ⟨out, ho, hret, hwritten, ?_⟩
  rw [← ho, fibersIoctl_eq, reports_serve]
  have hreq : request flatMemory ioctlFlsGetValue 0 = .flsGetValue 0 0 := by rfl
  rw [hreq]
  rintro (⟨tg, f, i, hc, _⟩ | hok | hw)
  · cases hc
  · exact absurd hok (by decide)
  · exact absurd hw (by decide)

end Fibers
