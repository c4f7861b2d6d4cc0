import Fibers.CallEffects

/-!
# Failing allocations

`generate_group`, `generate_thread` and `generate_fiber` report a failed `kmalloc` by a
negative error code in place of the pointer, and their callers follow it. So a convert or
a create survives exactly the patterns of failures that spare the allocations it needs.

## Main results

- `allocation_failure_survived` — when a call survives, for every registry and every pattern
- `convert_out_of_memory` — a convert that does not
-/

namespace Fibers

/-! ## The allocations that a call needs -/

/-- A convert needs a group if its process has none, and a thread and a fiber if the caller is not
registered. -/
def Kmalloc.ServesConvert (k : Kmalloc) (groups : Groups) (t : Task) : Prop :=
  (getGroup t.tgid groups = none → k.group = true) ∧
    (getThread t.pid (groupOf groups t.tgid) = none → k.thread = true ∧ k.fiber = true)

/-- A create of a registered thread needs a fiber. -/
def Kmalloc.ServesCreate (k : Kmalloc) (groups : Groups) (t : Task) : Prop :=
  ∀ tg th, getGroup t.tgid groups = some tg → getThread t.pid tg = some th → k.fiber = true

/-- The call returns, so it followed no pointer to nowhere; and if an allocation that it needed
failed, it returns an error and leaves every table as it was. -/
def Survives (groups : Groups) (served : Prop) (o : Option (Groups × Ret)) : Prop :=
  ∃ groups' r, o = some (groups', r) ∧
    (¬ served → r.toLong < 0 ∧ ∀ tgid, getGroup tgid groups' = getGroup tgid groups)

theorem survives_of_served {groups groups' : Groups} {served : Prop} {r : Ret} (h : served) :
    Survives groups served (some (groups', r)) :=
  ⟨groups', r, rfl, fun hn => absurd h hn⟩

/-! ## Calls that are served return, and others do not -/

section Calls

variable (k : Kmalloc) (groups : Groups) (t : Task) (cpu : Cpu)

/-- A convert returns exactly when it is served. -/
theorem doConvertThreadToFiber_isSome :
    (doConvertThreadToFiber k groups t cpu).isSome = true ↔ k.ServesConvert groups t := by
  rw [doConvertThreadToFiber_eq]
  unfold Kmalloc.ServesConvert
  by_cases hgroup : getGroup t.tgid groups = none ∧ k.group = false
  · simp [hgroup]
  · have hserved : getGroup t.tgid groups = none → k.group = true := by
      intro hg
      simpa [hg] using hgroup
    rw [if_neg hgroup]
    cases ht : getThread t.pid (groupOf groups t.tgid) with
    | some _ => simpa using hserved
    | none =>
      by_cases hk : k.thread = true ∧ k.fiber = true
      · simpa [hk] using hserved
      · simp [hk]

/-- A create returns exactly when it is served. -/
theorem doCreateFiber_isSome (a : FibArgs) :
    (doCreateFiber k groups t cpu a).isSome = true ↔ k.ServesCreate groups t := by
  rw [doCreateFiber_eq]
  unfold Kmalloc.ServesCreate
  cases hg : getGroup t.tgid groups with
  | none => simp
  | some tg =>
    cases ht : getThread t.pid tg with
    | none =>
      simp only [ht, Option.isSome_some, true_iff]
      rintro _ th ⟨⟩ hth
      rw [ht] at hth
      cases hth
    | some th =>
      by_cases hk : k.fiber = true
      · simp [ht, hk]
      · simp [ht, hk]

/-- A call that returns exactly when it is served survives exactly then. -/
theorem survives_iff {groups : Groups} {served : Prop} {o : Option (Groups × Ret)}
    (h : o.isSome = true ↔ served) : Survives groups served o ↔ served := by
  constructor
  · rintro ⟨groups', r, rfl, _⟩
    exact h.mp rfl
  · intro hs
    obtain ⟨⟨groups', r⟩, rfl⟩ := Option.isSome_iff_exists.mp (h.mpr hs)
    exact survives_of_served hs

/-- For every registry and every pattern of failing allocations, a convert and a create survive
exactly when no allocation that they need fails. -/
theorem allocation_failure_survived (a : FibArgs) :
    (Survives groups (k.ServesConvert groups t) (doConvertThreadToFiber k groups t cpu) ↔
        k.ServesConvert groups t) ∧
      (Survives groups (k.ServesCreate groups t) (doCreateFiber k groups t cpu a) ↔
        k.ServesCreate groups t) :=
  ⟨survives_iff (doConvertThreadToFiber_isSome k groups t cpu),
    survives_iff (doCreateFiber_isSome k groups t cpu a)⟩

end Calls

/-- The first convert of a process, with no memory for its group. -/
theorem convert_out_of_memory :
    doConvertThreadToFiber ⟨false, true, true⟩ (.init fun _ => 0) ⟨1, 1⟩ default = none ∧
      ¬ Survives (.init fun _ => 0)
        (Kmalloc.ServesConvert ⟨false, true, true⟩ (.init fun _ => 0) ⟨1, 1⟩)
        (doConvertThreadToFiber ⟨false, true, true⟩ (.init fun _ => 0) ⟨1, 1⟩ default) := by
  have hnone : doConvertThreadToFiber ⟨false, true, true⟩ (.init fun _ => 0) ⟨1, 1⟩ default = none := by
    rfl
  refine ⟨hnone, ?_⟩
  rintro ⟨groups', r, he, _⟩
  rw [hnone] at he
  cases he

end Fibers
