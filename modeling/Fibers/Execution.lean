import Fibers.Invariant

/-!
# Executing a list of actions

`execute` runs a list of actions and collects the history. A list without cleanups that
executes is a run of the system: each action inserts at most one fiber, so a group has at
most as many fibers as there were actions.

## Main results

- `size_of_step` — a step adds at most one fiber to a group
- `run_of_execute` — an executed list of actions is a run
-/

namespace Fibers

/-- The actions one after the other, from a configuration with its history. -/
def execute : History → Cfg → List Action → Option (History × Cfg) :=
  Run.execute fun s a => (step s a).map Prod.fst

theorem exists_execute (s₀ : Cfg) (acts : List Action) (P : History → Cfg → Bool)
    (hc : (execute [] s₀ acts).any (fun x => P x.1 x.2) = true) :
    ∃ h s, execute [] s₀ acts = some (h, s) ∧ P h s = true :=
  Run.exists_execute _ s₀ acts P hc

theorem exists_execute_cons (s₀ : Cfg) (acts : List Action)
    (P : Entry Cfg Action → History → Cfg → Bool)
    (hc : (execute [] s₀ acts).any (fun x => Run.lastStep (fun e past => P e past x.2) x.1) = true) :
    ∃ e past s, execute [] s₀ acts = some (e :: past, s) ∧ P e past s = true :=
  Run.exists_execute_cons _ s₀ acts P hc

/-! ## The number of fibers -/

theorem GroupEffect.size_le_succ {tg tg' : ThreadGroup} {pid : ℤ} (h : GroupEffect tg pid tg') :
    tg'.fibers.size ≤ tg.fibers.size + 1 := by
  cases h with
  | same => exact Nat.le_succ _
  | thread _ => exact Nat.le_succ _
  | fiber t cpu => simp [addFiber]
  | writeFiber k g hg => simp
  | writeThread g hg => exact Nat.le_succ _

theorem size_converted (tg : ThreadGroup) (pid : ℤ) (cpu : Cpu) :
    (converted tg pid cpu).fibers.size = tg.fibers.size + 1 := by
  simp [converted, activateFiberFromThread, addFiber]

theorem size_created (tg : ThreadGroup) (t : Thread) (cpu : Cpu) (a : FibArgs) :
    (created tg t cpu a).fibers.size = tg.fibers.size + 1 := by
  simp [created, addFiber]

/-- No group has more than `n` fibers. -/
def SizesBelow (n : ℕ) (groups : Groups) : Prop :=
  ∀ tgid tg, getGroup tgid groups = some tg → tg.fibers.size ≤ n

theorem GroupView.Offers.size_le {v : GroupView} {tgid : ℤ} {tg : ThreadGroup} {n : ℕ}
    (ho : v.Offers tgid tg) (h : ∀ tg, v.tg = some tg → tg.fibers.size ≤ n) :
    tg.fibers.size ≤ n := by
  rcases ho with hg | ⟨_, hash, rfl⟩
  · exact h tg hg
  · simp [freshGroup]

theorem ViewStep.size_le {tgid : ℤ} {v v' : GroupView} {a : Action} {r : Option Ret} {n : ℕ}
    (hs : ViewStep tgid v a r v') (h : ∀ tg, v.tg = some tg → tg.fibers.size ≤ n) :
    ∀ tg, v'.tg = some tg → tg.fibers.size ≤ n + 1 := by
  have hkeep : ∀ tg, v.tg = some tg → tg.fibers.size ≤ n + 1 := fun tg hg =>
    (h tg hg).trans (Nat.le_succ n)
  cases hs with
  | elsewhere _ | user _ | call _ | noGroup _ _ | createUnknown _ => exact hkeep
  | plock _ ho =>
    rintro _ ⟨⟩
    exact (ho.size_le h).trans (Nat.le_succ n)
  | convertAgain _ ho _ =>
    rintro _ ⟨⟩
    exact (ho.size_le h).trans (Nat.le_succ n)
  | piece hg hp =>
    rintro _ ⟨⟩
    exact (piece_effect hp).size_le_succ.trans (Nat.succ_le_succ (h _ hg))
  | convert _ ho _ =>
    rintro _ ⟨⟩
    rw [size_converted]
    exact Nat.succ_le_succ (ho.size_le h)
  | create _ hg _ =>
    rintro _ ⟨⟩
    rw [size_created]
    exact Nat.succ_le_succ (h _ hg)
  | cleanup _ => simp

/-! ## Executions are runs -/

theorem run_of_execute {allowed : Action → Prop} {s₀ s s' : Cfg} {h h' : History} {n : ℕ}
    (acts : List Action) (hr : Run (Step allowed) s₀ h s) (hu : s.groups.Unique)
    (hsize : SizesBelow n s.groups) (hall : ∀ a ∈ acts, allowed a ∧ ∀ tgid, a ≠ .cleanup tgid)
    (few : n + acts.length < 2 ^ 31) (he : execute h s acts = some (h', s')) :
    Run (Step allowed) s₀ h' s' := by
  induction acts generalizing h s n with
  | nil =>
    cases he
    exact hr
  | cons a as ih =>
    simp only [execute, Run.execute] at he
    split at he
    · cases he
    · next s₁ hmap =>
      obtain ⟨⟨s₂, r⟩, hstep, heq⟩ := Option.map_eq_some_iff.mp hmap
      obtain rfl : s₂ = s₁ := heq
      obtain ⟨ha, hclean⟩ := hall a (by simp)
      have alone : ∀ tgid, a = .cleanup tgid → ∀ pid, s.frame ⟨tgid, pid⟩ = .user :=
        fun tgid h => absurd h (hclean tgid)
      have hsize₁ : SizesBelow (n + 1) s₂.groups := fun tgid =>
        (viewStep_of_step hu hstep alone tgid).size_le (hsize tgid)
      simp only [List.length_cons] at few
      have hs : Step allowed s a s₂ :=
        ⟨ha, ⟨r, hstep⟩, alone, fun tgid tg hg => by
          have := hsize₁ tgid tg hg
          omega⟩
      exact ih (hr.next hs) (unique_of_step hu hstep) hsize₁
        (fun b hb => hall b (by simp [hb])) (by omega) he

/-- A short list of actions without cleanups, executed from the empty registry. -/
theorem run_of_execute_initial {allowed : Action → Prop} {hash : ℤ → Bucket} {cpu : Task → Cpu}
    {h : History} {s : Cfg} (acts : List Action)
    (hall : ∀ a ∈ acts, allowed a ∧ ∀ tgid, a ≠ .cleanup tgid) (few : acts.length < 2 ^ 31)
    (he : execute [] (Cfg.initial hash cpu) acts = some (h, s)) :
    Run (Step allowed) (Cfg.initial hash cpu) h s := by
  refine run_of_execute (n := 0) acts .start (HashTable.unique_init hash) ?_ hall (by omega) he
  simp [SizesBelow, Cfg.initial, getGroup]

/-! ## The threads that make no call -/

/-- A thread that has made no call is in user code. -/
theorem frame_of_no_call {allowed : Action → Prop} {hash : ℤ → Bucket} {cpu : Task → Cpu} {h : History} {s : Cfg}
    {t : Task} (hr : Run (Step allowed) (Cfg.initial hash cpu) h s)
    (hc : ∀ e ∈ h, ∀ c, e.act ≠ .call t c) : s.frame t = .user := by
  refine hr.induct (I := fun h s => (∀ e ∈ h, ∀ c, e.act ≠ .call t c) → s.frame t = .user)
    (fun _ => rfl) ?_ hc
  intro h s a s' _ ih hs hc
  have hu := ih (fun e he => hc e (by simp [he]))
  obtain ⟨r, hstep⟩ := hs.fires
  cases step_cases hstep with
  | user _ => exact hu
  | @call t' c _ =>
    have ht : t ≠ t' := by
      rintro rfl
      exact hc _ List.mem_cons_self c rfl
    exact (Function.update_of_ne ht _ _).trans hu
  | @plock t' hf =>
    have ht : t ≠ t' := by
      rintro rfl
      rw [hf] at hu
      cases hu
    exact (Function.update_of_ne ht _ _).trans hu
  | @noGroup t' _ hl =>
    have ht : t ≠ t' := by
      rintro rfl
      rw [hu] at hl
      cases hl
    exact (Function.update_of_ne ht _ _).trans hu
  | @piece t' tg p _ hp =>
    have ht : t ≠ t' := by
      rintro rfl
      rw [hu] at hp
      cases hp
    exact (Function.update_of_ne ht _ _).trans hu
  | convertAgain | convert | createUnknown | create | cleanup => exact hu

/-- The callers of an executed list are those of its actions. -/
theorem frame_of_execute {allowed : Action → Prop} {hash : ℤ → Bucket} {cpu : Task → Cpu}
    {h : History} {s : Cfg} {t : Task} {acts : List Action}
    (hr : Run (Step allowed) (Cfg.initial hash cpu) h s)
    (he : execute [] (Cfg.initial hash cpu) acts = some (h, s))
    (hc : ∀ c, .call t c ∉ acts) : s.frame t = .user := by
  refine frame_of_no_call hr fun e hmem c hact => hc c ?_
  rw [← hact]
  rcases Run.mem_of_execute acts he hmem with hold | hnew
  · cases hold
  · exact hnew

end Fibers
