import Fibers.FailedCalls

/-!
# Fibers ready for their first activation

Which thread inserted a fiber and which threads activated it, from the history of a run, and the
invariant of a group that relates both to its frames and its records: until somebody loads a
created fiber, its create is under way or its registers are ready; until somebody activates a
converted fiber, its own thread is about to.

## Main results

- `Readiness` — the invariant
- `Readiness.keep`, `Readiness.insert`, `Readiness.activate`, `Readiness.stack`,
  `Readiness.context` — what the statements of the calls do to it
-/

namespace Fibers

/-! ## Insertions and activations in a history -/

/-- The fiber that a piece inserts, by the frames before and after it, with the arguments of the
create. -/
def Frame.inserts : Frame → Frame → Option (ℤ × Option FibArgs)
  | .createFiber a, .createStack fid _ => some (fid, some a)
  | .convertFiber, .trylock .convert fid => some (fid, none)
  | _, _ => none

/-- The thread that inserts the fiber in this step. -/
def insertedBy (tgid fid : ℤ) (e : Entry Cfg Action) : Option (ℤ × Option FibArgs) :=
  match e.act with
  | .tick t =>
    if t.tgid = tgid then
      ((e.pre.frame t).inserts (e.post.frame t)).bind fun x =>
        if x.1 = fid then some (t.pid, x.2) else none
    else none
  | _ => none

/-- The thread that made the fiber, with the arguments of the create if it was one. -/
def maker (tgid fid : ℤ) (h : History) : Option (ℤ × Option FibArgs) :=
  h.findSome? (insertedBy tgid fid)

/-- The fiber whose activation a frame begins. -/
def Frame.activates : Frame → Option ℤ
  | .activateState _ fid => some fid
  | _ => none

/-- The thread that activates the fiber in this step. -/
def activatedBy (tgid fid : ℤ) (e : Entry Cfg Action) : Option ℤ :=
  match e.act with
  | .tick t =>
    if t.tgid = tgid ∧ (e.pre.frame t).activates = some fid then some t.pid else none
  | _ => none

/-- The threads that activated the fiber, the latest first. -/
def activations (tgid fid : ℤ) (h : History) : List ℤ := h.filterMap (activatedBy tgid fid)

/-- The step loads the registers of the fiber into the thread. -/
def Loads (t : Task) (fid : ℤ) (e : Entry Cfg Action) : Prop :=
  e.act = .tick t ∧ e.pre.frame t = .loadRegs fid

/-! ## What the first activations should do, and when they do -/

/-- The registers with which a created fiber starts. -/
def ReadyRegs (a : FibArgs) (regs : PtRegs) : Prop :=
  regs.ip = a.entryPoint ∧ regs.di = a.params ∧
    regs.sp = a.stackBase + a.stackSize - 8 ∧ regs.bp = a.stackBase + a.stackSize - 8

/-- The fiber that a convert has made and not entered. -/
def Frame.converts : Frame → Option ℤ
  | .trylock .convert f => some f
  | .check .convert f => some f
  | .activateState none f => some f
  | .activateRead none f => some f
  | .activateWrite none f _ => some f
  | .activateTime none f => some f
  | .activateCurrent none f => some f
  | _ => none

/-- The thread is on the fiber, or still inside the convert that makes it. -/
def Cfg.Executes (s : Cfg) (t : Task) (fid : ℤ) : Prop :=
  s.currentFid t = some fid ∨ (s.frame t).converts = some fid

/-- A load by the first activation of a created fiber starts it at its entry point on its stack;
a converted fiber is first activated by its own thread, and loaded into no other thread while its
own thread executes it. -/
structure FirstActivationsReady (h : History) : Prop where
  created : ∀ later e past t fid pid a, h = later ++ e :: past → Loads t fid e →
    maker t.tgid fid past = some (pid, some a) → (activations t.tgid fid past).length = 1 →
    ReadyRegs a (e.post.cpu t).regs
  converted : ∀ tgid fid pid pid', maker tgid fid h = some (pid, none) →
    (activations tgid fid h).getLast? = some pid' → pid' = pid
  apart : ∀ later e past t fid pid, h = later ++ e :: past → Loads t fid e →
    maker t.tgid fid past = some (pid, none) → t.pid ≠ pid → ¬ e.pre.Executes ⟨t.tgid, pid⟩ fid

/-- The fiber that a create has inserted and not finished. -/
def Frame.unfinished : Frame → Option ℤ
  | .createStack fid _ => some fid
  | .createContext fid _ => some fid
  | _ => none

/-- A load of a fiber whose create is not finished. -/
def EarlyLoad (e : Entry Cfg Action) : Prop :=
  ∃ t fid pid, Loads t fid e ∧ (e.pre.frame ⟨t.tgid, pid⟩).unfinished = some fid

/-- A switch takes the lock of a fiber before the convert that made it has tried to. -/
def Stolen (e : Entry Cfg Action) : Prop :=
  ∃ t fid pid tg, e.act = .tick t ∧ e.pre.frame t = .trylock .switch fid ∧
    getGroup t.tgid e.pre.groups = some tg ∧ tg.locked fid = false ∧
    e.pre.frame ⟨t.tgid, pid⟩ = .trylock .convert fid

/-! ## The invariant -/

/-- A frame that has activated its fiber and not yet loaded it. -/
def Frame.bringsIn : Frame → Option ℤ
  | .activateRead _ f => some f
  | .activateWrite _ f _ => some f
  | .activateTime _ f => some f
  | .activateCurrent _ f => some f
  | .saveRegs _ f => some f
  | .saveFpu _ f => some f
  | .account _ f => some f
  | .clearState _ f => some f
  | .unlock _ f => some f
  | .loadRegs f => some f
  | _ => none

/-- The fiber that a convert has made and not activated. -/
def Frame.unactivated : Frame → Option ℤ
  | .trylock .convert f => some f
  | .check .convert f => some f
  | .activateState none f => some f
  | _ => none

/-- The fiber whose lock a convert is about to try. -/
def Frame.tries : Frame → Option ℤ
  | .trylock .convert f => some f
  | _ => none

/-- The registers of a fiber's context. -/
def ThreadGroup.regs (tg : ThreadGroup) (fid : ℤ) : Option PtRegs :=
  (getFiber fid tg).map (fun f => f.context.regs)

def ThreadGroup.stackLimit (tg : ThreadGroup) (fid : ℤ) : Option Word :=
  (getFiber fid tg).map (fun f => f.stackLimit)

/-- Nobody has loaded the fiber yet: it was never activated, or its first activation is still on
the way to the load. -/
def Unloaded (frame : ℤ → Frame) (acts : ℤ → List ℤ) (fid : ℤ) : Prop :=
  acts fid = [] ∨ (acts fid).length = 1 ∧ ∃ pid, (frame pid).bringsIn = some fid

/-- Where the create of a fiber that nobody has loaded is. -/
def CreateStage (tg : ThreadGroup) (fid : ℤ) (a : FibArgs) : Frame → Prop
  | .createStack f a' => f = fid ∧ a' = a
  | .createContext f a' => f = fid ∧ a' = a ∧
      tg.stackLimit fid = some (a.stackBase + a.stackSize)
  | _ => False

theorem CreateStage.of_stackLimit {tg tg' : ThreadGroup} {fid : ℤ} {a : FibArgs} {fr : Frame}
    (h : CreateStage tg fid a fr) (hs : tg'.stackLimit fid = tg.stackLimit fid) :
    CreateStage tg' fid a fr := by
  cases fr with
  | createStack f _ => exact h
  | createContext f _ => exact ⟨h.1, h.2.1, hs.trans h.2.2⟩
  | _ => exact h.elim

theorem Unloaded.mono {frame frame' : ℤ → Frame} {acts : ℤ → List ℤ} {fid : ℤ}
    (h : Unloaded frame acts fid)
    (hb : ∀ pid, (frame pid).bringsIn = some fid → (frame' pid).bringsIn = some fid) :
    Unloaded frame' acts fid :=
  h.imp id (fun ⟨hl, pid, hp⟩ => ⟨hl, pid, hb pid hp⟩)

/-- What holds of the fibers of a group with respect to who made and who activated them. -/
structure Readiness (tg : ThreadGroup) (frame : ℤ → Frame)
    (made : ℤ → Option (ℤ × Option FibArgs)) (acts : ℤ → List ℤ) : Prop where
  made_known : ∀ fid x, made fid = some x → tg.HasFiber fid
  acts_known : ∀ fid, acts fid ≠ [] → tg.HasFiber fid
  activated : ∀ pid fid, (lockView tg frame).Tags pid fid → acts fid ≠ []
  converting : ∀ pid fid, (frame pid).converts = some fid → made fid = some (pid, none)
  pending : ∀ pid fid, (frame pid).unfinished = some fid →
    (∃ a, made fid = some (pid, some a) ∧ CreateStage tg fid a (frame pid)) ∧
      Unloaded frame acts fid
  ready : ∀ fid pid a, made fid = some (pid, some a) → Unloaded frame acts fid →
    (frame pid).unfinished = some fid ∨ ∃ regs, tg.regs fid = some regs ∧ ReadyRegs a regs
  first : ∀ fid pid, made fid = some (pid, none) →
    (acts fid).getLast? = some pid ∨ acts fid = [] ∧ (frame pid).unactivated = some fid
  free : ∀ pid fid, (frame pid).tries = some fid → tg.locked fid = false

/-! ### Writes seen through the registers and the stack -/

section Writes

variable {tg : ThreadGroup} {fid : ℤ} {g : Fiber → Fiber} {hg : ∀ f, (g f).fid = f.fid}

theorem hasFiber_onFiber {f : ℤ} : (tg.onFiber fid g hg).HasFiber f ↔ tg.HasFiber f := by
  unfold ThreadGroup.HasFiber
  by_cases hf : f = fid
  · subst hf
    simp
  · simp [hf]

theorem regs_onFiber_of_same (h : ∀ f, (g f).context.regs = f.context.regs) :
    (tg.onFiber fid g hg).regs = tg.regs :=
  seen_onFiber_of_same (Option.map fun f => f.context.regs) fun f => congrArg some (h f)

theorem regs_onFiber_of_ne {f : ℤ} (hf : f ≠ fid) :
    (tg.onFiber fid g hg).regs f = tg.regs f := by
  simp [ThreadGroup.regs, hf]

theorem stackLimit_onFiber_of_same (h : ∀ f, (g f).stackLimit = f.stackLimit) :
    (tg.onFiber fid g hg).stackLimit = tg.stackLimit :=
  seen_onFiber_of_same (Option.map Fiber.stackLimit) fun f => congrArg some (h f)

theorem stackLimit_onFiber_of_ne {f : ℤ} (hf : f ≠ fid) :
    (tg.onFiber fid g hg).stackLimit f = tg.stackLimit f := by
  simp [ThreadGroup.stackLimit, hf]

end Writes

/-- A fiber that a frame brings in is held by its thread. -/
theorem holds_of_bringsIn {tg : ThreadGroup} {frame : ℤ → Frame} {pid fid : ℤ}
    (hi : GroupInv tg frame) (h : (frame pid).bringsIn = some fid) :
    (lockView tg frame).Tags pid fid := by
  have hok := hi.frames pid
  have hcur : tg.HasFiber fid → tg.CurrentIs pid fid → (lockView tg frame).Tags pid fid :=
    fun hf hc => Or.inl (hc.current_eq (hi.fid_ne_noFibers hf))
  cases hfr : frame pid with
  | activateRead _ f | activateWrite _ f _ | activateTime _ f | activateCurrent _ f =>
    rw [hfr] at h
    cases h
    exact Or.inr (Or.inl (by simp [lockView, hfr, Frame.phase]))
  | saveRegs _ f | saveFpu _ f | account _ f | clearState _ f | unlock _ f =>
    rw [hfr] at h hok
    cases h
    exact hcur hok.2.1 hok.2.2
  | loadRegs f =>
    rw [hfr] at h hok
    cases h
    exact hcur hok.1 hok.2
  | _ =>
    rw [hfr] at h
    cases h

/-- A frame without a tag of its own adds none. -/
theorem tags_of_resting {tg tg' : ThreadGroup} {frame : ℤ → Frame} {pid : ℤ} {fr : Frame}
    (hc : tg'.current = tg.current) (hfr : fr.phase = .resting) {q f : ℤ}
    (ht : (lockView tg' (Function.update frame pid fr)).Tags q f) :
    (lockView tg frame).Tags q f := by
  by_cases hq : q = pid
  · subst hq
    simp only [Handover.State.Tags, lockView, hc, Function.update_self, hfr, reduceCtorEq,
      or_false] at ht
    exact Or.inl ht
  · simpa [Handover.State.Tags, lockView, hc, hq] using ht

theorem unloaded_update {frame : ℤ → Frame} {acts : ℤ → List ℤ} {pid f : ℤ} {fr : Frame}
    (hold : (frame pid).bringsIn ≠ some f) (hnew : fr.bringsIn ≠ some f) :
    Unloaded (Function.update frame pid fr) acts f ↔ Unloaded frame acts f := by
  constructor
  · refine fun hu => hu.mono (fun q hq => ?_)
    by_cases hqp : q = pid
    · rw [hqp, Function.update_self] at hq
      exact absurd hq hnew
    · rwa [Function.update_of_ne hqp] at hq
  · refine fun hu => hu.mono (fun q hq => ?_)
    by_cases hqp : q = pid
    · rw [hqp] at hq
      exact absurd hq hold
    · rwa [Function.update_of_ne hqp]

/-- The first statement of an activation loads nothing: a fiber that nobody brings in was never
activated before, if it is unloaded. -/
theorem unloaded_activate {frame : ℤ → Frame} {acts : ℤ → List ℤ} {pid fid : ℤ} {fr : Frame}
    (hold : (frame pid).bringsIn = none) (hnobody : ∀ q, (frame q).bringsIn ≠ some fid)
    (hnew : fr.bringsIn = some fid) (f : ℤ) :
    Unloaded (Function.update frame pid fr) (Function.update acts fid (pid :: acts fid)) f ↔
      Unloaded frame acts f := by
  by_cases hf : f = fid
  · subst hf
    constructor
    · rintro (hn | ⟨hl, -⟩)
      · simp at hn
      · left
        simpa using hl
    · rintro (hn | ⟨-, q, hq⟩)
      · exact Or.inr ⟨by simp [hn], pid, by rw [Function.update_self]; exact hnew⟩
      · exact absurd hq (hnobody q)
  · have hnew' : fr.bringsIn ≠ some f := by
      rw [hnew]
      exact fun he => hf (Option.some.inj he).symm
    have hold' : (frame pid).bringsIn ≠ some f := by simp [hold]
    rw [← unloaded_update hold' hnew', Unloaded, Unloaded, Function.update_of_ne hf]

theorem Frame.converts_of_tries {fr : Frame} {fid : ℤ} (h : fr.tries = some fid) :
    fr.converts = some fid := by
  cases fr with
  | trylock c k =>
    cases c with
    | convert => exact h
    | switch => cases h
  | _ => cases h

/-- A convert that has not activated its fiber is about to lock it, or has just done so. -/
theorem Frame.phase_of_unactivated {fr : Frame} {fid : ℤ} (h : fr.unactivated = some fid) :
    fr.tries = some fid ∨ fr.phase = .taken fid := by
  cases fr with
  | trylock c k =>
    cases c with
    | convert => exact Or.inl h
    | switch => cases h
  | check c k =>
    cases c with
    | convert =>
      cases h
      exact Or.inr rfl
    | switch => cases h
  | activateState old k =>
    cases old with
    | none =>
      cases h
      exact Or.inr rfl
    | some o => cases h
  | _ => cases h

/-- What a frame says after one of the frames has changed. -/
theorem Frame.update_cases (look : Frame → Option ℤ) {frame : ℤ → Frame} {pid q f : ℤ} {fr : Frame}
    (h : look (Function.update frame pid fr q) = some f) :
    q = pid ∧ look fr = some f ∨ q ≠ pid ∧ look (frame q) = some f := by
  by_cases hq : q = pid
  · subst hq
    rw [Function.update_self] at h
    exact Or.inl ⟨rfl, h⟩
  · rw [Function.update_of_ne hq] at h
    exact Or.inr ⟨hq, h⟩

namespace Readiness

variable {tg tg' : ThreadGroup} {frame : ℤ → Frame} {made : ℤ → Option (ℤ × Option FibArgs)}
  {acts : ℤ → List ℤ} {pid : ℤ}

/-- A group without fibers. -/
theorem fresh (hash : ℤ → Bucket) (tgid : ℤ) (h : ∀ pid, (frame pid).awaitsGroup = true) :
    Readiness (freshGroup hash tgid) frame (fun _ => none) (fun _ => []) where
  made_known := by simp
  acts_known := by simp
  activated := by
    intro q f ht
    have hq := phase_of_awaitsGroup (h q)
    simp [Handover.State.Tags, lockView, ThreadGroup.current, hq] at ht
  converting := by
    intro q f hq
    have := h q
    cases hfr : frame q <;> simp_all [Frame.awaitsGroup, Frame.converts]
  pending := by
    intro q f hq
    have := h q
    cases hfr : frame q <;> simp_all [Frame.awaitsGroup, Frame.unfinished]
  ready := by simp
  first := by simp
  free := by simp [ThreadGroup.locked]

/-- A step of one thread that inserts and activates nothing and is not part of a create. -/
theorem keep (h : Readiness tg frame made acts) {fr : Frame}
    (hfib : ∀ f, tg.HasFiber f → tg'.HasFiber f)
    (hregs : ∀ f, Unloaded frame acts f → tg'.regs f = tg.regs f)
    (htags : ∀ q f, (lockView tg' (Function.update frame pid fr)).Tags q f →
      (lockView tg frame).Tags q f)
    (hold : (frame pid).unfinished = none) (hnew : fr.unfinished = none)
    (hstack : tg'.stackLimit = tg.stackLimit)
    (hconv : ∀ f, fr.converts = some f → (frame pid).converts = some f)
    (hact : ∀ f, (frame pid).unactivated = some f → fr.unactivated = some f)
    (hnewly : ∀ f, fr.bringsIn = some f → (frame pid).bringsIn = some f)
    (hstill : ∀ f q a, made f = some (q, some a) → (frame q).unfinished = some f →
      (frame pid).bringsIn = some f → fr.bringsIn = some f)
    (htries : fr.tries = none)
    (hfree : ∀ q f, q ≠ pid → (frame q).tries = some f → tg'.locked f = false) :
    Readiness tg' (Function.update frame pid fr) made acts := by
  have hback : ∀ f, Unloaded (Function.update frame pid fr) acts f → Unloaded frame acts f := by
    intro f hu
    refine hu.mono (fun q hq => ?_)
    rcases Frame.update_cases Frame.bringsIn hq with ⟨rfl, hself⟩ | ⟨-, hq⟩
    · exact hnewly f hself
    · exact hq
  constructor
  · exact fun f x hx => hfib f (h.made_known f x hx)
  · exact fun f hf => hfib f (h.acts_known f hf)
  · exact fun q f ht => h.activated q f (htags q f ht)
  · intro q f hq
    rcases Frame.update_cases Frame.converts hq with ⟨rfl, hself⟩ | ⟨-, hq⟩
    · exact h.converting q f (hconv f hself)
    · exact h.converting q f hq
  · intro q f hq
    rcases Frame.update_cases Frame.unfinished hq with ⟨-, hq⟩ | ⟨hqp, hq⟩
    · rw [hnew] at hq
      cases hq
    · rw [Function.update_of_ne hqp]
      obtain ⟨⟨a, hm, hstage⟩, hu⟩ := h.pending q f hq
      refine ⟨⟨a, hm, hstage.of_stackLimit (by rw [hstack])⟩, hu.mono (fun q' hq' => ?_)⟩
      by_cases hqp' : q' = pid
      · rw [hqp'] at hq' ⊢
        rw [Function.update_self]
        exact hstill f q a hm hq hq'
      · rwa [Function.update_of_ne hqp']
  · intro f q a hm hu
    have hu := hback f hu
    rcases h.ready f q a hm hu with hs | ⟨regs, hr, hready⟩
    · have hqp : q ≠ pid := by
        rintro rfl
        rw [hold] at hs
        cases hs
      left
      rwa [Function.update_of_ne hqp]
    · exact Or.inr ⟨regs, (hregs f hu).trans hr, hready⟩
  · intro f q hm
    refine (h.first f q hm).imp_right (And.imp_right fun hq => ?_)
    by_cases hqp : q = pid
    · rw [hqp] at hq ⊢
      rw [Function.update_self]
      exact hact f hq
    · rwa [Function.update_of_ne hqp]
  · intro q f hq
    rcases Frame.update_cases Frame.tries hq with ⟨-, hq⟩ | ⟨hqp, hq⟩
    · rw [htries] at hq
      cases hq
    · exact hfree q f hqp hq

/-- A fiber with a fid not yet in use is inserted. -/
theorem insert (h : Readiness tg frame made acts) {fid : ℤ} {x : Option FibArgs} {fr : Frame}
    (hnew : ¬ tg.HasFiber fid) (hfid : tg'.HasFiber fid)
    (hfib : ∀ f, tg.HasFiber f → tg'.HasFiber f)
    (hregs : ∀ f, f ≠ fid → tg'.regs f = tg.regs f)
    (hstack : ∀ f, f ≠ fid → tg'.stackLimit f = tg.stackLimit f)
    (hlocked : tg'.locked = tg.locked) (hfree : tg.locked fid = false)
    (htags : ∀ q f, (lockView tg' (Function.update frame pid fr)).Tags q f →
      (lockView tg frame).Tags q f)
    (hold : (frame pid).unfinished = none ∧ (frame pid).unactivated = none ∧
      (frame pid).bringsIn = none)
    (hfr : fr = match x with
      | none => .trylock .convert fid
      | some a => .createStack fid a) :
    Readiness tg' (Function.update frame pid fr) (Function.update made fid (some (pid, x))) acts := by
  have hne : ∀ f y, made f = some y → f ≠ fid := by
    rintro f y hm rfl
    exact hnew (h.made_known f y hm)
  have hacts : acts fid = [] := by
    by_contra hn
    exact hnew (h.acts_known fid hn)
  have hbring : fr.bringsIn = none := by
    subst hfr
    cases x <;> rfl
  have hun : ∀ f, Unloaded (Function.update frame pid fr) acts f ↔ Unloaded frame acts f :=
    fun f => unloaded_update (by simp [hold.2.2]) (by simp [hbring])
  constructor
  · intro f y hy
    by_cases hf : f = fid
    · rw [hf]
      exact hfid
    · rw [Function.update_of_ne hf] at hy
      exact hfib f (h.made_known f y hy)
  · exact fun f hf => hfib f (h.acts_known f hf)
  · exact fun q f ht => h.activated q f (htags q f ht)
  · intro q f hq
    rcases Frame.update_cases Frame.converts hq with ⟨rfl, hself⟩ | ⟨-, hq⟩
    · rw [hfr] at hself
      cases x with
      | none =>
        cases hself
        rw [Function.update_self]
      | some a => cases hself
    · have hm := h.converting q f hq
      rwa [Function.update_of_ne (hne f _ hm)]
  · intro q f hq
    rcases Frame.update_cases Frame.unfinished hq with ⟨rfl, hself⟩ | ⟨hqp, hq⟩
    · rw [hfr] at hself
      rw [Function.update_self, hfr]
      cases x with
      | none => cases hself
      | some a =>
        cases hself
        exact ⟨⟨a, by rw [Function.update_self], rfl, rfl⟩, Or.inl hacts⟩
    · rw [Function.update_of_ne hqp]
      obtain ⟨⟨a, hm, hstage⟩, hu⟩ := h.pending q f hq
      have hf := hne f _ hm
      rw [Function.update_of_ne hf]
      exact ⟨⟨a, hm, hstage.of_stackLimit (hstack f hf)⟩, (hun f).mpr hu⟩
  · intro f q a hm hu
    by_cases hf : f = fid
    · rw [hf, Function.update_self] at hm
      cases hm
      left
      rw [Function.update_self, hfr, hf]
      rfl
    · rw [Function.update_of_ne hf] at hm
      rcases h.ready f q a hm ((hun f).mp hu) with hs | ⟨regs, hr, hready⟩
      · have hqp : q ≠ pid := by
          rintro rfl
          rw [hold.1] at hs
          cases hs
        left
        rwa [Function.update_of_ne hqp]
      · exact Or.inr ⟨regs, (hregs f hf).trans hr, hready⟩
  · intro f q hm
    by_cases hf : f = fid
    · rw [hf, Function.update_self] at hm
      cases hm
      right
      rw [hf, Function.update_self, hfr]
      exact ⟨hacts, rfl⟩
    · rw [Function.update_of_ne hf] at hm
      refine (h.first f q hm).imp_right (And.imp_right fun hq => ?_)
      have hqp : q ≠ pid := by
        rintro rfl
        rw [hold.2.1] at hq
        cases hq
      rwa [Function.update_of_ne hqp]
  · intro q f hq
    rw [hlocked]
    rcases Frame.update_cases Frame.tries hq with ⟨-, hq⟩ | ⟨-, hq⟩
    · rw [hfr] at hq
      cases x with
      | none =>
        cases hq
        exact hfree
      | some a => cases hq
    · exact h.free q f hq

/-- Two converts do not have the same fiber. -/
theorem converts_unique (h : Readiness tg frame made acts) {p q fid : ℤ}
    (hp : (frame p).converts = some fid) (hq : (frame q).converts = some fid) : p = q := by
  have hm := (h.converting p fid hp).symm.trans (h.converting q fid hq)
  cases hm
  rfl

/-- A fiber whose registers are being saved was activated and loaded before. -/
theorem loaded_of_saveRegs (h : Readiness tg frame made acts) (hi : GroupInv tg frame)
    {fid new : ℤ} (hfr : frame pid = .saveRegs fid new) : ¬ Unloaded frame acts fid := by
  have htag : (lockView tg frame).Tags pid fid := by
    refine Or.inr (Or.inr ?_)
    simp [lockView, hfr, Frame.phase]
  rintro (hn | ⟨-, q, hb⟩)
  · exact h.activated pid fid htag hn
  · have htq := holds_of_bringsIn hi hb
    obtain rfl := hi.locks.holds_unique q pid fid htq.holds htag.holds
    have hok := hi.frames q
    rw [hfr] at hb hok
    cases hb
    have hcur := hok.2.2.current_eq (hi.fid_ne_noFibers hok.2.1)
    exact (hi.locks.apart q fid hcur).2.2.1 (by simp [lockView, hfr, Frame.phase])

/-- Only the maker of a fiber is in its create. -/
theorem unfinished_unique (h : Readiness tg frame made acts) {p q f : ℤ}
    (hp : (frame p).unfinished = some f) (hq : (frame q).unfinished = some f) : p = q := by
  obtain ⟨⟨_, hm, _⟩, _⟩ := h.pending p f hp
  obtain ⟨⟨_, hm', _⟩, _⟩ := h.pending q f hq
  rw [hm] at hm'
  cases hm'
  rfl

/-- A step of a create on its fiber: the frames change, and what the fiber is waiting for. -/
theorem inCreate (h : Readiness tg frame made acts) {fid : ℤ} {a : FibArgs} {fr : Frame}
    (hun : (frame pid).unfinished = some fid) (hmade : made fid = some (pid, some a))
    (hfib : ∀ f, tg'.HasFiber f ↔ tg.HasFiber f) (hcurrent : tg'.current = tg.current)
    (hlocked : tg'.locked = tg.locked)
    (hregs : ∀ f, f ≠ fid → tg'.regs f = tg.regs f)
    (hstack : ∀ f, f ≠ fid → tg'.stackLimit f = tg.stackLimit f)
    (hphase : fr.phase = .resting) (hconv : fr.converts = none) (hbring : fr.bringsIn = none)
    (htries : fr.tries = none)
    (hnext : (∃ regs, tg'.regs fid = some regs ∧ ReadyRegs a regs) ∧ fr.unfinished = none ∨
      fr.unfinished = some fid ∧ CreateStage tg' fid a fr) :
    Readiness tg' (Function.update frame pid fr) made acts := by
  have hnone : (frame pid).bringsIn = none ∧ (frame pid).unactivated = none := by
    cases hfr : frame pid <;> simp_all [Frame.unfinished, Frame.bringsIn, Frame.unactivated]
  have hunl : ∀ f, Unloaded (Function.update frame pid fr) acts f ↔ Unloaded frame acts f :=
    fun f => unloaded_update (by simp [hnone.1]) (by simp [hbring])
  have hfid : ∀ f, fr.unfinished = some f → f = fid := by
    intro f hf
    rcases hnext with ⟨_, hn⟩ | ⟨hn, _⟩
    · rw [hn] at hf
      cases hf
    · exact Option.some.inj (hf.symm.trans hn)
  constructor
  · exact fun f x hx => (hfib f).mpr (h.made_known f x hx)
  · exact fun f hf => (hfib f).mpr (h.acts_known f hf)
  · exact fun q f ht => h.activated q f (tags_of_resting hcurrent hphase ht)
  · intro q f hq
    rcases Frame.update_cases Frame.converts hq with ⟨-, hq⟩ | ⟨-, hq⟩
    · rw [hconv] at hq
      cases hq
    · exact h.converting q f hq
  · intro q f hq
    rcases Frame.update_cases Frame.unfinished hq with ⟨rfl, hself⟩ | ⟨hqp, hq⟩
    · rw [Function.update_self]
      obtain rfl := hfid f hself
      rcases hnext with ⟨_, hn⟩ | ⟨_, hstage⟩
      · rw [hn] at hself
        cases hself
      · exact ⟨⟨a, hmade, hstage⟩, (hunl f).mpr (h.pending q f hun).2⟩
    · rw [Function.update_of_ne hqp]
      have hf : f ≠ fid := by
        rintro rfl
        exact hqp (h.unfinished_unique hq hun)
      obtain ⟨⟨a', hm, hstage⟩, hu⟩ := h.pending q f hq
      exact ⟨⟨a', hm, hstage.of_stackLimit (hstack f hf)⟩, (hunl f).mpr hu⟩
  · intro f q a' hm hu
    by_cases hf : f = fid
    · rw [hf, hmade] at hm
      cases hm
      rw [hf, Function.update_self]
      rcases hnext with ⟨hready, _⟩ | ⟨hn, _⟩
      · exact Or.inr hready
      · exact Or.inl hn
    · rcases h.ready f q a' hm ((hunl f).mp hu) with hs | ⟨regs, hr, hready⟩
      · have hqp : q ≠ pid := by
          rintro rfl
          exact hf (Option.some.inj (hs.symm.trans hun))
        left
        rwa [Function.update_of_ne hqp]
      · exact Or.inr ⟨regs, (hregs f hf).trans hr, hready⟩
  · intro f q hm
    refine (h.first f q hm).imp_right (And.imp_right fun hq => ?_)
    have hqp : q ≠ pid := by
      rintro rfl
      rw [hnone.2] at hq
      cases hq
    rwa [Function.update_of_ne hqp]
  · intro q f hq
    rw [hlocked]
    rcases Frame.update_cases Frame.tries hq with ⟨-, hq⟩ | ⟨-, hq⟩
    · rw [htries] at hq
      cases hq
    · exact h.free q f hq

/-- `ALLOC_STACK` of a create. -/
theorem stack (h : Readiness tg frame made acts) {fid : ℤ} {a : FibArgs}
    (hfr : frame pid = .createStack fid a) (hfid : tg.HasFiber fid) :
    Readiness (tg.onFiber fid (Fiber.allocStack a))
      (Function.update frame pid (.createContext fid a)) made acts := by
  have hun : (frame pid).unfinished = some fid := by rw [hfr]; rfl
  obtain ⟨⟨a', hm, hstage⟩, _⟩ := h.pending pid fid hun
  rw [hfr] at hstage
  obtain ⟨_, rfl⟩ := hstage
  refine h.inCreate hun hm (fun f => hasFiber_onFiber) rfl (locked_onFiber_of_same (fun _ => rfl))
    (fun f hf => regs_onFiber_of_ne hf) (fun f hf => stackLimit_onFiber_of_ne hf) rfl rfl rfl rfl
    (Or.inr ⟨rfl, rfl, rfl, ?_⟩)
  obtain ⟨g, hg⟩ := Option.isSome_iff_exists.mp hfid
  simp [ThreadGroup.stackLimit, hg, Fiber.allocStack]

/-- `ALLOC_CONTEXT` of a create. -/
theorem context (h : Readiness tg frame made acts) {fid : ℤ} {a : FibArgs}
    (hfr : frame pid = .createContext fid a) (hfid : tg.HasFiber fid) :
    Readiness (tg.onFiber fid (Fiber.allocContext a)) (Function.update frame pid .user) made
      acts := by
  have hun : (frame pid).unfinished = some fid := by rw [hfr]; rfl
  obtain ⟨⟨a', hm, hstage⟩, _⟩ := h.pending pid fid hun
  rw [hfr] at hstage
  obtain ⟨_, rfl, hlimit⟩ := hstage
  refine h.inCreate hun hm (fun f => hasFiber_onFiber) rfl (locked_onFiber_of_same (fun _ => rfl))
    (fun f hf => regs_onFiber_of_ne hf) (fun f hf => stackLimit_onFiber_of_ne hf) rfl rfl rfl rfl
    (Or.inl ⟨?_, rfl⟩)
  obtain ⟨g, hg⟩ := Option.isSome_iff_exists.mp hfid
  have hl : g.stackLimit = a.stackBase + a.stackSize := by
    simpa [ThreadGroup.stackLimit, hg] using hlimit
  refine ⟨(g.allocContext a).context.regs, by simp [ThreadGroup.regs, hg], ?_⟩
  simp [ReadyRegs, hl]

/-- The first statement of an activation. -/
theorem activate (h : Readiness tg frame made acts) (hi : GroupInv tg frame) {old : Option ℤ}
    {fid : ℤ} (hfr : frame pid = .activateState old fid) :
    Readiness (tg.onFiber fid (Fiber.setState pid))
      (Function.update frame pid (.activateRead old fid)) made
      (Function.update acts fid (pid :: acts fid)) := by
  have htaken : (lockView tg frame).Holds pid fid := Or.inr (Or.inl (by
    simp [lockView, hfr, Frame.phase]))
  have hok := hi.frames pid
  rw [hfr] at hok
  have hnobody : ∀ q, (frame q).bringsIn ≠ some fid := by
    intro q hq
    have hqp := hi.locks.holds_unique q pid fid (holds_of_bringsIn hi hq).holds htaken
    rw [hqp, hfr] at hq
    cases hq
  have hfree : ∀ q, (frame q).tries ≠ some fid := by
    intro q hq
    have hl : tg.locked fid = true := hi.locks.locked_of_holds pid fid htaken
    rw [h.free q fid hq] at hl
    cases hl
  have hbring : (frame pid).bringsIn = none := by rw [hfr]; rfl
  have hstackLimit : (tg.onFiber fid (Fiber.setState pid)).stackLimit = tg.stackLimit :=
    stackLimit_onFiber_of_same (fun _ => rfl)
  have hunl : ∀ f, Unloaded (Function.update frame pid (.activateRead old fid))
      (Function.update acts fid (pid :: acts fid)) f ↔ Unloaded frame acts f :=
    unloaded_activate hbring hnobody rfl
  constructor
  · exact fun f x hx => hasFiber_onFiber.mpr (h.made_known f x hx)
  · intro f hf
    by_cases hff : f = fid
    · rw [hff]
      exact hasFiber_onFiber.mpr hok.1
    · rw [Function.update_of_ne hff] at hf
      exact hasFiber_onFiber.mpr (h.acts_known f hf)
  · intro q f ht
    by_cases hff : f = fid
    · simp [hff]
    · rw [Function.update_of_ne hff]
      refine h.activated q f ?_
      by_cases hqp : q = pid
      · subst hqp
        simpa [Handover.State.Tags, lockView, Frame.phase, Ne.symm hff, hfr] using ht
      · simpa [Handover.State.Tags, lockView, hqp] using ht
  · intro q f hq
    rcases Frame.update_cases Frame.converts hq with ⟨rfl, hself⟩ | ⟨-, hq⟩
    · refine h.converting q f ?_
      rw [hfr]
      cases old <;> exact hself
    · exact h.converting q f hq
  · intro q f hq
    obtain ⟨-, ⟨⟩⟩ | ⟨hqp, hq⟩ := Frame.update_cases Frame.unfinished hq
    rw [Function.update_of_ne hqp]
    obtain ⟨⟨a, hm, hstage⟩, hu⟩ := h.pending q f hq
    exact ⟨⟨a, hm, hstage.of_stackLimit (by rw [hstackLimit])⟩, (hunl f).mpr hu⟩
  · intro f q a hm hu
    have hregs : (tg.onFiber fid (Fiber.setState pid)).regs = tg.regs :=
      regs_onFiber_of_same (fun _ => rfl)
    rw [hregs]
    refine (h.ready f q a hm ((hunl f).mp hu)).imp (fun hs => ?_) id
    have hqp : q ≠ pid := by
      rintro rfl
      rw [hfr] at hs
      cases hs
    rwa [Function.update_of_ne hqp]
  · intro f q hm
    by_cases hff : f = fid
    · subst hff
      left
      rw [Function.update_self]
      rcases h.first f q hm with hl | ⟨hn, hq⟩
      · cases hacts : acts f with
        | nil =>
          rw [hacts] at hl
          cases hl
        | cons x l =>
          rw [hacts] at hl
          rwa [List.getLast?_cons_cons]
      · -- the convert of the fiber is at its activation, and that is this step
        have hqp : q = pid := by
          rcases Frame.phase_of_unactivated hq with htries | htakes
          · exact absurd htries (hfree q)
          · exact hi.locks.holds_unique q pid f (Or.inr (Or.inl htakes)) htaken
        rw [hn, hqp]
        rfl
    · rw [Function.update_of_ne hff]
      refine (h.first f q hm).imp_right (And.imp_right fun hq => ?_)
      have hqp : q ≠ pid := by
        rintro rfl
        rw [hfr] at hq
        cases old with
        | none => exact hff (Option.some.inj hq).symm
        | some o => cases hq
      rwa [Function.update_of_ne hqp]
  · intro q f hq
    have hlocked : (tg.onFiber fid (Fiber.setState pid)).locked = tg.locked :=
      locked_onFiber_of_same (fun _ => rfl)
    rw [hlocked]
    obtain ⟨-, ⟨⟩⟩ | ⟨-, hq⟩ := Frame.update_cases Frame.tries hq
    exact h.free q f hq

end Readiness

end Fibers
