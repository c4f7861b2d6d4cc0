import Fibers.MutualExclusion

/-!
# The private register file of each fiber

A fiber that was switched out has an image: what its thread's registers and FPU were when
the thread left it. `lastOut` reads the latest such image off the history of a run. The
saved context of the fiber catches up with it in two pieces, after which the fiber is
unlocked, and a thread that activates the fiber loads the context in two pieces. In
between, other threads take any number of steps, and none of them can touch the image,
because the fiber is locked by the thread that saves or loads it.

## Main results

- `Images` — where the image of each fiber is, at every stage of saving and loading
- `private_registers` — a completed switch has loaded the latest image of its fiber
-/

namespace Fibers

/-! ## Images in a history -/

/-- The registers and the FPU image of the fiber when a thread last left it. -/
def lastOut (tgid fid : ℤ) : History → Option Context
  | [] => none
  | e :: h =>
    match e.act with
    | .tick t =>
      if t.tgid = tgid ∧ e.pre.currentFid t = some fid ∧ e.post.currentFid t ≠ some fid then
        some (prepareContext (e.pre.cpu t))
      else lastOut tgid fid h
    | _ => lastOut tgid fid h

/-! ## Where the image of a fiber is -/

/-- The saved context of a fiber. -/
def ThreadGroup.context (tg : ThreadGroup) (fid : ℤ) : Option Context :=
  (getFiber fid tg).map (fun f => f.context)

/-- The fiber whose context a frame has not saved completely. -/
def Frame.saves : Frame → Option ℤ
  | .saveRegs old _ => some old
  | .saveFpu old _ => some old
  | _ => none

/-- The image of each fiber that was switched out: in the registers of the thread that leaves it,
half of it in its context, all of it in its context, or half of it loaded. -/
structure Images (context : ℤ → Option Context) (frame : ℤ → Frame) (cpu : ℤ → Cpu)
    (out : ℤ → Option Context) : Prop where
  known : ∀ f img, out f = some img → (context f).isSome = true
  saveRegs : ∀ pid f new, frame pid = .saveRegs f new → out f = some (prepareContext (cpu pid))
  saveFpu : ∀ pid f new, frame pid = .saveFpu f new →
    ∃ c, context f = some c ∧ out f = some { c with fpu := (cpu pid).fpu }
  saved : ∀ f img, out f = some img → (∀ pid, (frame pid).saves ≠ some f) → context f = some img
  loadFpu : ∀ pid f img, frame pid = .loadFpu f → out f = some img → (cpu pid).regs = img.regs

theorem Images.initial (context : ℤ → Option Context) (cpu : ℤ → Cpu) :
    Images context (fun _ => .user) cpu (fun _ => none) := by
  constructor <;> simp

/-! ### Who saves excludes everybody else -/

section Exclusive

variable {tg : ThreadGroup} {frame : ℤ → Frame} {p q f : ℤ}

theorem leaving_of_saves {fr : Frame} (h : fr.saves = some f) : fr.phase = .leaving f := by
  cases fr <;> simp_all [Frame.saves, Frame.phase]

theorem saves_unique (h : GroupInv tg frame) (hp : (frame p).saves = some f)
    (hq : (frame q).saves = some f) : p = q :=
  h.locks.holds_unique p q f
    (Or.inr (Or.inr (Or.inr (Or.inl (leaving_of_saves hp)))))
    (Or.inr (Or.inr (Or.inr (Or.inl (leaving_of_saves hq)))))

/-- Nobody is on a fiber that is being saved. -/
theorem not_current_of_saves (h : GroupInv tg frame) (hp : (frame p).saves = some f) :
    tg.current q ≠ some f := by
  intro hq
  have hpq : q = p := h.locks.holds_unique q p f (Or.inl hq)
    (Or.inr (Or.inr (Or.inr (Or.inl (leaving_of_saves hp)))))
  subst hpq
  exact (h.locks.apart q f hq).2.2.1 (leaving_of_saves hp)

theorem current_unique (h : GroupInv tg frame) (hp : tg.current p = some f)
    (hq : tg.current q = some f) : p = q :=
  h.locks.holds_unique p q f (Or.inl hp) (Or.inl hq)

end Exclusive

/-! ## What each kind of piece does to the images -/

namespace Images

variable {context : ℤ → Option Context} {frame : ℤ → Frame} {cpu : ℤ → Cpu}
  {out : ℤ → Option Context} {pid : ℤ}

/-- A step of one thread that touches the context or the image of some fibers, which no other
thread is saving. -/
theorem update (h : Images context frame cpu out) {context' out' : ℤ → Option Context} {c : Cpu}
    {fr : Frame} (touched : ℤ → Prop)
    (hcontext : ∀ f, ¬ touched f → context' f = context f)
    (hout : ∀ f, ¬ touched f → out' f = out f)
    (hothers : ∀ q f, q ≠ pid → touched f → (frame q).saves ≠ some f)
    (hloads : ∀ q f, q ≠ pid → touched f → frame q = .loadFpu f → out' f = out f)
    (hold : ∀ f, ¬ touched f → (frame pid).saves ≠ some f)
    (hknown : ∀ f img, touched f → out' f = some img → (context' f).isSome = true)
    (hsaved : ∀ f img, touched f → out' f = some img → fr.saves ≠ some f → context' f = some img)
    (hregs : ∀ f new, fr = .saveRegs f new → out' f = some (prepareContext c))
    (hfpu : ∀ f new, fr = .saveFpu f new →
      ∃ d, context' f = some d ∧ out' f = some { d with fpu := c.fpu })
    (hload : ∀ f img, fr = .loadFpu f → out' f = some img → c.regs = img.regs) :
    Images context' (Function.update frame pid fr) (Function.update cpu pid c) out' where
  known := by
    intro f img hf
    by_cases ht : touched f
    · exact hknown f img ht hf
    · rw [hout f ht] at hf
      rw [hcontext f ht]
      exact h.known f img hf
  saveRegs := by
    intro q f new hq
    by_cases hpq : q = pid
    · rw [hpq, Function.update_self] at hq
      rw [hpq, Function.update_self]
      exact hregs f new hq
    · rw [Function.update_of_ne hpq] at hq ⊢
      have ht : ¬ touched f := fun ht => hothers q f hpq ht (by rw [hq]; rfl)
      rw [hout f ht]
      exact h.saveRegs q f new hq
  saveFpu := by
    intro q f new hq
    by_cases hpq : q = pid
    · rw [hpq, Function.update_self] at hq
      rw [hpq, Function.update_self]
      exact hfpu f new hq
    · rw [Function.update_of_ne hpq] at hq ⊢
      have ht : ¬ touched f := fun ht => hothers q f hpq ht (by rw [hq]; rfl)
      rw [hout f ht, hcontext f ht]
      exact h.saveFpu q f new hq
  saved := by
    intro f img hf hn
    by_cases ht : touched f
    · have hself := hn pid
      rw [Function.update_self] at hself
      exact hsaved f img ht hf hself
    · rw [hout f ht] at hf
      rw [hcontext f ht]
      refine h.saved f img hf (fun q => ?_)
      by_cases hpq : q = pid
      · rw [hpq]
        exact hold f ht
      · simpa [hpq] using hn q
  loadFpu := by
    intro q f img hq hf
    by_cases hpq : q = pid
    · rw [hpq, Function.update_self] at hq
      rw [hpq, Function.update_self]
      exact hload f img hq hf
    · rw [Function.update_of_ne hpq] at hq ⊢
      have hsame : out' f = out f := by
        by_cases ht : touched f
        · exact hloads q f hpq ht hq
        · exact hout f ht
      rw [hsame] at hf
      exact h.loadFpu q f img hq hf

/-- A step that neither saves nor loads, nor leaves a fiber. -/
theorem quiet (h : Images context frame cpu out) (hold : (frame pid).saves = none) {fr : Frame}
    (c : Cpu) (hnew : fr.saves = none) (hload : ∀ f, fr ≠ .loadFpu f) :
    Images context (Function.update frame pid fr) (Function.update cpu pid c) out := by
  refine h.update (fun _ => False) (fun _ _ => rfl) (fun _ _ => rfl) (fun _ _ _ => False.elim)
    (fun _ _ _ => False.elim) ?_ (fun _ _ => False.elim) (fun _ _ => False.elim) ?_ ?_ ?_
  · simp [hold]
  · intro f new he
    simp [he, Frame.saves] at hnew
  · intro f new he
    simp [he, Frame.saves] at hnew
  · exact fun f img he => absurd he (hload f)

/-- A thread leaves the fiber `o`: its registers are the image. -/
theorem leave (h : Images context frame cpu out) {o new : ℤ} (ho : (context o).isSome = true)
    (hold : (frame pid).saves = none) (hsaves : ∀ q, (frame q).saves ≠ some o)
    (hloads : ∀ q, frame q ≠ .loadFpu o) :
    Images context (Function.update frame pid (.saveRegs o new)) cpu
      (Function.update out o (some (prepareContext (cpu pid)))) := by
  rw [← Function.update_eq_self pid cpu]
  refine h.update (fun f => f = o) (fun _ _ => rfl) (fun f hf => Function.update_of_ne hf _ _)
    ?_ ?_ ?_ ?_ ?_ ?_ (fun _ _ => Frame.noConfusion) (fun _ _ => Frame.noConfusion)
  · rintro q _ - rfl
    exact hsaves q
  · rintro q _ - rfl hq
    exact absurd hq (hloads q)
  · simp [hold]
  · rintro _ _ rfl -
    exact ho
  · rintro _ _ rfl - hn
    exact absurd rfl hn
  · intro f n he
    cases he
    rw [Function.update_self, Function.update_eq_self]

/-- The registers of the fiber `o` are saved. -/
theorem saveRegs_piece (h : Images context frame cpu out) {o new : ℤ} {c : Context}
    (hc : context o = some c) (hfr : frame pid = .saveRegs o new)
    (hsaves : ∀ q, (frame q).saves = some o → q = pid) :
    Images (Function.update context o (some { c with regs := (cpu pid).regs }))
      (Function.update frame pid (.saveFpu o new)) cpu out := by
  rw [← Function.update_eq_self pid cpu]
  refine h.update (fun f => f = o) (fun f hf => Function.update_of_ne hf _ _) (fun _ _ => rfl)
    ?_ (fun _ _ _ _ _ => rfl) ?_ ?_ ?_ (fun _ _ => Frame.noConfusion) ?_
    (fun _ _ => Frame.noConfusion)
  · rintro q _ hq rfl he
    exact hq (hsaves q he)
  · intro f hf
    rw [hfr]
    exact fun he => hf (Option.some.inj he).symm
  · rintro _ _ rfl -
    simp
  · rintro _ _ rfl - hn
    exact absurd rfl hn
  · intro f n he
    cases he
    refine ⟨_, Function.update_self .., ?_⟩
    rw [Function.update_eq_self]
    exact h.saveRegs pid o new hfr

/-- The FPU image of the fiber `o` is saved, and its context is complete. -/
theorem saveFpu_piece (h : Images context frame cpu out) {o new : ℤ} {c : Context}
    (hc : context o = some c) (hfr : frame pid = .saveFpu o new)
    (hsaves : ∀ q, (frame q).saves = some o → q = pid) :
    Images (Function.update context o (some { c with fpu := (cpu pid).fpu }))
      (Function.update frame pid (.account o new)) cpu out := by
  rw [← Function.update_eq_self pid cpu]
  refine h.update (fun f => f = o) (fun f hf => Function.update_of_ne hf _ _) (fun _ _ => rfl)
    ?_ (fun _ _ _ _ _ => rfl) ?_ ?_ ?_ (fun _ _ => Frame.noConfusion)
    (fun _ _ => Frame.noConfusion) (fun _ _ => Frame.noConfusion)
  · rintro q _ hq rfl he
    exact hq (hsaves q he)
  · intro f hf
    rw [hfr]
    exact fun he => hf (Option.some.inj he).symm
  · rintro _ _ rfl -
    simp
  · rintro f img rfl hf -
    obtain ⟨c', hc', ho⟩ := h.saveFpu pid f new hfr
    obtain rfl : c = c' := Option.some.inj (hc.symm.trans hc')
    rw [Function.update_eq_self, Function.update_self, ← hf, ho]

/-- The registers of the fiber `n` are loaded, which nobody is saving. -/
theorem loadRegs_piece (h : Images context frame cpu out) {n : ℤ} {c : Context}
    (hc : context n = some c) (hold : (frame pid).saves = none)
    (hsaves : ∀ q, (frame q).saves ≠ some n) :
    Images context (Function.update frame pid (.loadFpu n))
      (Function.update cpu pid { cpu pid with regs := c.regs }) out := by
  refine h.update (fun _ => False) (fun _ _ => rfl) (fun _ _ => rfl) (fun _ _ _ => False.elim)
    (fun _ _ _ => False.elim) ?_ (fun _ _ => False.elim) (fun _ _ => False.elim)
    (fun _ _ => Frame.noConfusion) (fun _ _ => Frame.noConfusion) ?_
  · simp [hold]
  · intro f img he hf
    cases he
    have hsaved := h.saved n img hf hsaves
    rw [hc] at hsaved
    cases hsaved
    rfl

end Images

/-! ## The contexts of a group -/

section Contexts

variable {tg : ThreadGroup} {fid : ℤ} {g : Fiber → Fiber} {hg : ∀ f, (g f).fid = f.fid}

theorem context_onFiber_of_same (hc : ∀ f, (g f).context = f.context) :
    (tg.onFiber fid g hg).context = tg.context :=
  seen_onFiber_of_same (Option.map Fiber.context) fun f => congrArg some (hc f)

theorem context_onFiber {f : Fiber} (hf : getFiber fid tg = some f) :
    (tg.onFiber fid g hg).context = Function.update tg.context fid (some (g f).context) :=
  seen_onFiber (Option.map Fiber.context) hf

theorem context_isSome (hf : tg.HasFiber fid) : (tg.context fid).isSome = true := by
  rw [ThreadGroup.context, Option.isSome_map]
  exact hf

end Contexts

/-- A new record under a fid that is not in use shadows nothing. -/
theorem Images.insert {context : ℤ → Option Context} {frame : ℤ → Frame} {cpu : ℤ → Cpu}
    {out : ℤ → Option Context} (h : Images context frame cpu out) (fid : ℤ) (c : Option Context)
    (hfree : context fid = none) : Images (Function.update context fid c) frame cpu out := by
  have hne : ∀ f, (context f).isSome = true → f ≠ fid := by
    rintro f hf rfl
    simp [hfree] at hf
  refine ⟨?_, h.saveRegs, ?_, ?_, h.loadFpu⟩
  · intro f img hf
    have hs := h.known f img hf
    rwa [Function.update_of_ne (hne f hs)]
  · intro q f n hq
    obtain ⟨c', hc', ho⟩ := h.saveFpu q f n hq
    refine ⟨c', ?_, ho⟩
    rw [Function.update_of_ne (hne f (by simp [hc']))]
    exact hc'
  · intro f img hf hn
    rw [Function.update_of_ne (hne f (h.known f img hf))]
    exact h.saved f img hf hn

/-! ## Every step keeps the images -/

/-- The images after a piece of the thread `pid`: the fiber that it leaves has a new one. -/
def outAfter (tg tg' : ThreadGroup) (pid : ℤ) (cpu : Cpu) (out : ℤ → Option Context) (fid : ℤ) :
    Option Context :=
  if tg.current pid = some fid ∧ tg'.current pid ≠ some fid then some (prepareContext cpu)
  else out fid

theorem outAfter_of_threads {tg tg' : ThreadGroup} (h : tg'.threads = tg.threads) (pid : ℤ)
    (cpu : Cpu) (out : ℤ → Option Context) : outAfter tg tg' pid cpu out = out := by
  funext fid
  simp [outAfter, ThreadGroup.current, getThread, h]

/-- The frames of a switch that neither leave a fiber nor save or load an image. -/
def Frame.quiet : Frame → Bool
  | .activateCurrent _ _ => false
  | .saveRegs _ _ => false
  | .saveFpu _ _ => false
  | .loadRegs _ => false
  | _ => true

theorem saves_of_quiet {fr : Frame} (h : fr.quiet = true) : fr.saves = none := by
  cases fr <;> first | rfl | cases h

theorem piece_quiet {tg : ThreadGroup} {pid : ℤ} {cpu : Cpu} {fr : Frame} {p : Piece}
    (hp : piece tg pid cpu fr = some p) (hf : fr.switching = true) (hq : fr.quiet = true) :
    p.tg.context = tg.context ∧ p.frame.saves = none ∧ ∀ f, p.frame ≠ .loadFpu f := by
  have hsame : ∀ {fid : ℤ} {g : Fiber → Fiber} {hg : ∀ f, (g f).fid = f.fid},
      (∀ f, (g f).context = f.context) → (tg.onFiber fid g hg).context = tg.context :=
    fun h => context_onFiber_of_same h
  cases piece_step hp with
  | convertAgain _ | convertThread _ | convertFiber _ | createUnknown _ | createLookup _
  | createFiber _ | createStack _ | createContext _ => cases hf
  | converted _ | activateCurrent _ | saveRegs _ | saveFpu _ | loadRegs _ => cases hq
  | lock _ _ | fail _ | activateState _ | activateWrite _ | activateTime _ | account _
  | clearState _ | unlock _ => exact ⟨hsame (fun _ => rfl), rfl, fun _ => Frame.noConfusion⟩
  | _ => exact ⟨rfl, rfl, fun _ => Frame.noConfusion⟩

/-- A piece of a switch keeps the images, with a new one for the fiber that it leaves. -/
theorem Images.piece {tg : ThreadGroup} {frame : ℤ → Frame} {cpu : ℤ → Cpu}
    {out : ℤ → Option Context} {pid : ℤ} {p : Piece} (h : Images tg.context frame cpu out)
    (hi : GroupInv tg frame) (hf : (frame pid).switching = true)
    (hp : Fibers.piece tg pid (cpu pid) (frame pid) = some p) :
    Images p.tg.context (Function.update frame pid p.frame) (Function.update cpu pid p.cpu)
      (outAfter tg p.tg pid (cpu pid) out) := by
  have hok := hi.frames pid
  have hthreads := piece_threads hp
  have hself : Function.update cpu pid (cpu pid) = cpu := Function.update_eq_self pid cpu
  by_cases hq : (frame pid).quiet = true
  · obtain ⟨hctx, hsaves, hload⟩ := piece_quiet hp hf hq
    rw [hctx, outAfter_of_threads (hthreads (by rintro he; rw [he] at hf; cases hf)
      (by rintro old f he; rw [he] at hq; cases hq))]
    exact h.quiet (saves_of_quiet hq) _ hsaves hload
  · cases hfr : frame pid with
    | activateCurrent old f =>
      cases old with
      | none =>
        rw [hfr] at hf
        cases hf
      | some o =>
        rw [hfr] at hp hok
        obtain ⟨t, ht, rfl⟩ := Option.map_eq_some_iff.mp hp
        have hcur : tg.current pid = some o :=
          hok.2.2.current_eq (hi.fid_ne_noFibers hok.2.1)
        have hnew : (tg.onThread pid (Thread.setCurrent f)).current pid = some f := by
          rw [current_onThread_setCurrent (by simp [ht]) (hi.fid_ne_noFibers hok.1)]
          simp
        have hne : f ≠ o := by
          rintro rfl
          exact (hi.locks.apart pid f hcur).2.1 (by simp [lockView, hfr, Frame.phase])
        have hout : outAfter tg (tg.onThread pid (Thread.setCurrent f)) pid (cpu pid) out =
            Function.update out o (some (prepareContext (cpu pid))) := by
          funext k
          by_cases hk : k = o
          · simp [outAfter, hk, hcur, hnew, hne]
          · simp [outAfter, hk, hcur, Ne.symm hk]
        simp only [Piece.goto, hself, hout]
        refine h.leave (context_isSome hok.2.1) (by rw [hfr]; rfl)
          (fun q hs => not_current_of_saves hi hs hcur) ?_
        intro q hl
        have hq := hi.frames q
        rw [hl] at hq
        have := current_unique hi hcur (hq.2.current_eq (hi.fid_ne_noFibers hq.1))
        rw [← this, hfr] at hl
        cases hl
    | saveRegs o f =>
      have hs : (frame pid).saves = some o := by rw [hfr]; rfl
      have ht := hthreads (by simp [hfr]) (by simp [hfr])
      rw [hfr] at hp
      obtain ⟨g, hg, rfl⟩ := Option.map_eq_some_iff.mp hp
      rw [outAfter_of_threads ht]
      simp only [Piece.goto, hself, context_onFiber hg]
      exact h.saveRegs_piece (by simp [ThreadGroup.context, hg]) hfr
        (fun q hq => saves_unique hi hq hs)
    | saveFpu o f =>
      have hs : (frame pid).saves = some o := by rw [hfr]; rfl
      have ht := hthreads (by simp [hfr]) (by simp [hfr])
      rw [hfr] at hp
      obtain ⟨g, hg, rfl⟩ := Option.map_eq_some_iff.mp hp
      rw [outAfter_of_threads ht]
      simp only [Piece.goto, hself, context_onFiber hg]
      exact h.saveFpu_piece (by simp [ThreadGroup.context, hg]) hfr
        (fun q hq => saves_unique hi hq hs)
    | loadRegs f =>
      have ht := hthreads (by simp [hfr]) (by simp [hfr])
      rw [hfr] at hp hok
      obtain ⟨g, hg, rfl⟩ := Option.map_eq_some_iff.mp hp
      rw [outAfter_of_threads ht]
      have hcur := hok.2.current_eq (hi.fid_ne_noFibers hok.1)
      exact h.loadRegs_piece (by simp [ThreadGroup.context, hg]) (by rw [hfr]; rfl)
        (fun q hs => not_current_of_saves hi hs hcur)
    | _ => simp [hfr, Frame.quiet] at hq

/-! ### The view of one group -/

def GroupView.context (v : GroupView) (fid : ℤ) : Option Context :=
  v.tg.bind (fun tg => tg.context fid)

/-- `lastOut` over one more step, in terms of the views before and after. -/
def outStep (tgid : ℤ) (v : GroupView) (a : Action) (v' : GroupView) (out : ℤ → Option Context)
    (fid : ℤ) : Option Context :=
  match a with
  | .tick t =>
    if t.tgid = tgid ∧ v.current t.pid = some fid ∧ v'.current t.pid ≠ some fid then
      some (prepareContext (v.cpu t.pid))
    else out fid
  | _ => out fid

theorem lastOut_cons (tgid : ℤ) (s s' : Cfg) (a : Action) (h : History) :
    (fun fid => lastOut tgid fid (⟨s, a, s'⟩ :: h)) =
      outStep tgid (s.view tgid) a (s'.view tgid) (fun fid => lastOut tgid fid h) := by
  funext fid
  cases a with
  | tick t =>
    by_cases ht : t.tgid = tgid
    · subst ht
      rfl
    · simp [lastOut, outStep, ht]
  | _ => rfl

theorem outStep_piece (tgid pid : ℤ) (v : GroupView) {tg tg' : ThreadGroup} (hg : v.tg = some tg)
    (frame : ℤ → Frame) (cpu : ℤ → Cpu) (out : ℤ → Option Context) :
    outStep tgid v (.tick ⟨tgid, pid⟩) ⟨some tg', frame, cpu⟩ out =
      outAfter tg tg' pid (v.cpu pid) out := by
  funext fid
  simp [outStep, outAfter, GroupView.current, hg]

/-- Registers change only in user code, which no image refers to. -/
theorem Images.user {context : ℤ → Option Context} {frame : ℤ → Frame} {cpu : ℤ → Cpu}
    {out : ℤ → Option Context} {pid : ℤ} (h : Images context frame cpu out)
    (hu : frame pid = .user) (c : Cpu) : Images context frame (Function.update cpu pid c) out := by
  have hold : (frame pid).saves = none := by rw [hu]; rfl
  have hq : Images context (Function.update frame pid (frame pid)) (Function.update cpu pid c) out :=
    h.quiet hold c hold (by rw [hu]; simp)
  rwa [Function.update_eq_self] at hq

theorem GroupView.Offers.context {v : GroupView} {tgid : ℤ} {tg : ThreadGroup}
    (ho : v.Offers tgid tg) : v.context = tg.context := by
  funext fid
  rcases ho with hg | ⟨hg, hash, rfl⟩
  · simp [GroupView.context, hg]
  · simp [GroupView.context, hg, ThreadGroup.context]

theorem context_converted (tg : ThreadGroup) (pid : ℤ) (cpu : Cpu) :
    (converted tg pid cpu).context =
      Function.update tg.context (nextFid tg) (some (convertedFiber tg pid cpu).context) :=
  seen_converted (Option.map Fiber.context) tg pid cpu

theorem context_created (tg : ThreadGroup) (t : Thread) (cpu : Cpu) (a : FibArgs) :
    (created tg t cpu a).context =
      Function.update tg.context (nextFid tg) (some (createdFiber tg t cpu a).context) :=
  seen_created (Option.map Fiber.context) tg t cpu a

theorem context_nextFid {tg : ThreadGroup} {frame : ℤ → Frame} (hi : GroupInv tg frame)
    (few : tg.fibers.size < 2 ^ 31) : tg.context (nextFid tg) = none := by
  rw [ThreadGroup.context, hi.numbered.getFiber_nextFid few]
  rfl

/-- Every step of a run in which only switches are taken apart keeps the images. -/
theorem ViewStep.images {tgid : ℤ} {v v' : GroupView} {a : Action} {r : Option Ret}
    {out : ℤ → Option Context} (hs : ViewStep tgid v a r v') (ha : a.switchesApart)
    (hi : ViewInv v) (hf : ∀ pid, (v.frame pid).switching = true)
    (few : ∀ tg, v'.tg = some tg → tg.fibers.size < 2 ^ 31)
    (h : Images v.context v.frame v.cpu out) :
    Images v'.context v'.frame v'.cpu (outStep tgid v a v' out) := by
  cases hs with
  | elsewhere hne =>
    have hout : outStep tgid v a v out = out := by
      cases a with
      | tick t =>
        have ht : t.tgid ≠ tgid := hne
        funext fid
        simp [outStep, ht]
      | _ => rfl
    rw [hout]
    exact h
  | user hu => exact h.user hu _
  | @call pid c hu =>
    cases c with
    | convert => exact absurd ha (by simp [Action.switchesApart])
    | create _ => exact absurd ha (by simp [Action.switchesApart])
    | switch next =>
      have hold : (v.frame pid).saves = none := by rw [hu]; rfl
      have hq : Images v.context (Function.update v.frame pid (.switchThread next))
          (Function.update v.cpu pid (v.cpu pid)) out := h.quiet hold _ rfl (by simp)
      rwa [Function.update_eq_self] at hq
  | @plock pid _ hfr _ =>
    have := hf pid
    rw [hfr] at this
    cases this
  | @noGroup pid hg hl =>
    have hout : ∀ v', outStep tgid v (.tick ⟨tgid, pid⟩) v' out = out := by
      intro v'
      funext fid
      simp [outStep, GroupView.current, hg]
    rw [hout]
    have hold : (v.frame pid).saves = none := by
      cases hfr : v.frame pid <;> first | rfl | simp [hfr, Frame.looksUpGroup] at hl
    exact h.quiet hold _ rfl (by simp)
  | @piece pid tg p hg hp =>
    have hctx : v.context = tg.context := by
      funext fid
      simp [GroupView.context, hg]
    rw [outStep_piece tgid pid v hg]
    rw [hctx] at h
    exact h.piece (hi.grouped tg hg) (hf pid) hp
  | convertAgain hu ho _ =>
    have := h.user hu
    rw [ho.context] at this
    exact this _
  | @convert pid k tg hu ho _ =>
    have hi := hi.of_offers ho
    have few := few _ rfl
    rw [size_converted] at few
    have hins := (h.user hu ((v.cpu pid).setReturn (.ok (nextFid tg)))).insert (nextFid tg)
      (some (convertedFiber tg pid (v.cpu pid)).context)
      (by rw [ho.context]; exact context_nextFid hi (by omega))
    rw [ho.context, ← context_converted] at hins
    exact hins
  | createUnknown hu => exact h.user hu _
  | @create pid k a tg th hu hg _ =>
    have hi := hi.grouped tg hg
    have few := few _ rfl
    rw [size_created] at few
    have hctx : v.context = tg.context := by
      funext fid
      simp [GroupView.context, hg]
    have hins := (h.user hu ((v.cpu pid).setReturn (.ok (nextFid tg)))).insert (nextFid tg)
      (some (createdFiber tg th (v.cpu pid) a).context)
      (by rw [hctx]; exact context_nextFid hi (by omega))
    rw [hctx, ← context_created] at hins
    exact hins
  | cleanup _ => exact absurd ha (by simp [Action.switchesApart])

/-- The images in every reachable configuration, with the switching frames they rely on. -/
theorem images_of_run {hash : ℤ → Bucket} {cpu : Task → Cpu} {h : History} {s : Cfg}
    (hr : Run (Step Action.switchesApart) (Cfg.initial hash cpu) h s) (tgid : ℤ) :
    (∀ pid, (s.frame ⟨tgid, pid⟩).switching = true) ∧
      Images (s.view tgid).context (s.view tgid).frame (s.view tgid).cpu
        (fun fid => lastOut tgid fid h) := by
  refine view_of_history (I := fun h v => (∀ pid, (v.frame pid).switching = true) ∧
    Images v.context v.frame v.cpu (fun fid => lastOut tgid fid h)) hr ?_ ?_
  · exact fun cpu => ⟨fun _ => rfl, Images.initial _ cpu⟩
  · rintro h ⟨s, a, s'⟩ r ha hi ⟨hf, himg⟩ few _ hstep
    refine ⟨hstep.switching ha hf, ?_⟩
    rw [lastOut_cons]
    exact hstep.images ha hi hf few himg

/-! ## What a completed switch has loaded -/

/-- When a switch succeeds, the thread has the image that its new fiber had when it was last
switched out, apart from the return value. -/
theorem private_registers {hash : ℤ → Bucket} {cpu : Task → Cpu} {later past : History}
    {e : Entry Cfg Action} {s : Cfg}
    (hr : Run (Step Action.switchesApart) (Cfg.initial hash cpu) (later ++ e :: past) s)
    {t : Task} {v : ℤ} (hact : e.act = .tick t) (hret : step e.pre e.act = some (e.post, some (.ok v)))
    {fid : ℤ} (hcur : e.post.currentFid t = some fid) {img : Context}
    (hout : lastOut t.tgid fid past = some img) :
    (e.post.cpu t).regs = { img.regs with ax := 0 } ∧ (e.post.cpu t).fpu = img.fpu := by
  obtain ⟨hpast, _⟩ := hr.split
  obtain ⟨hf, himg⟩ := images_of_run hpast t.tgid
  have hinv := inv_of_run hpast
  obtain ⟨s, a, s'⟩ := e
  subst hact
  change step s (.tick t) = some (s', some (.ok v)) at hret
  change lastOut t.tgid fid past = some img at hout
  change s'.currentFid t = some fid at hcur
  change (s'.cpu t).regs = _ ∧ (s'.cpu t).fpu = _
  generalize hres : some (Except.ok v) = r at hret
  cases step_cases hret with
  | plock _ => cases hres
  | noGroup _ _ => cases hres
  | @piece _ tg p hg hp =>
    have hi : GroupInv tg (fun pid => s.frame ⟨t.tgid, pid⟩) := (hinv.views t.tgid).grouped tg hg
    obtain ⟨f, g, hfr, hgf, rfl⟩ : ∃ f g, s.frame t = .loadFpu f ∧ getFiber f tg = some g ∧
        p = .ret tg { s.cpu t with fpu := g.context.fpu } (.ok 0) := by
      have hsw := hf t.pid
      generalize hfr : s.frame t = fr at hp
      cases piece_returns hp hres.symm with
      | created => rw [hfr] at hsw; cases hsw
      | converted => rw [hfr] at hsw; cases hsw
      | switched hgf => exact ⟨_, _, rfl, hgf, rfl⟩
    -- the piece touches no record, so the thread is on the fiber that the frame names
    have hok := hi.frames t.pid
    change FrameOk tg t.pid (s.frame t) at hok
    rw [hfr] at hok
    have hff : fid = f := by
      have hstore := getGroup_storeGroup_self s.groups (tgid_of_getGroup hg) hg
      have hc : tg.current t.pid = some fid := by
        simpa [Cfg.currentFid, Cfg.commit, Piece.ret, hstore] using hcur
      rw [hok.2.current_eq (hi.fid_ne_noFibers hok.1)] at hc
      exact (Option.some.inj hc).symm
    subst hff
    have hregs := himg.loadFpu t.pid fid img hfr hout
    have hnobody : ∀ q, (s.frame ⟨t.tgid, q⟩).saves ≠ some fid := fun q hs =>
      not_current_of_saves hi hs (hok.2.current_eq (hi.fid_ne_noFibers hok.1))
    have hctx := himg.saved fid img hout hnobody
    have himg' : g.context = img := by
      simpa [GroupView.context, Cfg.view, hg, ThreadGroup.context, hgf] using hctx
    refine ⟨?_, ?_⟩
    · simp only [Cfg.commit, Piece.ret, Function.update_self, Cpu.setReturn]
      rw [show (s.cpu t).regs = img.regs from hregs]
      rfl
    · simp [Cfg.commit, Piece.ret, Cpu.setReturn, himg']

/-- The user registers of a thread in the middle of its work. -/
def busyRegs : PtRegs := { (default : PtRegs) with bx := 7, ax := 5 }

/-- A fiber that one thread switches out is taken over by another. -/
def migration : List Action :=
  [.convert ⟨1, 1⟩ .succeeds, .convert ⟨1, 2⟩ .succeeds, .create ⟨1, 1⟩ .succeeds ⟨0, 0, 0, 0⟩,
    .user ⟨1, 1⟩ { (default : Cpu) with regs := busyRegs }, .call ⟨1, 1⟩ (.switch 2)] ++
    List.replicate 17 (Action.tick ⟨1, 1⟩) ++ [Action.call ⟨1, 2⟩ (.switch 0)] ++
    List.replicate 17 (Action.tick ⟨1, 2⟩)

theorem private_registers_migration :
    ∃ e past s, execute [] (Cfg.initial (fun _ => 0) default) migration = some (e :: past, s) ∧
      (e.post.cpu ⟨1, 2⟩).regs = { busyRegs with ax := 0 } ∧ (e.post.cpu ⟨1, 2⟩).fpu = 0 := by
  obtain ⟨e, past, s, he, hc⟩ := exists_execute_cons (Cfg.initial (fun _ => 0) default) migration
    (fun e past _ => e.act = .tick ⟨1, 2⟩ ∧
      (step e.pre e.act).map (fun y => y.2.map (fun r => r.toOption)) = some (some (some 0)) ∧
      e.post.currentFid ⟨1, 2⟩ = some 0 ∧ lastOut 1 0 past = some ⟨busyRegs, 0⟩)
    (by decide +kernel)
  obtain ⟨hact, hres, hcur, hout⟩ := of_decide_eq_true hc
  have hr : Run (Step Action.switchesApart) (Cfg.initial (fun _ => 0) default) ([] ++ e :: past) s :=
    run_of_execute_initial migration (by simp [migration, Action.switchesApart]) (by decide) he
  obtain ⟨r, hstep⟩ := hr.split.2.fires
  rw [hstep] at hres
  have hr0 : r = some (.ok 0) := by
    rcases r with _ | _ | v
    · cases hres
    · cases hres
    · simpa [Except.toOption] using hres
  subst hr0
  exact ⟨e, past, s, he, private_registers hr hact hstep hcur hout⟩

end Fibers
