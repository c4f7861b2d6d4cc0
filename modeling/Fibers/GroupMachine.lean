import Fibers.LinearizationPoints
import Fibers.RegisterFile

/-!
# The machine of a group in the middle of its switches

Between two pieces the tables of a group are not yet what its machine is: a fiber can have been left
while its context is still in the registers of the thread that leaves it, and a fiber can have been
reached by a thread that has not loaded its context. `Shows` says what the machine is all the same,
and with which registers every thread will return to user code.

## Main results

- `World.Shows.activateCurrent` — the switch of the machine, when the current fiber changes
- `ViewStep.shows` — every step of a group is matched by its effect on the machine
- `Shows.machine_eq` — between calls the machine is what the tables say
-/

namespace Fibers

/-! ## What is due to a thread -/

/-- The fiber that a switch has reached and has not loaded completely. -/
def Frame.loads : Frame → Option ℤ
  | .saveRegs _ f => some f
  | .saveFpu _ f => some f
  | .account _ f => some f
  | .clearState _ f => some f
  | .unlock _ f => some f
  | .loadRegs f => some f
  | .loadFpu f => some f
  | _ => none

/-- The registers with which a thread will return to user code, once its switch has taken effect. -/
def dueCpu (context : ℤ → Option Context) (fr : Frame) (cpu : Cpu) : Cpu :=
  match fr with
  | .fail _ _ => cpu.setReturn (.error .EAGAIN)
  | .loadFpu f =>
    (context f).elim cpu fun c => Cpu.setReturn { cpu with fpu := c.fpu } (.ok 0)
  | fr =>
    match fr.loads.bind context with
    | some c => (cpu.resume c).setReturn (.ok 0)
    | none => cpu

/-- The machine that the threads of a group see, and the registers that they have in it. The
context of a parked fiber can still be in the registers of the thread that leaves it. -/
structure Shows (v : GroupView) (m : FiberMachine) (cpu : ℤ → Cpu) : Prop where
  consistent : m.Consistent
  same : m.unparked = (machineOf v.tg).unparked
  images : Images v.context v.frame v.cpu m.parkedAt
  due : ∀ pid, cpu pid = dueCpu v.context (v.frame pid) (v.cpu pid)

/-- A thread on another fiber. -/
theorem machineOf_setCurrent {tg : ThreadGroup} {pid : ℤ} {t : Thread}
    (ht : getThread pid tg = some t) (k : ℤ) :
    machineOf (some (tg.onThread pid (Thread.setCurrent k))) =
      (machineOf (some tg)).enter pid k := by
  ext1
  · funext q
    by_cases hq : q = pid
    · simp [hq, ht, Thread.setCurrent]
    · simp [hq]
  · rfl
  · rw [FiberMachine.count_enter, count_machineOf, count_machineOf]
    rfl

@[simp] theorem context_onThread {tg : ThreadGroup} {pid : ℤ} {g : Thread → Thread}
    {hg : ∀ t, (g t).pid = t.pid} : (tg.onThread pid g hg).context = tg.context := rfl

/-- A thread that leaves a fiber for another one leaves its registers as the image. -/
theorem outAfter_of_leaves {tg tg' : ThreadGroup} {pid old new : ℤ} {cpu : Cpu}
    {out : ℤ → Option Context} (hcur : tg.current pid = some old)
    (hnew : tg'.current pid = some new) (hne : new ≠ old) :
    outAfter tg tg' pid cpu out = Function.update out old (some (prepareContext cpu)) := by
  funext k
  by_cases hk : k = old
  · simp [outAfter, hk, hcur, hnew, hne]
  · simp [outAfter, hk, hcur, Ne.symm hk]

namespace Shows

variable {v : GroupView} {m : FiberMachine} {due : ℤ → Cpu}

theorem on_eq (h : Shows v m due) (q : ℤ) : m.on q = (machineOf v.tg).on q :=
  congrFun (congrArg FiberMachine.on h.same) q

theorem count_eq (h : Shows v m due) : m.count = (machineOf v.tg).count := by
  simpa using congrArg FiberMachine.count h.same

theorem isSome_strand (h : Shows v m due) (k : ℤ) :
    (m.strand k).isSome = ((machineOf v.tg).strand k).isSome := by
  simpa using congrArg Option.isSome (congrFun (congrArg FiberMachine.strand h.same) k)

end Shows

/-! ### The registers that are due -/

theorem dueCpu_of_loads_none {context : ℤ → Option Context} {fr : Frame} {cpu : Cpu}
    (hl : fr.loads = none) (hf : ∀ c f, fr ≠ .fail c f) : dueCpu context fr cpu = cpu := by
  cases fr <;> first | rfl | exact absurd rfl (hf _ _) | cases hl

/-- They depend on the context of one fiber. -/
theorem dueCpu_congr {context context' : ℤ → Option Context} {fr : Frame} (cpu : Cpu)
    (h : ∀ f, fr.loads = some f → context' f = context f) :
    dueCpu context' fr cpu = dueCpu context fr cpu := by
  cases fr with
  | saveRegs old f | saveFpu old f | account old f | clearState old f | unlock old f | loadRegs f
  | loadFpu f => simp only [dueCpu, Frame.loads, Option.bind_some, h f rfl]
  | _ => rfl

/-! ### Pieces that only one of the two sees -/

section Pieces

variable {tg : ThreadGroup} {frame : ℤ → Frame} {pid : ℤ} {cpu : Cpu} {p : Piece}

/-- The fiber that a thread loads is the one that it is on. -/
theorem current_of_loads (hi : GroupInv tg frame) {f : ℤ} (hl : (frame pid).loads = some f) :
    tg.HasFiber f ∧ tg.current pid = some f := by
  have hok := hi.frames pid
  have hon : tg.HasFiber f ∧ tg.CurrentIs pid f → tg.HasFiber f ∧ tg.current pid = some f :=
    fun h => ⟨h.1, h.2.current_eq (hi.fid_ne_noFibers h.1)⟩
  cases hfr : frame pid with
  | saveRegs old k | saveFpu old k | account old k | clearState old k | unlock old k =>
    rw [hfr] at hl hok
    cases hl
    exact hon hok.2
  | loadRegs k | loadFpu k =>
    rw [hfr] at hl hok
    cases hl
    exact hon hok
  | _ =>
    rw [hfr] at hl
    cases hl

/-- Nobody is on the fiber that a thread is about to enter. -/
theorem not_current_of_marked (hi : GroupInv tg frame) {k q : ℤ}
    (hm : (frame pid).phase = .marked k) : tg.current q ≠ some k := by
  intro hq
  have hpq : q = pid := hi.locks.holds_unique q pid k (.inl hq) (.inr (.inr (.inl hm)))
  subst hpq
  exact (hi.locks.apart q k hq).2.1 hm

/-- Nobody saves it either. -/
theorem not_saves_of_marked (hi : GroupInv tg frame) {k q : ℤ}
    (hm : (frame pid).phase = .marked k) : (frame q).saves ≠ some k := by
  intro hq
  have hleaving := leaving_of_saves hq
  have hpq : q = pid := hi.locks.holds_unique q pid k
    (.inr (.inr (.inr (.inl hleaving)))) (.inr (.inr (.inl hm)))
  subst hpq
  cases hleaving.symm.trans hm

/-- A write to a fiber that leaves its slots alone. -/
theorem unparked_onFiber {fid : ℤ} {g : Fiber → Fiber} {hg : ∀ f, (g f).fid = f.fid}
    (h : ∀ f, (g f).fls = f.fls) :
    (machineOf (some (tg.onFiber fid g hg))).unparked = (machineOf (some tg)).unparked := by
  ext1
  · rfl
  · funext k
    by_cases hk : k = fid
    · simp [hk, Function.comp_def, Fiber.strand, h]
    · simp [hk]
  · simp

/-- A piece of a switch is not seen on the machine, except where the current fiber changes. -/
theorem piece_unparked (hp : piece tg pid cpu (frame pid) = some p)
    (hf : (frame pid).switching = true) (hne : ∀ old f, frame pid ≠ .activateCurrent old f) :
    (machineOf (some p.tg)).unparked = (machineOf (some tg)).unparked := by
  generalize frame pid = fr at hp hf hne
  cases piece_step hp with
  | convertAgain _ | convertThread _ | convertFiber _ | createUnknown _ | createLookup _
  | createFiber _ | createStack _ | createContext _ => cases hf
  | converted _ | activateCurrent _ => exact absurd rfl (hne _ _)
  | lock _ _ | fail _ | activateState _ | activateWrite _ | activateTime _ | saveRegs _
  | saveFpu _ | account _ | clearState _ | unlock _ => exact unparked_onFiber fun _ => rfl
  | _ => rfl

/-- A piece of a switch writes no context but that of the fiber that it saves. -/
theorem piece_context (hp : piece tg pid cpu (frame pid) = some p)
    (hf : (frame pid).switching = true) {f : ℤ} (hs : (frame pid).saves ≠ some f) :
    p.tg.context f = tg.context f := by
  generalize frame pid = fr at hp hf hs
  by_cases hq : fr.quiet = true
  · rw [(piece_quiet hp hf hq).1]
  · cases piece_step hp with
    | converted _ => cases hf
    | activateCurrent _ | loadRegs _ => rfl
    | saveRegs hg | saveFpu hg =>
      have hne : _ ≠ f := fun h => hs (congrArg some h)
      exact (congrFun (context_onFiber hg) f).trans (Function.update_of_ne (Ne.symm hne) _ _)
    | _ => exact absurd rfl hq

end Pieces

/-! ## Every piece of a switch -/

namespace Shows

variable {tg : ThreadGroup} {frame : ℤ → Frame} {cpu : ℤ → Cpu} {m : FiberMachine} {due : ℤ → Cpu}
  {pid : ℤ} {p : Piece}

/-- No piece of a switch changes what is due to the threads where they are. -/
theorem due_after_piece (h : Shows ⟨some tg, frame, cpu⟩ m due) (hi : GroupInv tg frame)
    (hf : (frame pid).switching = true)
    (hp : Fibers.piece tg pid (cpu pid) (frame pid) = some p) (q : ℤ) :
    due q = dueCpu p.tg.context (frame q) (cpu q) := by
  refine (h.due q).trans (dueCpu_congr _ ?_).symm
  intro f hl
  obtain ⟨-, hcur⟩ := current_of_loads hi hl
  -- the fiber of `q` is not the one that is saved
  exact piece_context hp hf (fun hs => not_current_of_saves hi hs hcur)

/-- A piece that does not change the current fiber is not seen on the machine. -/
theorem piece (h : Shows ⟨some tg, frame, cpu⟩ m due) (hi : GroupInv tg frame)
    (hf : (frame pid).switching = true) (hne : ∀ old f, frame pid ≠ .activateCurrent old f)
    (hp : Fibers.piece tg pid (cpu pid) (frame pid) = some p) :
    Shows ⟨some p.tg, Function.update frame pid p.frame, Function.update cpu pid p.cpu⟩ m
      (Function.update due pid (dueCpu p.tg.context p.frame p.cpu)) where
  consistent := h.consistent
  same := h.same.trans (piece_unparked hp hf hne).symm
  images := by
    have himg := Images.piece h.images hi hf hp
    rwa [outAfter_of_threads (piece_threads hp (by rintro he; rw [he] at hf; cases hf) hne)] at himg
  due := by
    intro q
    by_cases hq : q = pid
    · subst hq
      simp only [Function.update_self]
      rfl
    · simp only [Function.update_of_ne hq]
      exact h.due_after_piece hi hf hp q

end Shows

/-! ## Images that come and go -/

/-- A record that no thread saves or loads, with an image in it or with none. -/
theorem Images.set {context : ℤ → Option Context} {frame : ℤ → Frame} {cpu : ℤ → Cpu}
    {out : ℤ → Option Context} (h : Images context frame cpu out) (fid : ℤ) (c img : Option Context)
    (hsaves : ∀ q, (frame q).saves ≠ some fid) (hloads : ∀ q, img = none ∨ frame q ≠ .loadFpu fid)
    (himg : img = none ∨ c = img) :
    Images (Function.update context fid c) frame cpu (Function.update out fid img) where
  known := by
    intro f i hf
    by_cases hff : f = fid
    · subst hff
      rw [Function.update_self] at hf ⊢
      subst hf
      rcases himg with himg | rfl
      · cases himg
      · rfl
    · rw [Function.update_of_ne hff] at hf ⊢
      exact h.known f i hf
  saveRegs := by
    intro q f new hq
    have hff : f ≠ fid := by
      rintro rfl
      exact hsaves q (by rw [hq]; rfl)
    rw [Function.update_of_ne hff]
    exact h.saveRegs q f new hq
  saveFpu := by
    intro q f new hq
    have hff : f ≠ fid := by
      rintro rfl
      exact hsaves q (by rw [hq]; rfl)
    rw [Function.update_of_ne hff, Function.update_of_ne hff]
    exact h.saveFpu q f new hq
  saved := by
    intro f i hf hn
    by_cases hff : f = fid
    · subst hff
      rw [Function.update_self] at hf ⊢
      subst hf
      rcases himg with himg | rfl
      · cases himg
      · rfl
    · rw [Function.update_of_ne hff] at hf ⊢
      exact h.saved f i hf hn
  loadFpu := by
    intro q f i hq hf
    by_cases hff : f = fid
    · subst hff
      rw [Function.update_self] at hf
      rcases hloads q with himg | hl
      · cases hf.symm.trans himg
      · exact absurd hq hl
    · rw [Function.update_of_ne hff] at hf
      exact h.loadFpu q f i hq hf

/-! ## A step of a group and its machine -/

/-- A process sees this part of the world. -/
def World.Shows (w : World) (tgid : ℤ) (v : GroupView) : Prop :=
  Fibers.Shows v (w.machine tgid) fun pid => w.cpu ⟨tgid, pid⟩

/-- A step of the group is matched by its effect on the world. -/
inductive World.Follows (w : World) (tgid : ℤ) (v : GroupView) (a : Action) (v' : GroupView) : Prop
  | silent (heffect : v.effect a v' = none) (h : w.Shows tgid v')
  | takes {e : Effect} (heffect : v.effect a v' = some e) (he : e.tgid = tgid) (ha : w.Allows e)
      (h : (w.effect e).Shows tgid v')

namespace World.Shows

variable {w : World} {tgid pid next : ℤ} {v v' : GroupView}

/-- The answer to a request, seen by its process. -/
theorem serve {req : Request} {a : Answer} {r : Ret} (hret : a.ret = r.toLong)
    (ha : (w.machine tgid).serve pid (w.cpu ⟨tgid, pid⟩) (w.mem tgid) req = a)
    (h : Fibers.Shows v' a.machine
      (Function.update (fun q => w.cpu ⟨tgid, q⟩) pid (a.cpu.setReturn r))) :
    (w.effect (.serve ⟨tgid, pid⟩ req)).Shows tgid v' := by
  have hreturn : a.cpu.setReturn (.ok a.ret) = a.cpu.setReturn r := by
    rw [hret]
    rfl
  unfold World.Shows
  simp only [World.effect, World.after, ha, Function.update_self, hreturn]
  rwa [update_task_self]

/-- The end of a switch, seen by its process. -/
theorem switch {m : FiberMachine} {cpu : Cpu} {r : Ret}
    (hsw : (w.machine tgid).switch pid (w.cpu ⟨tgid, pid⟩) next = (m, cpu, r))
    (h : Fibers.Shows v' m (Function.update (fun q => w.cpu ⟨tgid, q⟩) pid (cpu.setReturn r))) :
    (w.effect (.serve ⟨tgid, pid⟩ (.switchToFiber next))).Shows tgid v' := by
  have ha : (w.machine tgid).serve pid (w.cpu ⟨tgid, pid⟩) (w.mem tgid) (.switchToFiber next) =
      ⟨m, cpu, w.mem tgid, r.toLong⟩ := by
    simp only [FiberMachine.serve, hsw]
  exact serve rfl ha h

section Pieces

variable {tg : ThreadGroup} {frame : ℤ → Frame} {cpu : ℤ → Cpu} {p : Piece}

/-- A thread in a frame to which nothing is due has its own registers. -/
theorem cpu_eq (h : w.Shows tgid ⟨some tg, frame, cpu⟩) (hl : (frame pid).loads = none)
    (hf : ∀ c f, frame pid ≠ .fail c f) : w.cpu ⟨tgid, pid⟩ = cpu pid :=
  (h.due pid).trans (dueCpu_of_loads_none hl hf)

/-- A fiber that nobody is on is parked, and its context is the one where it goes on unless
another thread saves it. -/
theorem parked_of_free (h : w.Shows tgid ⟨some tg, frame, cpu⟩) {k : ℤ} {f : Fiber}
    (hk : getFiber k tg = some f) (hfree : ∀ q, ¬ tg.CurrentIs q k) :
    ∃ st c, (w.machine tgid).strand k = some st ∧ st.parked = some c ∧
      ((∀ q, (frame q).saves ≠ some k) → f.context = c) := by
  have hsome := h.isSome_strand k
  simp only [strand_machineOf, hk, Option.map_some, Option.isSome_some] at hsome
  obtain ⟨st, hst⟩ := Option.isSome_iff_exists.mp hsome
  cases hp : st.parked with
  | none =>
    obtain ⟨q, hq⟩ := (h.consistent.running_iff k).mpr ⟨st, hst, hp⟩
    rw [h.on_eq, on_machineOf] at hq
    obtain ⟨t, ht, hc⟩ := Option.map_eq_some_iff.mp hq
    exact absurd ⟨t, ht, hc⟩ (hfree q)
  | some c =>
    refine ⟨st, c, hst, hp, ?_⟩
    intro hsaves
    have hparked : (w.machine tgid).parkedAt k = some c := by
      simp [FiberMachine.parkedAt, hst, hp]
    have hctx := h.images.saved k c hparked hsaves
    simpa [GroupView.context, ThreadGroup.context, hk] using hctx

/-- A switch takes effect when its thread changes its current fiber. -/
theorem activateCurrent (h : w.Shows tgid ⟨some tg, frame, cpu⟩) (hi : GroupInv tg frame)
    (hf : (frame pid).switching = true) {old k : ℤ} {t : Thread}
    (hfr : frame pid = .activateCurrent (some old) k) (ht : getThread pid tg = some t) :
    (w.effect (.serve ⟨tgid, pid⟩ (.switchToFiber k))).Shows tgid
      ⟨some (tg.onThread pid (Thread.setCurrent k)), Function.update frame pid (.saveRegs old k),
        Function.update cpu pid (cpu pid)⟩ := by
  have hok := hi.frames pid
  rw [hfr] at hok
  obtain ⟨hk, hold, hcur⟩ := hok
  obtain ⟨f, hk'⟩ := Option.isSome_iff_exists.mp hk
  have hmarked : (frame pid).phase = .marked k := by rw [hfr]; rfl
  -- the thread has the lock of its target, so nobody is on it and nobody saves it
  have hfree : ∀ q, tg.current q ≠ some k := fun _ => not_current_of_marked hi hmarked
  have hsaves : ∀ q, (frame q).saves ≠ some k := fun _ => not_saves_of_marked hi hmarked
  obtain ⟨st, c, hst, hp, hctx⟩ := h.parked_of_free hk' fun q hq =>
    hfree q (hq.current_eq (hi.fid_ne_noFibers hk))
  have hctx := hctx hsaves
  have hon : (w.machine tgid).on pid = some old := by
    obtain ⟨t', ht', rfl⟩ := hcur
    simp [h.on_eq, ht']
  have hne : k ≠ old := by
    rintro rfl
    exact hfree pid (hcur.current_eq (hi.fid_ne_noFibers hold))
  have hsome := h.isSome_strand old
  rw [strand_machineOf, Option.isSome_map, hold] at hsome
  obtain ⟨running, hrunning⟩ := Option.isSome_iff_exists.mp hsome
  have hcpu : w.cpu ⟨tgid, pid⟩ = cpu pid := h.cpu_eq (by rw [hfr]; rfl) (by simp [hfr])
  have hpiece : Fibers.piece tg pid (cpu pid) (frame pid) =
      some (.goto (tg.onThread pid (Thread.setCurrent k)) (cpu pid) (.saveRegs old k)) := by
    simp [Fibers.piece, hfr, ht]
  refine switch (FiberMachine.switch_of_parked hon hst hp) ⟨?_, ?_, ?_, ?_⟩
  · exact h.consistent.handOver hon hst hp _
  · rw [FiberMachine.unparked_enter, FiberMachine.unparked_park, FiberMachine.unparked_park, h.same,
      machineOf_setCurrent ht]
    rfl
  · have himg := Images.piece h.images hi hf hpiece
    have hnew : (tg.onThread pid (Thread.setCurrent k)).current pid = some k := by
      rw [current_onThread_setCurrent (by simp [ht]) (hi.fid_ne_noFibers hk), Function.update_self]
    simp only [Piece.goto] at himg
    rw [outAfter_of_leaves (hcur.current_eq (hi.fid_ne_noFibers hold)) hnew hne] at himg
    -- the image of the fiber that is left appears, and that of the new one goes
    have hset := himg.set k (tg.context k) none ?_ (fun _ => .inl rfl) (.inl rfl)
    · have hstk :
          ((w.machine tgid).park old (some (prepareContext (cpu pid)))).strand k = some st := by
        rw [FiberMachine.strand_park, Function.update_of_ne hne, hst]
      rw [hcpu, FiberMachine.parkedAt_enter, FiberMachine.parkedAt_park _ hstk,
        FiberMachine.parkedAt_park _ hrunning]
      rwa [context_onThread, Function.update_eq_self] at hset
    · intro q
      by_cases hq : q = pid
      · subst hq
        rw [Function.update_self]
        exact fun hs => hne (Option.some.inj hs).symm
      · rw [Function.update_of_ne hq]
        exact hsaves q
  · intro q
    by_cases hq : q = pid
    · subst hq
      have hck : tg.context k = some c := by
        rw [ThreadGroup.context, hk', Option.map_some, hctx]
      have hview : GroupView.context ⟨some (tg.onThread q (Thread.setCurrent k)),
          Function.update frame q (.saveRegs old k), Function.update cpu q (cpu q)⟩ =
        tg.context := rfl
      simp only [hview, Function.update_self, hcpu, dueCpu, Frame.loads, Option.bind_some, hck]
    · simp only [Function.update_of_ne hq]
      exact Fibers.Shows.due_after_piece h hi hf hpiece q

/-- A piece in which no switch takes effect. -/
theorem silentPiece (h : w.Shows tgid ⟨some tg, frame, cpu⟩) (hi : GroupInv tg frame)
    (hf : (frame pid).switching = true) (hne : ∀ old f, frame pid ≠ .activateCurrent old f)
    (hp : Fibers.piece tg pid (cpu pid) (frame pid) = some p)
    (hseeks : (frame pid).seeks = none ∨ p.frame.seeks = (frame pid).seeks)
    (hdue : dueCpu p.tg.context p.frame p.cpu = dueCpu p.tg.context (frame pid) (cpu pid)) :
    w.Follows tgid ⟨some tg, frame, cpu⟩ (.tick ⟨tgid, pid⟩)
      ⟨some p.tg, Function.update frame pid p.frame, Function.update cpu pid p.cpu⟩ := by
  refine .silent (effect_silent ?_) ?_
  · simpa using hseeks
  · have hafter := Fibers.Shows.piece h hi hf hne hp
    rw [hdue, ← Fibers.Shows.due_after_piece h hi hf hp pid] at hafter
    rwa [Function.update_eq_self pid fun q => w.cpu ⟨tgid, q⟩] at hafter

/-- A piece in which a switch fails. -/
theorem failedPiece (h : w.Shows tgid ⟨some tg, frame, cpu⟩) (hi : GroupInv tg frame)
    (hf : (frame pid).switching = true) (hne : ∀ old f, frame pid ≠ .activateCurrent old f)
    (hp : Fibers.piece tg pid (cpu pid) (frame pid) = some p) (next : ℤ) (e : Errno)
    (hseeks : (frame pid).seeks = some next) (hend : p.frame.seeks = none)
    (hdue : dueCpu p.tg.context p.frame p.cpu = (cpu pid).setReturn (.error e))
    (hn : ¬ GroupView.TriesParked ⟨some tg, frame, cpu⟩ pid next)
    (hsw : (w.machine tgid).switch pid (w.cpu ⟨tgid, pid⟩) next =
      (w.machine tgid, w.cpu ⟨tgid, pid⟩, .error e)) (hcpu : w.cpu ⟨tgid, pid⟩ = cpu pid) :
    w.Follows tgid ⟨some tg, frame, cpu⟩ (.tick ⟨tgid, pid⟩)
      ⟨some p.tg, Function.update frame pid p.frame, Function.update cpu pid p.cpu⟩ := by
  refine .takes (effect_serve hseeks ?_ hn) rfl trivial (switch hsw ?_)
  · simpa using hend
  · have hafter := Fibers.Shows.piece h hi hf hne hp
    rwa [hdue, ← hcpu] at hafter

/-- A switch that finds the lock of its target taken: a thread is on the target, or the switch is
refused although the target is parked. -/
theorem turnedAway (h : w.Shows tgid ⟨some tg, frame, cpu⟩) (hi : GroupInv tg frame) {k : ℤ}
    {f : Fiber} (hfr : frame pid = .trylock .switch k) (hk : getFiber k tg = some f)
    (hl : f.flock = true) :
    w.Follows tgid ⟨some tg, frame, cpu⟩ (.tick ⟨tgid, pid⟩)
      ⟨some tg, Function.update frame pid (.fail .switch k),
        Function.update cpu pid (cpu pid)⟩ := by
  have hf : (frame pid).switching = true := by rw [hfr]; rfl
  have hseeks : (frame pid).seeks = some k := by rw [hfr]; rfl
  have hne : ∀ old j, frame pid ≠ .activateCurrent old j := by simp [hfr]
  have hp : Fibers.piece tg pid (cpu pid) (frame pid) =
      some (.goto tg (cpu pid) (.fail .switch k)) := by simp [Fibers.piece, hfr, hk, hl]
  have hcpu : w.cpu ⟨tgid, pid⟩ = cpu pid := h.cpu_eq (by rw [hfr]; rfl) (by simp [hfr])
  have hok := hi.frames pid
  rw [hfr] at hok
  obtain ⟨t, ht⟩ := Option.isSome_iff_exists.mp hok.2
  have hon : (w.machine tgid).on pid = some t.currentFid := by simp [h.on_eq, ht]
  by_cases hfree : ∀ q, tg.current q ≠ some k
  · obtain ⟨st, c, hst, hparked, -⟩ := h.parked_of_free hk fun q hq =>
      hfree q (hq.current_eq (hi.fid_ne_noFibers hok.1))
    refine .takes (effect_refuse hseeks (by simp [Frame.seeks]) ⟨hfr, hfree⟩) rfl
      ⟨by simp [hon], st, c, hst, hparked⟩ ?_
    have hafter := Fibers.Shows.piece h hi hf hne hp
    unfold World.Shows
    simp only [World.effect, hcpu]
    rwa [update_task_self]
  · obtain ⟨q, hq⟩ := not_forall_not.mp hfree
    have honq : (w.machine tgid).on q = some k := by
      obtain ⟨u, hu, hc⟩ := (current_eq_some_iff (hi.fid_ne_noFibers hok.1)).mp hq
      simp [h.on_eq, hu, hc]
    obtain ⟨st, hst, hrun⟩ := h.consistent.strand_on honq
    exact h.failedPiece hi hf hne hp k .EAGAIN hseeks rfl rfl (fun hn => hfree hn.2)
      (FiberMachine.switch_of_running hon hst hrun) hcpu

/-- Every piece of a switch follows its machine. -/
theorem piece (h : w.Shows tgid ⟨some tg, frame, cpu⟩) (hi : GroupInv tg frame)
    (hset : Settled tg frame) (hf : (frame pid).switching = true)
    (hp : Fibers.piece tg pid (cpu pid) (frame pid) = some p) :
    w.Follows tgid ⟨some tg, frame, cpu⟩ (.tick ⟨tgid, pid⟩)
      ⟨some p.tg, Function.update frame pid p.frame, Function.update cpu pid p.cpu⟩ := by
  have hok := hi.frames pid
  have hsilent := fun hne => h.silentPiece hi hf hne hp
  have hfailed := fun next e hne => h.failedPiece hi hf hne hp next e
  have hown : (frame pid).loads = none → (∀ c f, frame pid ≠ .fail c f) →
      w.cpu ⟨tgid, pid⟩ = cpu pid := h.cpu_eq
  generalize hfr : frame pid = fr at hp hok hf hsilent hfailed hown
  cases piece_step hp with
  | convertAgain _ | convertThread _ | convertFiber _ | createUnknown _ | createLookup _
  | createFiber _ | createStack _ | createContext _ | checkConvert _ _ | converted _ => cases hf
  | switchThread _ | switchTarget _ | lock _ _ | checkSwitch _ _ | switchOld _ _ | activateState _
  | activateRead _ | activateWrite _ | activateTime _ =>
    exact hsilent (by simp) (.inr rfl) rfl
  | fail _ | saveRegs _ | saveFpu _ | account _ | clearState _ | unlock _ =>
    exact hsilent (by simp) (.inl rfl) rfl
  | loadRegs hg =>
    refine hsilent (by simp) (.inl rfl) ?_
    simp [Piece.goto, dueCpu, Frame.loads, ThreadGroup.context, hg, Cpu.resume, Cpu.setReturn]
  | loadFpu hg =>
    refine hsilent (by simp) (.inl rfl) ?_
    simp [Piece.ret, dueCpu, Frame.loads, ThreadGroup.context, hg]
  | @switchUnknown next ht =>
    have hon : (w.machine tgid).on pid = none := by simp [h.on_eq, ht]
    exact hfailed _ _ (by simp) rfl rfl rfl (not_triesParked (by simp [hfr]))
      (FiberMachine.switch_of_on_none hon) (hown rfl (by simp))
  | @noTarget next hg =>
    have hs := h.isSome_strand next
    rw [strand_machineOf, hg, Option.map_none, Option.isSome_none, Option.isSome_eq_false_iff,
      Option.isNone_iff_eq_none] at hs
    exact hfailed _ _ (by simp) rfl rfl rfl (not_triesParked (by simp [hfr]))
      (FiberMachine.switch_of_strand_none hs) (hown rfl (by simp))
  | @locked c k f hg hl =>
    cases c with
    | convert => cases hf
    | switch => exact h.turnedAway hi hfr hg hl
  | used hg hs => exact absurd (hi.state_of_check hfr hg) hs
  | @nowhere f t ht hg =>
    have hcur := hset.getFiber_current hi ht (by rw [hfr]; rfl)
    rw [hg] at hcur
    cases hcur
  | @activateCurrent old k t ht =>
    have hseeks : (frame pid).seeks = some k := by rw [hfr]; rfl
    exact .takes (effect_serve hseeks (by simp [Piece.goto, Frame.seeks])
      (not_triesParked (by simp [hfr]))) rfl trivial (h.activateCurrent hi (hfr ▸ hf) hfr ht)

end Pieces

end World.Shows

/-! ## The other steps of a group -/

namespace Shows

variable {v : GroupView} {m : FiberMachine} {due : ℤ → Cpu} {tgid pid : ℤ} {tg : ThreadGroup}

/-- User code changes its registers. -/
theorem user (h : Shows v m due) (hu : v.frame pid = .user) (c : Cpu) :
    Shows { v with cpu := Function.update v.cpu pid c } m (Function.update due pid c) where
  consistent := h.consistent
  same := h.same
  images := h.images.user hu c
  due := by
    intro q
    by_cases hq : q = pid
    · subst hq
      simp only [Function.update_self, hu]
      rfl
    · simp only [Function.update_of_ne hq]
      exact h.due q

/-- A thread goes between frames in which it is not inside a switch that has taken effect. -/
theorem goto (h : Shows v m due) (fr : Frame) (hold : (v.frame pid).saves = none)
    (hnew : fr.saves = none) (hl : fr.loads = none) (hn : ∀ c f, fr ≠ .fail c f) (c : Cpu) :
    Shows { v with frame := Function.update v.frame pid fr, cpu := Function.update v.cpu pid c } m
      (Function.update due pid c) where
  consistent := h.consistent
  same := h.same
  images := h.images.quiet hold c hnew (by rintro f rfl; cases hl)
  due := by
    intro q
    by_cases hq : q = pid
    · subst hq
      simp only [Function.update_self]
      exact (dueCpu_of_loads_none hl hn).symm
    · simp only [Function.update_of_ne hq]
      exact h.due q

theorem machineOf_offers (ho : v.Offers tgid tg) : machineOf v.tg = machineOf (some tg) := by
  rcases ho with hg | ⟨hg, hash, rfl⟩
  · rw [hg]
  · rw [hg, machineOf_freshGroup]
    rfl

/-- A group that is there, or has just been generated. -/
theorem offers (h : Shows v m due) (ho : v.Offers tgid tg) :
    Shows { v with tg := some tg } m due where
  consistent := h.consistent
  same := by
    rw [h.same, machineOf_offers ho]
  images := by
    have himg := h.images
    rw [ho.context] at himg
    exact himg
  due := by
    have hdue := h.due
    rw [ho.context] at hdue
    exact hdue

/-- A group with one fiber more, and its machine. -/
theorem insert {frame : ℤ → Frame} {cpu : ℤ → Cpu} {tg' : ThreadGroup} {m' : FiberMachine}
    (h : Shows ⟨some tg, frame, cpu⟩ m due) (hi : GroupInv tg frame)
    (few : tg.fibers.size < 2 ^ 31) (hu : frame pid = .user) (c : Context) (img : Option Context)
    (hctx : tg'.context = Function.update tg.context (nextFid tg) (some c))
    (himg : img = none ∨ some c = img) (hcons : m'.Consistent)
    (hsame : m'.unparked = (machineOf (some tg')).unparked)
    (hparked : m'.parkedAt = Function.update m.parkedAt (nextFid tg) img) (x : Cpu) :
    Shows ⟨some tg', frame, Function.update cpu pid x⟩ m' (Function.update due pid x) where
  consistent := hcons
  same := hsame
  images := by
    have hnew : ¬ tg.HasFiber (nextFid tg) := by
      rw [ThreadGroup.HasFiber, hi.numbered.getFiber_nextFid few]
      simp
    have hset := (h.images.user hu x).set (nextFid tg) (some c) img ?_ ?_ himg
    · rw [hparked]
      change Images tg'.context _ _ _
      rw [hctx]
      exact hset
    · intro q hq
      exact hnew (GroupInv.hasFiber_of_locked (hi.locks.locked_of_holds q _
        (.inr (.inr (.inr (.inl (leaving_of_saves hq)))))))
    · intro q
      refine .inr ?_
      intro (hq : frame q = .loadFpu _)
      have hl : (frame q).loads = some (nextFid tg) := by rw [hq]; rfl
      exact hnew (current_of_loads hi hl).1
  due := by
    intro q
    by_cases hq : q = pid
    · subst hq
      simp only [Function.update_self, hu]
      rfl
    · simp only [Function.update_of_ne hq]
      refine (h.due q).trans (dueCpu_congr _ ?_).symm
      intro f hl
      change tg'.context f = tg.context f
      rw [hctx, Function.update_of_ne]
      rintro rfl
      have hnew := (current_of_loads hi hl).1
      rw [ThreadGroup.HasFiber, hi.numbered.getFiber_nextFid few] at hnew
      cases hnew

end Shows

/-- The actions of a run in which only switches are taken apart, and processes end. -/
def Action.switchesAndCleanups (a : Action) : Prop := a.switchesApart ∨ ∃ tgid, a = .cleanup tgid

section Calls

variable {w : World} {v v' : GroupView} {tgid pid : ℤ} {tg : ThreadGroup}

/-- The answer to a call whose result is its return value. -/
theorem World.Shows.call {req : Request} {x : FiberMachine × Ret}
    (hreq : (w.machine tgid).serve pid (w.cpu ⟨tgid, pid⟩) (w.mem tgid) req =
      FiberMachine.answer (w.cpu ⟨tgid, pid⟩) (w.mem tgid) x)
    (h : Fibers.Shows v' x.1 (Function.update (fun q => w.cpu ⟨tgid, q⟩) pid
      ((w.cpu ⟨tgid, pid⟩).setReturn x.2))) : (w.effect (.serve ⟨tgid, pid⟩ req)).Shows tgid v' :=
  World.Shows.serve rfl hreq h

/-- A thread in user code has its own registers. -/
theorem World.Shows.cpu_of_user (h : w.Shows tgid v) (hu : v.frame pid = .user) :
    w.cpu ⟨tgid, pid⟩ = v.cpu pid := by
  refine (h.due pid).trans ?_
  rw [hu]
  rfl

theorem World.Shows.enterSwitch (h : w.Shows tgid v) (hu : v.frame pid = .user) (next : ℤ) :
    w.Shows tgid { v with frame := Function.update v.frame pid (.switchThread next) } := by
  have hgo := Fibers.Shows.goto h (.switchThread next) (by rw [hu]; rfl) rfl rfl (by simp)
    (v.cpu pid)
  rwa [← h.cpu_of_user hu, Function.update_eq_self pid fun q => w.cpu ⟨tgid, q⟩, h.cpu_of_user hu,
    Function.update_eq_self] at hgo

theorem World.Shows.noGroup (h : w.Shows tgid v) (hg : v.tg = none) {next : ℤ}
    (hfr : v.frame pid = .switchThread next) :
    w.Follows tgid v (.tick ⟨tgid, pid⟩)
      { v with
        frame := Function.update v.frame pid .user
        cpu := Function.update v.cpu pid ((v.cpu pid).setReturn (.error .ESRCH)) } := by
  have hcpu : w.cpu ⟨tgid, pid⟩ = v.cpu pid := by
    refine (h.due pid).trans ?_
    rw [hfr]
    rfl
  have hon : (w.machine tgid).on pid = none := by
    rw [h.on_eq, hg]
    rfl
  refine .takes (effect_serve (by rw [hfr]; rfl) (by simp [Frame.seeks])
    (not_triesParked (by simp [hfr]))) rfl trivial ?_
  refine World.Shows.switch (FiberMachine.switch_of_on_none hon) ?_
  rw [hcpu]
  exact Fibers.Shows.goto h .user (by rw [hfr]; rfl) rfl rfl (by simp) _

theorem World.Shows.convertAgain (h : w.Shows tgid v) (hu : v.frame pid = .user)
    (ho : v.Offers tgid tg) {th : Thread} (ht : getThread pid tg = some th) :
    (w.effect (.serve ⟨tgid, pid⟩ .convertThreadToFiber)).Shows tgid
      { v with
        tg := some tg
        cpu := Function.update v.cpu pid ((v.cpu pid).setReturn (.error .EEXIST)) } := by
  have hon : (w.machine tgid).on pid = some th.currentFid := by
    rw [h.on_eq, Fibers.Shows.machineOf_offers ho, on_machineOf, ht]
    rfl
  have hconvert : (w.machine tgid).convert pid = (w.machine tgid, .error .EEXIST) := by
    simp only [FiberMachine.convert, hon]
  refine World.Shows.call rfl ?_
  rw [hconvert, h.cpu_of_user hu]
  exact Fibers.Shows.user (Fibers.Shows.offers h ho) hu _

theorem World.Shows.convert (h : w.Shows tgid v) (hi : ViewInv v) (hu : v.frame pid = .user)
    (ho : v.Offers tgid tg) (ht : getThread pid tg = none)
    (few : (converted tg pid (v.cpu pid)).fibers.size < 2 ^ 31) :
    (w.effect (.serve ⟨tgid, pid⟩ .convertThreadToFiber)).Shows tgid
      { v with
        tg := some (converted tg pid (v.cpu pid))
        cpu := Function.update v.cpu pid ((v.cpu pid).setReturn (.ok (nextFid tg))) } := by
  have hi := hi.of_offers ho
  rw [size_converted] at few
  have hmachine := Fibers.Shows.machineOf_offers ho
  have hon : (w.machine tgid).on pid = none := by
    rw [h.on_eq, hmachine, on_machineOf, ht]
    rfl
  have hfid : nextFid tg = (machineOf (some tg)).count := by
    rw [count_machineOf]
    exact hi.numbered.nextFid_eq (by omega)
  have hcount : nextFid tg = (w.machine tgid).count := by rw [hfid, h.count_eq, hmachine]
  have hconvert : (w.machine tgid).convert pid =
      (((w.machine tgid).spawn none).enter pid (w.machine tgid).count,
        .ok (w.machine tgid).count) := by
    simp only [FiberMachine.convert, hon]
  refine World.Shows.call rfl ?_
  have hcons : ((w.machine tgid).convert pid).1.Consistent := h.consistent.convert
  rw [hconvert] at hcons ⊢
  rw [h.cpu_of_user hu, ← hcount]
  rw [← hcount] at hcons
  refine Fibers.Shows.insert (Fibers.Shows.offers h ho) hi (by omega) hu _ none
    (context_converted tg pid _) (.inl rfl) hcons ?_ ?_ _
  · rw [FiberMachine.unparked_enter, FiberMachine.unparked_spawn, h.same, hmachine,
      machineOf_converted hfid]
    simp
  · rw [FiberMachine.parkedAt_enter, FiberMachine.parkedAt_spawn, hcount]

theorem World.Shows.create (h : w.Shows tgid v) (hi : ViewInv v) (hu : v.frame pid = .user)
    (hg : v.tg = some tg) {th : Thread} (ht : getThread pid tg = some th) (x : FibArgs)
    (few : (created tg th (v.cpu pid) x).fibers.size < 2 ^ 31) :
    (w.effect (.serve ⟨tgid, pid⟩ (.createFiber x))).Shows tgid
      { v with
        tg := some (created tg th (v.cpu pid) x)
        cpu := Function.update v.cpu pid ((v.cpu pid).setReturn (.ok (nextFid tg))) } := by
  obtain ⟨_, frame, cpu⟩ := v
  cases hg
  have hi := hi.grouped tg rfl
  rw [size_created] at few
  have hon : (w.machine tgid).on pid = some th.currentFid := by
    rw [h.on_eq, on_machineOf, ht]
    rfl
  have hfid : nextFid tg = (machineOf (some tg)).count := by
    rw [count_machineOf]
    exact hi.numbered.nextFid_eq (by omega)
  have hcount : nextFid tg = (w.machine tgid).count := by rw [hfid, h.count_eq]
  have hcreate : (w.machine tgid).create pid (w.cpu ⟨tgid, pid⟩) x =
      ((w.machine tgid).spawn (some (x.start (w.cpu ⟨tgid, pid⟩))),
        .ok (w.machine tgid).count) := by
    simp only [FiberMachine.create, hon]
  refine World.Shows.call rfl ?_
  have hcons : ((w.machine tgid).create pid (w.cpu ⟨tgid, pid⟩) x).1.Consistent :=
    h.consistent.create x
  rw [hcreate] at hcons ⊢
  rw [h.cpu_of_user hu, ← hcount]
  rw [h.cpu_of_user hu] at hcons
  refine Fibers.Shows.insert h hi (by omega) hu _ (some (x.start (cpu pid)))
    (context_created tg th _ x) (.inr ?_) hcons ?_ ?_ _
  · rfl
  · rw [FiberMachine.unparked_spawn, h.same, machineOf_created th x hfid]
    simp
  · rw [FiberMachine.parkedAt_spawn, hcount]

theorem World.Shows.createUnknown (h : w.Shows tgid v) (hu : v.frame pid = .user)
    (hon : (machineOf v.tg).on pid = none) (x : FibArgs) :
    (w.effect (.serve ⟨tgid, pid⟩ (.createFiber x))).Shows tgid
      { v with cpu := Function.update v.cpu pid ((v.cpu pid).setReturn (.error .ESRCH)) } := by
  have hcreate : (w.machine tgid).create pid (w.cpu ⟨tgid, pid⟩) x =
      (w.machine tgid, .error .ESRCH) := by
    simp only [FiberMachine.create, h.on_eq, hon]
  refine World.Shows.call rfl ?_
  rw [hcreate, h.cpu_of_user hu]
  exact Fibers.Shows.user h hu _

/-- A process ends when none of its threads is inside a call. -/
theorem World.Shows.cleanup (h : w.Shows tgid v) (halone : ∀ pid, v.frame pid = .user) :
    (w.effect (.release tgid)).Shows tgid { v with tg := none } := by
  unfold World.Shows
  simp only [World.effect, Function.update_self]
  have hparked : FiberMachine.empty.parkedAt = fun _ => none := rfl
  refine ⟨.empty, rfl, ?_, ?_⟩
  · rw [hparked]
    constructor <;> simp [halone]
  · intro pid
    rw [h.cpu_of_user (halone pid), halone pid]
    rfl

end Calls

/-- Every step of a group is matched by its effect on the machine. -/
theorem ViewStep.shows {tgid : ℤ} {v v' : GroupView} {a : Action} {r : Option Ret} {w : World}
    (hs : ViewStep tgid v a r v') (hin : a.tgid = tgid) (ha : a.switchesAndCleanups)
    (hi : ViewInv v) (hf : ∀ pid, (v.frame pid).switching = true)
    (hset : ∀ tg, v.tg = some tg → Settled tg v.frame)
    (few : ∀ tg, v'.tg = some tg → tg.fibers.size < 2 ^ 31)
    (hunknown : ∀ pid k x, a = .create ⟨tgid, pid⟩ k x → r = some (.error .ESRCH) →
      (machineOf v.tg).on pid = none)
    (h : w.Shows tgid v) : w.Follows tgid v a v' := by
  cases hs with
  | elsewhere hne => exact absurd hin hne
  | @user pid cpu hu =>
    refine .takes rfl rfl trivial ?_
    have hafter := Fibers.Shows.user h hu cpu
    unfold World.Shows
    simp only [World.effect]
    rwa [update_task_self]
  | @call pid c hu =>
    cases c with
    | convert | create x => rcases ha with ha | ⟨_, he⟩ <;> contradiction
    | switch next => exact .silent rfl (h.enterSwitch hu next)
  | @plock pid tg hc _ =>
    have hsw := hf pid
    rw [hc] at hsw
    cases hsw
  | @noGroup pid hg hl =>
    have hsw := hf pid
    cases hfr : v.frame pid with
    | switchThread next => exact h.noGroup hg hfr
    | createLookup x =>
      rw [hfr] at hsw
      cases hsw
    | _ =>
      rw [hfr] at hl
      cases hl
  | @piece pid tg p hg hp =>
    obtain ⟨_, frame, cpu⟩ := v
    cases hg
    exact h.piece (hi.grouped tg rfl) (hset tg rfl) (hf pid) hp
  | convertAgain hu ho ht => exact .takes rfl rfl trivial (h.convertAgain hu ho ht)
  | convert hu ho ht => exact .takes rfl rfl trivial (h.convert hi hu ho ht (few _ rfl))
  | @createUnknown pid k x hu =>
    exact .takes rfl rfl trivial (h.createUnknown hu (hunknown pid k x rfl rfl) x)
  | create hu hg ht => exact .takes rfl rfl trivial (h.create hi hu hg ht _ (few _ rfl))
  | cleanup halone => exact .takes rfl rfl trivial (h.cleanup halone)

/-! ## The machine between calls -/

/-- When no thread of a group is inside a call, its machine is what the tables say. -/
theorem Shows.machine_eq {v : GroupView} {m : FiberMachine} {due : ℤ → Cpu} (h : Shows v m due)
    (hi : ViewInv v) (hset : ∀ tg, v.tg = some tg → Settled tg v.frame)
    (huser : ∀ pid, v.frame pid = .user) : m = machineOf v.tg := by
  refine FiberMachine.eq_of_unparked h.same ?_
  obtain ⟨_ | tg, frame, cpu⟩ := v
  · funext k
    have hnone : m.strand k = none := by
      have hs := h.isSome_strand k
      rwa [show (machineOf none).strand k = none from rfl, Option.isSome_none,
        Option.isSome_eq_false_iff, Option.isNone_iff_eq_none] at hs
    rw [FiberMachine.parkedAt, hnone]
    rfl
  · have hi := hi.grouped tg rfl
    have hex := hi.exclusion (hset tg rfl) fun pid => by rw [huser pid]; rfl
    have hsaves : ∀ q k, (frame q).saves ≠ some k := by
      intro q k hq
      rw [show frame q = .user from huser q] at hq
      cases hq
    funext k
    have hs := h.isSome_strand k
    rw [strand_machineOf, Option.isSome_map] at hs
    cases hk : getFiber k tg with
    | none =>
      rw [hk, Option.isSome_none, Option.isSome_eq_false_iff, Option.isNone_iff_eq_none] at hs
      simp [FiberMachine.parkedAt, hs, hk]
    | some f =>
      rw [hk] at hs
      obtain ⟨st, hst⟩ := Option.isSome_iff_exists.mp hs
      -- a thread is on a fiber when and only when it is locked
      have hon : (∃ p, m.on p = some k) ↔ f.flock = true := by
        constructor
        · rintro ⟨p, hp⟩
          rw [h.on_eq, on_machineOf] at hp
          obtain ⟨t, ht, rfl⟩ := Option.map_eq_some_iff.mp hp
          obtain ⟨f', hf', hl, -⟩ := hex.idle p t (huser p) ht
          obtain rfl : f = f' := Option.some.inj (hk.symm.trans hf')
          exact hl
        · intro hl
          obtain ⟨p, hp, -⟩ := hex.one_holder k f hk hl
          rw [Holds, huser p] at hp
          obtain ⟨t, ht, hc⟩ : tg.CurrentIs p k := by simpa [Frame.enters, Frame.leaves] using hp
          exact ⟨p, by simp [h.on_eq, ht, hc]⟩
      cases hp : st.parked with
      | none =>
        have hl := hon.mp ((h.consistent.running_iff k).mpr ⟨st, hst, hp⟩)
        simp [FiberMachine.parkedAt, hst, hp, hk, Fiber.strand, hl]
      | some c =>
        have hl : f.flock = false := by
          rw [Bool.eq_false_iff]
          intro hl
          obtain ⟨st', hst', hrun⟩ := (h.consistent.running_iff k).mp (hon.mpr hl)
          obtain rfl : st = st' := Option.some.inj (hst.symm.trans hst')
          cases hp.symm.trans hrun
        have hparked : m.parkedAt k = some c := by simp [FiberMachine.parkedAt, hst, hp]
        have hctx := h.images.saved k c hparked (fun q => hsaves q k)
        have hctx : f.context = c := by
          simpa [GroupView.context, ThreadGroup.context, hk] using hctx
        rw [hparked]
        simp [FiberMachine.parkedAt, hk, Fiber.strand, hl, hctx]

end Fibers
