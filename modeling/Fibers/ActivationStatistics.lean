import Fibers.FailedCalls
import Fibers.Lib.Tally

/-!
# Activation statistics

`successful_activations` is incremented by a read and a later write, which other threads
interleave with; only the lock of the fiber keeps two increments apart. `failed_activations`
is incremented atomically, without the lock. A group, the positions of its threads and the
numbers of activations and departures in the history are seen as a state of `Tally`, and
every step of a run in which only switches are taken apart is then a step of it or leaves it
as it is.

## Main results

- `ViewStep.tally` — what a step does to the counters, in the terms of `Tally`
- `activation_statistics` — the counters of a fiber while no switch is in progress
-/

namespace Fibers

/-! ## Activations, refusals and departures in a history -/

/-- The result of the call that ends with the step, if one does. -/
def resultOf (e : Entry Cfg Action) : Option Ret := (step e.pre e.act).bind Prod.snd

/-- The action ends a convert or a switch that has activated the fiber. -/
def Action.activates (tgid fid : ℤ) (last : Task → Option Call) (r : Option Ret) : Action → Prop
  | .convert t _ => t.tgid = tgid ∧ r = some (.ok fid)
  | .tick t => t.tgid = tgid ∧ last t = some (.switch fid) ∧ r = some (.ok 0)
  | _ => False

/-- The action ends a switch that names the fiber, with `-EAGAIN`. -/
def Action.refuses (tgid fid : ℤ) (last : Task → Option Call) (r : Option Ret) : Action → Prop
  | .tick t => t.tgid = tgid ∧ last t = some (.switch fid) ∧ r = some (.error .EAGAIN)
  | _ => False

/-- The action takes a thread off the fiber. -/
def Action.departs (tgid fid : ℤ) (before after : Task → Option ℤ) : Action → Prop
  | .tick t => t.tgid = tgid ∧ before t = some fid ∧ after t ≠ some fid
  | _ => False

section Decidable

variable {tgid fid : ℤ} {last : Task → Option Call} {r : Option Ret} {before after : Task → Option ℤ}

instance : (a : Action) → Decidable (a.activates tgid fid last r)
  | .convert _ _ => inferInstanceAs (Decidable (_ ∧ _))
  | .tick _ => inferInstanceAs (Decidable (_ ∧ _))
  | .user _ _ | .call _ _ | .create _ _ _ | .cleanup _ => isFalse id

instance : (a : Action) → Decidable (a.refuses tgid fid last r)
  | .tick _ => inferInstanceAs (Decidable (_ ∧ _))
  | .user _ _ | .call _ _ | .convert _ _ | .create _ _ _ | .cleanup _ => isFalse id

instance : (a : Action) → Decidable (a.departs tgid fid before after)
  | .tick _ => inferInstanceAs (Decidable (_ ∧ _))
  | .user _ _ | .call _ _ | .convert _ _ | .create _ _ _ | .cleanup _ => isFalse id

end Decidable

/-- The successful converts and switches that activated the fiber. -/
def activationCount (tgid fid : ℤ) : History → ℕ :=
  countEntries fun past e => e.act.activates tgid fid (fun t => lastCall t past) (resultOf e)

/-- The switches that named the fiber and returned `-EAGAIN`. -/
def refusalCount (tgid fid : ℤ) : History → ℕ :=
  countEntries fun past e => e.act.refuses tgid fid (fun t => lastCall t past) (resultOf e)

/-- How often the fiber was switched out. -/
def departureCount (tgid fid : ℤ) : History → ℕ :=
  countEntries fun _ e => e.act.departs tgid fid e.pre.currentFid e.post.currentFid

/-! ## The group as a state of `Tally` -/

/-- How far a frame is with the activation of its fiber. -/
def Frame.stage : Frame → Tally.Stage ℤ Word
  | .activateWrite _ f n => .read f n
  | .activateTime _ f => .written f
  | .activateCurrent _ f => .written f
  | .saveRegs _ f => .entered f
  | .saveFpu _ f => .entered f
  | .account _ f => .entered f
  | .clearState _ f => .entered f
  | .unlock _ f => .entered f
  | .loadRegs f => .entered f
  | .loadFpu f => .entered f
  | _ => .resting

/-- The fiber that a switch was called with. -/
def Frame.target : Frame → Option ℤ
  | .switchThread f => some f
  | .switchTarget f => some f
  | .trylock _ f => some f
  | .check _ f => some f
  | .fail _ f => some f
  | .switchOld f => some f
  | .activateState _ f => some f
  | .activateRead _ f => some f
  | .activateWrite _ f _ => some f
  | .activateTime _ f => some f
  | .activateCurrent _ f => some f
  | .saveRegs _ f => some f
  | .saveFpu _ f => some f
  | .account _ f => some f
  | .clearState _ f => some f
  | .unlock _ f => some f
  | .loadRegs f => some f
  | .loadFpu f => some f
  | _ => none

/-- The threads inside a switch have called it with the targets of their frames. -/
def GroupView.Targets (v : GroupView) (tgid : ℤ) (last : Task → Option Call) : Prop :=
  ∀ pid f, (v.frame pid).target = some f → last ⟨tgid, pid⟩ = some (.switch f)

/-- A group, seen through its counters of activations, with numbers of activations and of
departures. -/
def GroupView.tally (v : GroupView) (finished left : ℤ → ℕ) : Tally.State ℤ ℤ Word where
  count := v.field 0 fun f => f.info.successfulActivations
  current := v.current
  stage := fun pid => (v.frame pid).stage
  finished := finished
  left := left

theorem stage_update (frame : ℤ → Frame) (pid : ℤ) (fr : Frame) :
    (fun q => (Function.update frame pid fr q).stage) =
      Function.update (fun q => (frame q).stage) pid fr.stage := by
  funext q
  by_cases hq : q = pid
  · subst hq
    simp
  · simp [hq]

theorem stage_update_of_same {frame : ℤ → Frame} {pid : ℤ} {fr : Frame}
    (h : fr.stage = (frame pid).stage) :
    (fun q => (Function.update frame pid fr q).stage) = fun q => (frame q).stage := by
  rw [stage_update, h]
  exact Function.update_eq_self pid fun q => (frame q).stage

theorem stage_of_awaitsGroup {fr : Frame} (h : fr.awaitsGroup = true) : fr.stage = .resting := by
  cases fr <;> first | rfl | cases h

/-- Between the read and the last write of an activation the fiber is marked. -/
theorem phase_of_stage {fr : Frame} {f : ℤ}
    (h : (∃ n, fr.stage = .read f n) ∨ fr.stage = .written f) : fr.phase = .marked f := by
  cases fr with
  | activateWrite _ k m =>
    simp only [Frame.stage, Tally.Stage.read.injEq, reduceCtorEq, or_false] at h
    obtain ⟨n, rfl, -⟩ := h
    rfl
  | activateTime _ k | activateCurrent _ k =>
    simp only [Frame.stage, reduceCtorEq, exists_false, Tally.Stage.written.injEq, false_or] at h
    subst h
    rfl
  | _ => simp [Frame.stage] at h

/-- The locks keep the activations of a fiber apart. -/
theorem ViewInv.exclusive {v : GroupView} (h : ViewInv v) (finished left : ℤ → ℕ) :
    Tally.Exclusive (v.tally finished left) := by
  cases hg : v.tg with
  | none =>
    have hstage : ∀ pid, (v.frame pid).stage = .resting := fun pid =>
      stage_of_awaitsGroup (h.groupless hg pid)
    have hcurrent : ∀ pid, v.current pid = none := fun pid => by rw [GroupView.current, hg]; rfl
    constructor
    · rintro p q f (hp | ⟨n, hp⟩ | hp) _
      · exact absurd hp (by simp [GroupView.tally, hcurrent])
      · exact absurd hp (by simp [GroupView.tally, hstage])
      · exact absurd hp (by simp [GroupView.tally, hstage])
    · intro p f hp
      exact absurd hp (by simp [GroupView.tally, hcurrent])
  | some tg =>
    have hlocks := (h.grouped tg hg).locks
    have hcurrent : v.current = tg.current := GroupView.current_of_some hg
    have hholds : ∀ p f, (v.tally finished left).Uses p f → (lockView tg v.frame).Holds p f := by
      rintro p f (hp | hp)
      · exact .inl ((congrFun hcurrent p).symm.trans hp)
      · exact .inr (.inr (.inl (phase_of_stage hp)))
    constructor
    · intro p q f hp hq
      exact hlocks.holds_unique p q f (hholds p f hp) (hholds q f hq)
    · intro p f hp
      have hmarked := (hlocks.apart p f ((congrFun hcurrent p).symm.trans hp)).2.1
      refine ⟨fun n hs => hmarked (phase_of_stage (.inl ⟨n, hs⟩)), fun hs => ?_⟩
      exact hmarked (phase_of_stage (.inr hs))

/-! ## Every piece is a step of the tally -/

/-- The frames whose piece is a step of a move. -/
def Frame.moves : Frame → Bool
  | .activateRead _ _ => true
  | .activateWrite _ _ _ => true
  | .activateCurrent _ _ => true
  | .loadFpu _ => true
  | _ => false

section Pieces

variable {tg : ThreadGroup} {pid : ℤ} {cpu : Cpu} {fr : Frame} {p : Piece}

theorem piece_stage (hp : piece tg pid cpu fr = some p) (hf : fr.switching = true)
    (hm : fr.moves = false) : p.frame.stage = fr.stage := by
  cases piece_step hp with
  | convertAgain _ | convertThread _ | convertFiber _ | createUnknown _ | createLookup _
  | createFiber _ | createStack _ | createContext _ => cases hf
  | activateRead _ | activateWrite _ | converted _ | activateCurrent _ | loadFpu _ => cases hm
  | _ => rfl

/-- A switch keeps its target to the end. -/
theorem piece_target (hp : piece tg pid cpu fr = some p) (hf : fr.switching = true) :
    p.frame.target = none ∨ p.frame.target = fr.target := by
  cases piece_step hp with
  | convertAgain _ | convertThread _ | convertFiber _ | createUnknown _ | createLookup _
  | createFiber _ | createStack _ | createContext _ => cases hf
  | switchUnknown _ | noTarget _ | nowhere _ _ | converted _ | fail _ | loadFpu _ => exact .inl rfl
  | _ => exact .inr rfl

/-- Only the last piece of a switch returns 0. -/
theorem frame_of_success (hp : piece tg pid cpu fr = some p) (hf : fr.switching = true)
    (hr : p.result = some (.ok 0)) : ∃ k, fr = .loadFpu k := by
  generalize hv : (Except.ok 0 : Ret) = r at hr
  cases piece_returns hp hr with
  | switched => exact ⟨_, rfl⟩
  | created | converted => cases hf
  | convertAgain | createUnknown | switchUnknown | noTarget | refused | nowhere => cases hv

/-- Only the piece that counts a failure returns `-EAGAIN`. -/
theorem frame_of_refusal (hp : piece tg pid cpu fr = some p)
    (hr : p.result = some (.error .EAGAIN)) : ∃ c k, fr = .fail c k := by
  generalize hv : (Except.error Errno.EAGAIN : Ret) = r at hr
  cases piece_returns hp hr with
  | refused => exact ⟨_, _, rfl⟩
  | _ => cases hv

end Pieces

section Steps

variable {tgid pid : ℤ} {v v' : GroupView} {last : Task → Option Call} {finished left : ℤ → ℕ}

/-- The numbers of activations after an action. -/
def finishedAfter (tgid : ℤ) (last : Task → Option Call) (a : Action) (r : Option Ret)
    (finished : ℤ → ℕ) : ℤ → ℕ :=
  Tally.bump finished fun fid => a.activates tgid fid last r

/-- The numbers of departures after an action. -/
def leftAfter (tgid : ℤ) (a : Action) (v v' : GroupView) (left : ℤ → ℕ) : ℤ → ℕ :=
  Tally.bump left fun fid =>
    a.departs tgid fid (fun t => v.current t.pid) (fun t => v'.current t.pid)

theorem finishedAfter_of_none {a : Action} {r : Option Ret}
    (h : ∀ fid, ¬ a.activates tgid fid last r) : finishedAfter tgid last a r finished = finished :=
  Tally.bump_of_none finished h

theorem leftAfter_of_current {a : Action} (hc : v'.current = v.current) :
    leftAfter tgid a v v' left = left := by
  refine Tally.bump_of_none left fun fid h => ?_
  cases a with
  | tick t => exact h.2.2 ((congrFun hc t.pid).trans h.2.1)
  | _ => exact h

theorem leftAfter_of_not_tick {a : Action} (ha : ∀ t, a ≠ .tick t) :
    leftAfter tgid a v v' left = left := by
  refine Tally.bump_of_none left fun fid h => ?_
  cases a with
  | tick t => exact ha t rfl
  | _ => exact h

/-- A tally from its parts. -/
theorem tally_eq {count : ℤ → Word} {current : ℤ → Option ℤ} {stage : ℤ → Tally.Stage ℤ Word}
    (hcount : (v.field 0 fun f => f.info.successfulActivations) = count)
    (hcurrent : v.current = current) (hstage : (fun pid => (v.frame pid).stage) = stage) :
    v.tally finished left = ⟨count, current, stage, finished, left⟩ :=
  Tally.State.ext hcount hcurrent hstage rfl rfl

variable {tg : ThreadGroup} {p : Piece}

theorem current_of_threads (hg : v.tg = some tg) (hg' : v'.tg = some p.tg)
    (ht : p.tg.threads = tg.threads) : v'.current = v.current := by
  rw [GroupView.current_of_some hg, GroupView.current_of_some hg']
  funext q
  simp only [ThreadGroup.current, getThread, ht]

theorem stage_of_frame (hframe : v'.frame = Function.update v.frame pid p.frame) :
    (fun q => (v'.frame q).stage) = Function.update (fun q => (v.frame q).stage) pid p.frame.stage := by
  rw [hframe]
  exact stage_update v.frame pid p.frame

/-- A piece that is no step of a move leaves the counters and the stages as they are. -/
theorem tally_still (hg : v.tg = some tg) (h : GroupInv tg v.frame)
    (hp : piece tg pid (v.cpu pid) (v.frame pid) = some p) (hf : (v.frame pid).switching = true)
    (hm : (v.frame pid).moves = false) (few : p.tg.fibers.size < 2 ^ 31) (hg' : v'.tg = some p.tg)
    (ht : p.tg.threads = tg.threads)
    (hframe : v'.frame = Function.update v.frame pid p.frame) :
    v'.tally finished left = v.tally finished left := by
  have hfree := h.numbered.getFiber_nextFid (lt_of_le_of_lt (piece_effect hp).size_le few)
  refine tally_eq ?_ (current_of_threads hg hg' ht) ?_
  · rw [GroupView.field_of_some hg, GroupView.field_of_some hg']
    refine piece_field hp hfree (fun _ => rfl) fun f => ?_
    generalize v.frame pid = fr at hm
    cases fr <;> first | rfl | cases hm
  · rw [stage_of_frame hframe, piece_stage hp hf hm]
    exact Function.update_eq_self pid fun q => (v.frame q).stage

/-- The read of `successful_activations++`. -/
theorem tally_activateRead {old : Option ℤ} {k : ℤ} (hg : v.tg = some tg)
    (hfr : v.frame pid = .activateRead old k)
    (hp : piece tg pid (v.cpu pid) (.activateRead old k) = some p) (hg' : v'.tg = some p.tg)
    (hframe : v'.frame = Function.update v.frame pid p.frame) :
    Tally.Step (v.tally finished left) (v'.tally finished left) := by
  obtain ⟨f, hf, rfl⟩ := Option.map_eq_some_iff.mp hp
  have hread : (v.field 0 fun f => f.info.successfulActivations) k =
      f.info.successfulActivations := by
    rw [GroupView.field_of_some hg]
    exact field_of_getFiber hf
  have hend : v'.tally finished left = (v.tally finished left).readCount pid k := by
    refine tally_eq ?_ (current_of_threads hg hg' rfl) ?_
    · exact (GroupView.field_of_some hg').trans (GroupView.field_of_some hg).symm
    · rw [stage_of_frame hframe, ← hread]
      rfl
  rw [hend]
  exact .read (by simp [GroupView.tally, hfr, Frame.stage])

/-- The write of `successful_activations++`. -/
theorem tally_activateWrite {old : Option ℤ} {k : ℤ} {n : Word} (hg : v.tg = some tg)
    (hfr : v.frame pid = .activateWrite old k n)
    (hp : piece tg pid (v.cpu pid) (.activateWrite old k n) = some p) (hg' : v'.tg = some p.tg)
    (hframe : v'.frame = Function.update v.frame pid p.frame) :
    Tally.Step (v.tally finished left) (v'.tally finished left) := by
  obtain ⟨f, hf, rfl⟩ := Option.map_eq_some_iff.mp hp
  have hend : v'.tally finished left = (v.tally finished left).writeCount pid k n := by
    refine tally_eq ?_ (current_of_threads hg hg' rfl) (stage_of_frame hframe)
    show _ = Function.update (v.field 0 fun f => f.info.successfulActivations) k (n + 1)
    rw [GroupView.field_of_some hg, GroupView.field_of_some hg']
    exact field_onFiber hf
  rw [hend]
  exact .write (by simp [GroupView.tally, hfr, Frame.stage])

/-- The thread leaves its old fiber for the new one. -/
theorem tally_activateCurrent {o k : ℤ} (hg : v.tg = some tg) (h : GroupInv tg v.frame)
    (hfr : v.frame pid = .activateCurrent (some o) k)
    (hp : piece tg pid (v.cpu pid) (.activateCurrent (some o) k) = some p) (hg' : v'.tg = some p.tg)
    (hframe : v'.frame = Function.update v.frame pid p.frame) :
    Tally.Step (v.tally finished left)
      (v'.tally finished (leftAfter tgid (.tick ⟨tgid, pid⟩) v v' left)) := by
  have hok := h.frames pid
  rw [hfr] at hok
  obtain ⟨t, ht, rfl⟩ := Option.map_eq_some_iff.mp hp
  have ho : tg.current pid = some o := hok.2.2.current_eq (h.fid_ne_noFibers hok.2.1)
  have hcurrent : v.current = tg.current := GroupView.current_of_some hg
  have hk : v'.current = Function.update v.current pid (some k) := by
    rw [hcurrent, GroupView.current_of_some hg']
    exact current_onThread_setCurrent (by simp [ht]) (h.fid_ne_noFibers hok.1)
  have hne : k ≠ o := by
    rintro rfl
    exact (h.locks.apart pid k ho).2.1 (by simp [lockView, hfr, Frame.phase])
  have hleft : leftAfter tgid (.tick ⟨tgid, pid⟩) v v' left =
      Function.update left o (left o + 1) := by
    refine Tally.bump_of_iff left fun fid => ?_
    constructor
    · rintro ⟨-, hbefore, -⟩
      have hbefore : v.current pid = some fid := hbefore
      rw [hcurrent, ho] at hbefore
      exact (Option.some.inj hbefore).symm
    · rintro rfl
      refine ⟨rfl, (congrFun hcurrent pid).trans ho, ?_⟩
      show v'.current pid ≠ _
      rw [hk, Function.update_self]
      simpa using hne
  have hend : v'.tally finished (Function.update left o (left o + 1)) =
      (v.tally finished left).enter pid o k :=
    tally_eq ((GroupView.field_of_some hg').trans (GroupView.field_of_some hg).symm) hk
      (stage_of_frame hframe)
  rw [hleft, hend]
  exact .enter (by simp [GroupView.tally, hfr, Frame.stage]) ((congrFun hcurrent pid).trans ho)

/-- The switch returns. -/
theorem tally_loadFpu {k : ℤ} (hg : v.tg = some tg) (hfr : v.frame pid = .loadFpu k)
    (hp : piece tg pid (v.cpu pid) (.loadFpu k) = some p)
    (hlast : last ⟨tgid, pid⟩ = some (.switch k)) (hg' : v'.tg = some p.tg)
    (hframe : v'.frame = Function.update v.frame pid p.frame) :
    Tally.Step (v.tally finished left)
      (v'.tally (finishedAfter tgid last (.tick ⟨tgid, pid⟩) p.result finished) left) := by
  obtain ⟨f, hf, rfl⟩ := Option.map_eq_some_iff.mp hp
  have hfinished : finishedAfter tgid last (.tick ⟨tgid, pid⟩) (some (.ok 0)) finished =
      Function.update finished k (finished k + 1) := by
    refine Tally.bump_of_iff finished fun fid => ?_
    constructor
    · rintro ⟨-, hfid, -⟩
      rw [hlast] at hfid
      cases hfid
      rfl
    · rintro rfl
      exact ⟨rfl, hlast, rfl⟩
  have hend : v'.tally (Function.update finished k (finished k + 1)) left =
      (v.tally finished left).finish pid k :=
    tally_eq ((GroupView.field_of_some hg').trans (GroupView.field_of_some hg).symm)
      (current_of_threads hg hg' rfl) (stage_of_frame hframe)
  simp only [Piece.ret]
  rw [hfinished, hend]
  exact .finish (by simp [GroupView.tally, hfr, Frame.stage])

/-- A piece of a switch is a step of the tally, or leaves it as it is. -/
theorem piece_tally (hg : v.tg = some tg) (h : GroupInv tg v.frame)
    (hp : piece tg pid (v.cpu pid) (v.frame pid) = some p) (hf : (v.frame pid).switching = true)
    (hlast : ∀ f, (v.frame pid).target = some f → last ⟨tgid, pid⟩ = some (.switch f))
    (few : p.tg.fibers.size < 2 ^ 31) (hg' : v'.tg = some p.tg)
    (hframe : v'.frame = Function.update v.frame pid p.frame) :
    v'.tally (finishedAfter tgid last (.tick ⟨tgid, pid⟩) p.result finished)
        (leftAfter tgid (.tick ⟨tgid, pid⟩) v v' left) = v.tally finished left ∨
      Tally.Step (v.tally finished left)
        (v'.tally (finishedAfter tgid last (.tick ⟨tgid, pid⟩) p.result finished)
          (leftAfter tgid (.tick ⟨tgid, pid⟩) v v' left)) := by
  have hthreads := piece_threads hp fun he => by rw [he] at hf; cases hf
  -- only the end of a switch is counted as an activation
  have hfinished : (∀ k, v.frame pid ≠ .loadFpu k) →
      finishedAfter tgid last (.tick ⟨tgid, pid⟩) p.result finished = finished := by
    intro hne
    refine finishedAfter_of_none fun _ ha => ?_
    obtain ⟨k, he⟩ := frame_of_success hp hf ha.2.2
    exact hne k he
  have hleft : (∀ old k, v.frame pid ≠ .activateCurrent old k) →
      leftAfter tgid (.tick ⟨tgid, pid⟩) v v' left = left := fun hne =>
    leftAfter_of_current (current_of_threads hg hg' (hthreads hne))
  cases hm : (v.frame pid).moves with
  | false =>
    have hcurrent : ∀ old k, v.frame pid ≠ .activateCurrent old k := by
      intro old k he
      rw [he] at hm
      cases hm
    rw [hleft hcurrent, hfinished fun k he => by rw [he] at hm; cases hm]
    exact .inl (tally_still hg h hp hf hm few hg' (hthreads hcurrent) hframe)
  | true =>
    right
    cases hfr : v.frame pid with
    | activateRead old k =>
      rw [hleft (by simp [hfr]), hfinished (by simp [hfr])]
      exact tally_activateRead hg hfr (hfr ▸ hp) hg' hframe
    | activateWrite old k n =>
      rw [hleft (by simp [hfr]), hfinished (by simp [hfr])]
      exact tally_activateWrite hg hfr (hfr ▸ hp) hg' hframe
    | activateCurrent old k =>
      rw [hfinished (by simp [hfr])]
      cases old with
      | none =>
        rw [hfr] at hf
        cases hf
      | some o => exact tally_activateCurrent hg h hfr (hfr ▸ hp) hg' hframe
    | loadFpu k =>
      rw [hleft (by simp [hfr])]
      exact tally_loadFpu hg hfr (hfr ▸ hp) (hlast k (by rw [hfr]; rfl)) hg' hframe
    | _ => simp [hfr, Frame.moves] at hm

/-- A convert is a move from nowhere to its new fiber. -/
theorem tally_convert {k : Kmalloc} (hi : ViewInv v) (hu : v.frame pid = .user)
    (ho : v.Offers tgid tg) (ht : getThread pid tg = none) (few : tg.fibers.size < 2 ^ 31)
    (hg' : v'.tg = some (converted tg pid (v.cpu pid))) (hframe : v'.frame = v.frame) :
    Tally.Step (v.tally finished left)
      (v'.tally (finishedAfter tgid last (.convert ⟨tgid, pid⟩ k) (some (.ok (nextFid tg))) finished)
        left) := by
  have h := hi.of_offers ho
  have hfree := h.numbered.getFiber_nextFid few
  have hfid := h.numbered.nextFid_ne_noFibers few
  have hfinished : finishedAfter tgid last (.convert ⟨tgid, pid⟩ k) (some (.ok (nextFid tg)))
      finished = Function.update finished (nextFid tg) (finished (nextFid tg) + 1) := by
    refine Tally.bump_of_iff finished fun fid => ?_
    constructor
    · rintro ⟨-, hfid⟩
      exact (Except.ok.inj (Option.some.inj hfid)).symm
    · rintro rfl
      exact ⟨rfl, rfl⟩
  have hzero : (tg.field 0 fun f => f.info.successfulActivations) (nextFid tg) = (0 : Word) := by
    rw [ThreadGroup.field, hfree]
    rfl
  have hend : v'.tally (Function.update finished (nextFid tg) (finished (nextFid tg) + 1)) left =
      (v.tally finished left).appear pid (nextFid tg) := by
    refine tally_eq ?_ ?_ (by rw [hframe]; rfl)
    · show _ = Function.update (v.field 0 fun f => f.info.successfulActivations) (nextFid tg)
        ((v.field 0 fun f => f.info.successfulActivations) (nextFid tg) + 1)
      rw [GroupView.field_of_some hg', field_converted, ← ho.field, hzero]
      rfl
    · show _ = Function.update v.current pid (some (nextFid tg))
      rw [GroupView.current_of_some hg', current_converted hfid, ho.current]
  rw [hfinished, hend]
  refine .appear (by simp [GroupView.tally, hu, Frame.stage]) ?_ ?_
  · show v.current pid = none
    rw [← ho.current, ThreadGroup.current, ht]
    rfl
  · -- whoever uses a fiber holds its lock, and the new one does not exist yet
    intro q hq
    have hholds : (lockView tg v.frame).Holds q (nextFid tg) := by
      rcases hq with hq | hq
      · exact .inl ((congrFun ho.current q).trans hq)
      · exact .inr (.inr (.inl (phase_of_stage hq)))
    have hex := GroupInv.hasFiber_of_locked (h.locks.locked_of_holds q _ hholds)
    rw [ThreadGroup.HasFiber, hfree] at hex
    cases hex

/-- An action that is no activation and moves no thread. -/
theorem tally_unchanged {a : Action} {r : Option Ret}
    (hact : ∀ fid, ¬ a.activates tgid fid last r)
    (hcount : (v'.field 0 fun f => f.info.successfulActivations) =
      v.field 0 fun f => f.info.successfulActivations)
    (hcurrent : v'.current = v.current)
    (hstage : (fun pid => (v'.frame pid).stage) = fun pid => (v.frame pid).stage) :
    v'.tally (finishedAfter tgid last a r finished) (leftAfter tgid a v v' left) =
      v.tally finished left := by
  rw [finishedAfter_of_none hact, leftAfter_of_current hcurrent]
  exact tally_eq hcount hcurrent hstage

/-- Every step of a run in which only switches are taken apart is a step of the tally, or leaves
it as it is. -/
theorem ViewStep.tally {a : Action} {r : Option Ret} (hs : ViewStep tgid v a r v')
    (ha : a.switchesApart) (hi : ViewInv v) (hf : ∀ pid, (v.frame pid).switching = true)
    (hlast : v.Targets tgid last)
    (few : ∀ tg, v'.tg = some tg → tg.fibers.size < 2 ^ 31) :
    v'.tally (finishedAfter tgid last a r finished) (leftAfter tgid a v v' left) =
        v.tally finished left ∨
      Tally.Step (v.tally finished left)
        (v'.tally (finishedAfter tgid last a r finished) (leftAfter tgid a v v' left)) := by
  cases hs with
  | elsewhere hne =>
    refine .inl (tally_unchanged (fun fid h => ?_) rfl rfl rfl)
    cases a with
    | convert t => exact hne h.1
    | tick t => exact hne h.1
    | _ => exact h
  | user _ => exact .inl (tally_unchanged (fun _ h => h) rfl rfl rfl)
  | @call pid c hu =>
    refine .inl (tally_unchanged (fun _ h => h) rfl rfl (stage_update_of_same ?_))
    rw [hu, stage_of_awaitsGroup (awaitsGroup_entry c)]
    rfl
  | @plock pid _ hfr _ =>
    have := hf pid
    rw [hfr] at this
    cases this
  | noGroup hg hl =>
    refine .inl (tally_unchanged (fun _ h => by cases h.2.2) rfl rfl (stage_update_of_same ?_))
    exact (stage_of_awaitsGroup (awaitsGroup_of_looksUpGroup hl)).symm
  | @piece pid tg p hg hp =>
    exact piece_tally hg (hi.grouped tg hg) hp (hf pid) (hlast pid) (few _ rfl) rfl rfl
  | convertAgain _ ho _ =>
    refine .inl (tally_unchanged (fun _ h => by cases h.2) ?_ ?_ rfl)
    · exact (GroupView.field_of_some rfl).trans ho.field
    · exact (GroupView.current_of_some rfl).trans ho.current
  | convert hu ho ht =>
    rw [leftAfter_of_not_tick (by simp)]
    have few := few _ rfl
    rw [size_converted] at few
    exact .inr (tally_convert hi hu ho ht (by omega) rfl rfl)
  | createUnknown _ => exact .inl (tally_unchanged (fun _ h => h) rfl rfl rfl)
  | @create _ _ _ tg _ _ hg _ =>
    have few := few _ rfl
    rw [size_created] at few
    have hfree := (hi.grouped tg hg).numbered.getFiber_nextFid (by omega)
    refine .inl (tally_unchanged (fun _ h => h) ?_ ?_ rfl)
    · rw [GroupView.field_of_some rfl, GroupView.field_of_some hg]
      exact field_created_of_default hfree rfl
    · rw [GroupView.current_of_some hg]
      rfl
  | cleanup _ => exact absurd ha (by simp [Action.switchesApart])

/-! ## Refusals -/

/-- The counters of failed activations. -/
def GroupView.failures (v : GroupView) : ℤ → ℤ := v.field 0 fun f => f.info.failedActivations

/-- The numbers of refusals after an action. -/
def refusedAfter (tgid : ℤ) (last : Task → Option Call) (a : Action) (r : Option Ret)
    (refused : ℤ → ℕ) : ℤ → ℕ :=
  Tally.bump refused fun fid => a.refuses tgid fid last r

variable {refused : ℤ → ℕ}

theorem failures_unchanged {a : Action} {r : Option Ret}
    (h : v.failures = fun fid => wrap32 (refused fid))
    (hact : ∀ fid, ¬ a.refuses tgid fid last r) (hv : v'.failures = v.failures) :
    v'.failures = fun fid => wrap32 (refusedAfter tgid last a r refused fid) := by
  rw [hv, h, refusedAfter, Tally.bump_of_none refused hact]

/-- The piece that refuses a switch counts it, at the fiber that the switch named. -/
theorem failures_fail {k : ℤ} {c : Caller} (hg : v.tg = some tg)
    (h : v.failures = fun fid => wrap32 (refused fid))
    (hp : piece tg pid (v.cpu pid) (.fail c k) = some p)
    (hlast : last ⟨tgid, pid⟩ = some (.switch k)) (hg' : v'.tg = some p.tg) :
    v'.failures = fun fid =>
      wrap32 (refusedAfter tgid last (.tick ⟨tgid, pid⟩) p.result refused fid) := by
  obtain ⟨f, hf, rfl⟩ := Option.map_eq_some_iff.mp hp
  have hrefused : refusedAfter tgid last (.tick ⟨tgid, pid⟩) (some (.error .EAGAIN)) refused =
      Function.update refused k (refused k + 1) := by
    refine Tally.bump_of_iff refused fun fid => ?_
    constructor
    · rintro ⟨-, hfid, -⟩
      rw [hlast] at hfid
      cases hfid
      rfl
    · rintro rfl
      exact ⟨rfl, hlast, rfl⟩
  have hold : f.info.failedActivations = wrap32 (refused k) := by
    have hk := congrFun h k
    rw [GroupView.failures, GroupView.field_of_some hg, field_of_getFiber hf] at hk
    exact hk
  simp only [Piece.ret]
  rw [hrefused, GroupView.failures, GroupView.field_of_some hg']
  simp only [Piece.ret]
  rw [field_onFiber hf, ← GroupView.field_of_some hg]
  funext fid
  by_cases hfid : fid = k
  · subst hfid
    rw [Function.update_self, Function.update_self]
    show wrap32 (f.info.failedActivations + 1) = _
    rw [hold, wrap32_succ]
    rfl
  · rw [Function.update_of_ne hfid, Function.update_of_ne hfid]
    exact congrFun h fid

theorem piece_failures (hg : v.tg = some tg) (hi : GroupInv tg v.frame)
    (h : v.failures = fun fid => wrap32 (refused fid))
    (hp : piece tg pid (v.cpu pid) (v.frame pid) = some p)
    (hlast : ∀ f, (v.frame pid).target = some f → last ⟨tgid, pid⟩ = some (.switch f))
    (few : p.tg.fibers.size < 2 ^ 31) (hg' : v'.tg = some p.tg) :
    v'.failures = fun fid =>
      wrap32 (refusedAfter tgid last (.tick ⟨tgid, pid⟩) p.result refused fid) := by
  by_cases hfail : ∃ c k, v.frame pid = .fail c k
  · obtain ⟨c, k, hfr⟩ := hfail
    exact failures_fail hg h (hfr ▸ hp) (hlast k (by rw [hfr]; rfl)) hg'
  · refine failures_unchanged h (fun fid ha => hfail (frame_of_refusal hp ha.2.2)) ?_
    have hfree := hi.numbered.getFiber_nextFid (lt_of_le_of_lt (piece_effect hp).size_le few)
    rw [GroupView.failures, GroupView.failures, GroupView.field_of_some hg,
      GroupView.field_of_some hg']
    refine piece_field hp hfree (fun _ => rfl) fun f => ?_
    generalize v.frame pid = fr at hfail
    cases fr with
    | fail c k => exact absurd ⟨c, k, rfl⟩ hfail
    | _ => rfl

/-- Every step of a run in which only switches are taken apart counts its refusal, if it is
one. -/
theorem ViewStep.failures {a : Action} {r : Option Ret} (hs : ViewStep tgid v a r v')
    (ha : a.switchesApart) (hi : ViewInv v)
    (hlast : v.Targets tgid last)
    (few : ∀ tg, v'.tg = some tg → tg.fibers.size < 2 ^ 31)
    (h : v.failures = fun fid => wrap32 (refused fid)) :
    v'.failures = fun fid => wrap32 (refusedAfter tgid last a r refused fid) := by
  cases hs with
  | elsewhere hne =>
    refine failures_unchanged h (fun fid hr => ?_) rfl
    cases a with
    | tick t => exact hne hr.1
    | _ => exact hr
  | user _ | call _ | createUnknown _ => exact failures_unchanged h (fun _ hr => hr) rfl
  | noGroup _ _ => exact failures_unchanged h (fun _ hr => by cases hr.2.2) rfl
  | plock _ ho =>
    refine failures_unchanged h (fun _ hr => by cases hr.2.2) ?_
    exact (GroupView.field_of_some rfl).trans ho.field
  | @piece pid tg p hg hp =>
    exact piece_failures hg (hi.grouped tg hg) h hp (hlast pid) (few _ rfl) rfl
  | convertAgain _ ho _ =>
    refine failures_unchanged h (fun _ hr => hr) ?_
    exact (GroupView.field_of_some rfl).trans ho.field
  | @convert _ _ tg _ ho ht =>
    have few := few _ rfl
    rw [size_converted] at few
    have hfree := (hi.of_offers ho).numbered.getFiber_nextFid (by omega)
    refine failures_unchanged h (fun _ hr => hr) ?_
    rw [GroupView.failures, GroupView.failures, GroupView.field_of_some rfl, ← ho.field]
    exact field_converted_of_default hfree rfl
  | @create _ _ _ tg _ _ hg _ =>
    have few := few _ rfl
    rw [size_created] at few
    have hfree := (hi.grouped tg hg).numbered.getFiber_nextFid (by omega)
    refine failures_unchanged h (fun _ hr => hr) ?_
    rw [GroupView.failures, GroupView.failures, GroupView.field_of_some rfl,
      GroupView.field_of_some hg]
    exact field_created_of_default hfree rfl
  | cleanup _ => exact absurd ha (by simp [Action.switchesApart])

end Steps

/-! ## The whole run -/

theorem ViewStep.targets {tgid : ℤ} {v v' : GroupView} {a : Action} {r : Option Ret} {h : History}
    {s s' : Cfg} (hs : ViewStep tgid v a r v') (ha : a.switchesApart)
    (hf : ∀ pid, (v.frame pid).switching = true)
    (hlast : v.Targets tgid fun t => lastCall t h) :
    v'.Targets tgid fun t => lastCall t (⟨s, a, s'⟩ :: h) := by
  intro pid f ht
  -- a thread that has moved to a frame without a target, or has kept its own
  have hmoved : ∀ q fr, fr.target = none ∨ fr.target = (v.frame q).target →
      (Function.update v.frame q fr pid).target = some f →
      lastCall ⟨tgid, pid⟩ h = some (.switch f) := by
    intro q fr hfr ht
    by_cases hq : pid = q
    · subst hq
      rw [Function.update_self] at ht
      rcases hfr with hfr | hfr
      · rw [hfr] at ht
        cases ht
      · exact hlast pid f (hfr.symm.trans ht)
    · rw [Function.update_of_ne hq] at ht
      exact hlast pid f ht
  cases hs with
  | elsewhere hne =>
    have hold := hlast pid f ht
    cases a with
    | call t c =>
      have ht : t ≠ ⟨tgid, pid⟩ := by
        rintro rfl
        exact hne rfl
      exact (if_neg ht).trans hold
    | _ => exact hold
  | user _ | convertAgain _ _ _ | convert _ _ _ | createUnknown _ | create _ _ _ =>
    exact hlast pid f ht
  | @call q c hu =>
    change (Function.update v.frame q c.entry pid).target = some f at ht
    by_cases hq : pid = q
    · subst hq
      rw [Function.update_self] at ht
      cases c with
      | switch next =>
        cases ht
        exact if_pos rfl
      | convert => exact absurd ha (by simp [Action.switchesApart])
      | create _ => exact absurd ha (by simp [Action.switchesApart])
    · rw [Function.update_of_ne hq] at ht
      exact (if_neg (by simpa using Ne.symm hq)).trans (hlast pid f ht)
  | @plock q _ hfr _ =>
    have := hf q
    rw [hfr] at this
    cases this
  | @noGroup q _ _ => exact hmoved q .user (.inl rfl) ht
  | @piece q tg p hg hp => exact hmoved q p.frame (piece_target hp (hf q)) ht
  | cleanup _ => exact absurd ha (by simp [Action.switchesApart])

/-- What the counters of a group and the positions of its threads have to do with the history. -/
structure Statistics (tgid : ℤ) (h : History) (v : GroupView) : Prop where
  switching : ∀ pid, (v.frame pid).switching = true
  targets : v.Targets tgid fun t => lastCall t h
  tally : Tally.Inv (v.tally (fun fid => activationCount tgid fid h)
    fun fid => departureCount tgid fid h)
  failures : v.failures = fun fid => wrap32 (refusalCount tgid fid h)

theorem statistics_of_run {hash : ℤ → Bucket} {cpu : Task → Cpu} {h : History} {s : Cfg}
    (hr : Run (Step Action.switchesApart) (Cfg.initial hash cpu) h s) (tgid : ℤ) :
    Statistics tgid h (s.view tgid) := by
  refine view_of_history (I := Statistics tgid) hr (fun cpu => ?_) ?_
  · refine ⟨fun _ => rfl, fun _ _ ht => (Option.some_ne_none _ ht.symm).elim, ?_, ?_⟩
    · exact Tally.Inv.initial (fun _ => rfl) (fun _ => rfl) (fun _ => rfl) (fun _ => rfl) fun _ => rfl
    · funext fid
      have hzero : wrap32 0 = 0 := wrap32_of_range (by decide) (by decide)
      exact hzero.symm
  · rintro h ⟨s, a, s'⟩ r ha hi ih few hfires hstep
    have hresult : resultOf ⟨s, a, s'⟩ = r := by
      rw [resultOf, hfires]
      rfl
    have hfinished : (fun fid => activationCount tgid fid (⟨s, a, s'⟩ :: h)) =
        finishedAfter tgid (fun t => lastCall t h) a r fun fid => activationCount tgid fid h := by
      funext fid
      simp only [activationCount, countEntries, finishedAfter, Tally.bump, hresult]
    have hrefused : (fun fid => refusalCount tgid fid (⟨s, a, s'⟩ :: h)) =
        refusedAfter tgid (fun t => lastCall t h) a r fun fid => refusalCount tgid fid h := by
      funext fid
      simp only [refusalCount, countEntries, refusedAfter, Tally.bump, hresult]
    have hleft : (fun fid => departureCount tgid fid (⟨s, a, s'⟩ :: h)) =
        leftAfter tgid a (s.view tgid) (s'.view tgid) fun fid => departureCount tgid fid h := by
      funext fid
      refine congrArg (departureCount tgid fid h + ·) (if_congr ?_ rfl rfl)
      cases a with
      | tick t =>
        refine and_congr_right ?_
        rintro rfl
        exact Iff.rfl
      | _ => exact Iff.rfl
    refine ⟨hstep.switching ha ih.switching, hstep.targets ha ih.switching ih.targets, ?_, ?_⟩
    · rw [hfinished, hleft]
      rcases hstep.tally ha hi ih.switching ih.targets few with he | hs
      · rw [he]
        exact ih.tally
      · exact hs.inv (hi.exclusive _ _) ih.tally
    · have hf := hstep.failures ha hi ih.targets few ih.failures
      rw [hf]
      funext fid
      rw [← congrFun hrefused fid]

theorem toNat_natCast {n : ℕ} (h : n < 2 ^ 64) : (n : Word).toNat = n := by
  show (BitVec.ofNat 64 n).toNat = n
  rw [BitVec.toNat_ofNat, Nat.mod_eq_of_lt h]

/-- The counters of a fiber while no thread of its process is in a switch: the activations and
the refusals of the run, none lost and none counted twice, and one activation more than
departures exactly while the fiber is running. -/
theorem activation_statistics {hash : ℤ → Bucket} {cpu : Task → Cpu} {h : History} {s : Cfg}
    (hr : Run (Step Action.switchesApart) (Cfg.initial hash cpu) h s) {tgid fid : ℤ}
    {tg : ThreadGroup} {f : Fiber} (hg : getGroup tgid s.groups = some tg)
    (hf : getFiber fid tg = some f) (idle : ∀ pid, s.frame ⟨tgid, pid⟩ = .user)
    (hact : activationCount tgid fid h < 2 ^ 64) (href : refusalCount tgid fid h < 2 ^ 31) :
    f.info.successfulActivations.toNat = activationCount tgid fid h ∧
    f.info.failedActivations = refusalCount tgid fid h ∧
    ((∃ pid, tg.CurrentIs pid fid) ↔
      f.info.successfulActivations.toNat = departureCount tgid fid h + 1) ∧
    (¬ (∃ pid, tg.CurrentIs pid fid) ↔
      f.info.successfulActivations.toNat = departureCount tgid fid h) := by
  have hstat := statistics_of_run hr tgid
  have hview : (s.view tgid).tg = some tg := hg
  have hresting : ∀ pid, ((s.view tgid).frame pid).stage = .resting := by
    intro pid
    show (s.frame ⟨tgid, pid⟩).stage = _
    rw [idle pid]
    rfl
  -- the counters are the numbers of the history
  have hcount : f.info.successfulActivations = (activationCount tgid fid h : ℕ) := by
    have hc := hstat.tally.count_eq hresting fid
    have hfield : (s.view tgid).field 0 (fun f => f.info.successfulActivations) fid =
        f.info.successfulActivations := by
      rw [GroupView.field_of_some hview]
      exact field_of_getFiber hf
    exact hfield.symm.trans hc
  have hnat : f.info.successfulActivations.toNat = activationCount tgid fid h := by
    rw [hcount]
    exact toNat_natCast hact
  have hfailed : f.info.failedActivations = refusalCount tgid fid h := by
    have hc := congrFun hstat.failures fid
    rw [GroupView.failures, GroupView.field_of_some hview, field_of_getFiber hf] at hc
    rw [hc]
    exact wrap32_of_range (by omega) (by omega)
  -- running in the sense of the tally
  have hn : fid ≠ noFibers := by
    have hgi := ((inv_of_run hr).views tgid).grouped tg hview
    exact hgi.fid_ne_noFibers (by simp [ThreadGroup.HasFiber, hf])
  have hrun : (∃ pid, tg.CurrentIs pid fid) ↔ ∃ pid, (s.view tgid).current pid = some fid := by
    rw [GroupView.current_of_some hview]
    exact exists_congr fun pid => (current_eq_some_iff hn).symm
  rw [hrun, hnat]
  exact ⟨rfl, hfailed, hstat.tally.occupied_iff hresting fid,
    hstat.tally.not_occupied_iff hresting fid⟩

/-- Thread 1 completes its switch to the fiber it has created, and thread 2 has been turned away
from it. -/
def contendedActivation : List Action := contendedSwitch ++ List.replicate 5 (.tick ⟨1, 1⟩)

/-- The check that the list executes as described. -/
def contendedCounts (h : History) (s : Cfg) : Bool :=
  ((getGroup 1 s.groups).bind (getFiber 2)).isSome && activationCount 1 2 h == 1 &&
    refusalCount 1 2 h == 1 && departureCount 1 0 h == 1 &&
    s.frame ⟨1, 1⟩ == .user && s.frame ⟨1, 2⟩ == .user

theorem activation_statistics_contended :
    ∃ h s tg f, execute [] (Cfg.initial (fun _ => 0) default) contendedActivation = some (h, s) ∧
      getGroup 1 s.groups = some tg ∧ getFiber 2 tg = some f ∧
      activationCount 1 2 h = 1 ∧ refusalCount 1 2 h = 1 ∧ departureCount 1 0 h = 1 ∧
      (f.info.successfulActivations.toNat = activationCount 1 2 h ∧
        f.info.failedActivations = refusalCount 1 2 h ∧
        ((∃ pid, tg.CurrentIs pid 2) ↔
          f.info.successfulActivations.toNat = departureCount 1 2 h + 1) ∧
        (¬ (∃ pid, tg.CurrentIs pid 2) ↔
          f.info.successfulActivations.toNat = departureCount 1 2 h)) := by
  obtain ⟨h, s, he, hc⟩ := exists_execute (Cfg.initial (fun _ => 0) default) contendedActivation
    contendedCounts (by decide +kernel)
  have hr : Run (Step Action.switchesApart) (Cfg.initial (fun _ => 0) default) h s := by
    refine run_of_execute_initial contendedActivation ?_ (by decide) he
    simp [contendedActivation, contendedSwitch, Action.switchesApart]
  simp only [contendedCounts, Bool.and_eq_true, beq_iff_eq, Option.isSome_iff_exists,
    Option.bind_eq_some_iff] at hc
  obtain ⟨⟨⟨⟨⟨⟨f, tg, hg, hf⟩, hact⟩, href⟩, hdep⟩, hone⟩, htwo⟩ := hc
  have idle : ∀ pid, s.frame ⟨1, pid⟩ = .user := by
    intro pid
    by_cases hpid : pid = 1 ∨ pid = 2
    · rcases hpid with rfl | rfl
      · exact hone
      · exact htwo
    · refine frame_of_execute hr he fun c hcall => hpid ?_
      have hcallers : pid = 1 ∧ c = .switch 2 ∨ pid = 2 ∧ c = .switch 2 := by
        simpa [contendedActivation, contendedSwitch] using hcall
      exact hcallers.imp And.left And.left
  exact ⟨h, s, tg, f, he, hg, hf, hact, href, hdep,
    activation_statistics hr hg hf idle (by rw [hact]; decide) (by rw [href]; decide)⟩

end Fibers
