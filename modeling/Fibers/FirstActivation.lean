import Fibers.Readiness

/-!
# The first activation of a fiber

A fiber is in the table before its stack and its entry point are written, and before the
thread that converts has locked it, so another thread that guesses its fid can activate it
too early. In every run in which no switch loads a fiber whose create is not finished, and
none takes the lock of a fiber before the convert that made it, the first activation of a
created fiber starts it at its entry point on its stack, and a converted fiber is first
activated by its own thread.

## Main results

- `first_activations_ready` — the first activations in such runs
- `early_activation` — a run with an early load and a stolen fiber
-/

namespace Fibers

/-! ## The pieces that neither insert nor activate a fiber -/

/-- What the move between two frames has to do with insertions and activations: nothing. -/
structure Frame.Calm (fr fr' : Frame) : Prop where
  old : fr.unfinished = none
  new : fr'.unfinished = none
  converts : fr'.converts = none ∨ fr'.converts = fr.converts
  unactivated : fr.unactivated = none ∨ fr'.unactivated = fr.unactivated
  bringsIn : fr'.bringsIn = none ∨ fr'.bringsIn = fr.bringsIn
  tries : fr'.tries = none
  inserts : fr.inserts fr' = none

/-- The frames of the pieces that insert or activate a fiber or belong to a create. -/
def Frame.counts : Frame → Bool
  | .convertFiber => true
  | .createFiber _ => true
  | .createStack _ _ => true
  | .createContext _ _ => true
  | .activateState _ _ => true
  | _ => false

theorem piece_calm {tg : ThreadGroup} {pid : ℤ} {cpu : Cpu} {fr : Frame} {p : Piece}
    (hp : piece tg pid cpu fr = some p) (hq : fr.counts = false)
    (htry : ∀ f, fr = .trylock .convert f → tg.locked f = false)
    (hcheck : ∀ f, fr = .check .convert f → tg.state f = 0) : fr.Calm p.frame := by
  cases piece_step hp with
  | convertFiber _ | createFiber _ | createStack _ | createContext _ | activateState _ => cases hq
  | @locked c k f hf hl =>
    cases c with
    | switch => exact ⟨rfl, rfl, Or.inl rfl, Or.inl rfl, Or.inl rfl, rfl, rfl⟩
    | convert =>
      have hfree := (locked_of_getFiber hf).symm.trans (htry k rfl)
      rw [hl] at hfree
      cases hfree
  | @lock c =>
    cases c with
    | switch => exact ⟨rfl, rfl, Or.inl rfl, Or.inl rfl, Or.inl rfl, rfl, rfl⟩
    | convert => exact ⟨rfl, rfl, Or.inr rfl, Or.inr rfl, Or.inl rfl, rfl, rfl⟩
  | @used c k f hf hs =>
    cases c with
    | switch => exact ⟨rfl, rfl, Or.inl rfl, Or.inl rfl, Or.inl rfl, rfl, rfl⟩
    | convert =>
      exact absurd ((state_of_getFiber hf).symm.trans (hcheck k rfl)) hs
  | checkConvert _ _ => exact ⟨rfl, rfl, Or.inr rfl, Or.inr rfl, Or.inl rfl, rfl, rfl⟩
  | @activateRead old | @activateWrite old | @activateTime old =>
    cases old <;> exact ⟨rfl, rfl, Or.inr rfl, Or.inl rfl, Or.inr rfl, rfl, rfl⟩
  | activateCurrent _ | saveRegs _ | saveFpu _ | account _ | clearState _ | unlock _ =>
    exact ⟨rfl, rfl, Or.inl rfl, Or.inl rfl, Or.inr rfl, rfl, rfl⟩
  | _ => exact ⟨rfl, rfl, Or.inl rfl, Or.inl rfl, Or.inl rfl, rfl, rfl⟩

theorem piece_records {tg : ThreadGroup} {pid : ℤ} {cpu : Cpu} {fr : Frame} {p : Piece}
    (hp : piece tg pid cpu fr = some p) (hq : fr.counts = false) :
    p.tg.stackLimit = tg.stackLimit ∧
      ∀ f, (∀ new, fr ≠ .saveRegs f new) → p.tg.regs f = tg.regs f := by
  have hwrite : ∀ {fid : ℤ} {g : Fiber → Fiber} {hg : ∀ f, (g f).fid = f.fid},
      (∀ f, (g f).stackLimit = f.stackLimit) → (∀ f, (g f).context.regs = f.context.regs) →
      (tg.onFiber fid g hg).stackLimit = tg.stackLimit ∧
        ∀ f, (∀ new, fr ≠ .saveRegs f new) → (tg.onFiber fid g hg).regs f = tg.regs f :=
    fun hs hr => ⟨stackLimit_onFiber_of_same hs, fun f _ => by rw [regs_onFiber_of_same hr]⟩
  cases piece_step hp with
  | convertFiber _ | createFiber _ | createStack _ | createContext _ | activateState _ => cases hq
  | @saveRegs o new =>
    refine ⟨stackLimit_onFiber_of_same (fun _ => rfl), fun f hf => regs_onFiber_of_ne ?_⟩
    rintro rfl
    exact hf new rfl
  | lock _ _ | fail _ | activateWrite _ | activateTime _ | saveFpu _ | account _ | clearState _
  | unlock _ => exact hwrite (fun _ => rfl) (fun _ => rfl)
  | _ => exact ⟨rfl, fun _ _ => rfl⟩

/-- A fiber that a thread brings in is loaded, or is the one of its own convert. -/
theorem bringsIn_kept {tg : ThreadGroup} {pid : ℤ} {cpu : Cpu} {fr : Frame} {p : Piece} {f : ℤ}
    (hp : piece tg pid cpu fr = some p) (hb : fr.bringsIn = some f) :
    p.frame.bringsIn = some f ∨ fr = .loadRegs f ∨ fr.converts = some f := by
  cases piece_step hp with
  | converted _ => exact Or.inr (Or.inr hb)
  | loadRegs _ =>
    cases hb
    exact Or.inr (Or.inl rfl)
  | activateRead _ | activateWrite _ | activateTime _ | activateCurrent _ | saveRegs _ | saveFpu _
  | account _ | clearState _ | unlock _ => exact Or.inl hb
  | _ => cases hb

/-- A calm piece takes a lock only for its own try-lock, and marks nothing. -/
theorem piece_phases {tg : ThreadGroup} {pid : ℤ} {cpu : Cpu} {fr : Frame} {p : Piece} {f : ℤ}
    (hp : piece tg pid cpu fr = some p) (hq : fr.counts = false) :
    (fr.phase = .taken f → p.frame.phase ≠ .marked f) ∧
      (fr.phase = .resting → p.frame.phase = .taken f → ∃ c, fr = .trylock c f) := by
  cases piece_step hp with
  | convertFiber _ | createFiber _ | createStack _ | createContext _ | activateState _ => cases hq
  | _ => simp [Frame.phase, Piece.ret, Piece.goto]

/-! ## Every step keeps the invariant -/

/-- The makers after a piece, by the frames before and after it. -/
def madeAfter (pid : ℤ) (fr fr' : Frame) (made : ℤ → Option (ℤ × Option FibArgs)) (fid : ℤ) :
    Option (ℤ × Option FibArgs) :=
  ((fr.inserts fr').bind fun x => if x.1 = fid then some (pid, x.2) else none).or (made fid)

/-- The activations after a piece. -/
def actsAfter (pid : ℤ) (fr : Frame) (acts : ℤ → List ℤ) (fid : ℤ) : List ℤ :=
  if fr.activates = some fid then pid :: acts fid else acts fid

theorem madeAfter_of_none {pid : ℤ} {fr fr' : Frame} (h : fr.inserts fr' = none)
    (made : ℤ → Option (ℤ × Option FibArgs)) : madeAfter pid fr fr' made = made := by
  funext fid
  simp [madeAfter, h]

theorem madeAfter_of_some {pid fid : ℤ} {x : Option FibArgs} {fr fr' : Frame}
    (h : fr.inserts fr' = some (fid, x)) (made : ℤ → Option (ℤ × Option FibArgs)) :
    madeAfter pid fr fr' made = Function.update made fid (some (pid, x)) := by
  funext f
  by_cases hf : f = fid
  · simp [madeAfter, h, hf]
  · simp [madeAfter, h, hf, Ne.symm hf]

theorem actsAfter_of_none {pid : ℤ} {fr : Frame} (h : fr.activates = none) (acts : ℤ → List ℤ) :
    actsAfter pid fr acts = acts := by
  funext fid
  simp [actsAfter, h]

/-- The new fiber of a convert or of a create. -/
theorem Readiness.addFiber {tg : ThreadGroup} {frame : ℤ → Frame} {pid : ℤ} {fr : Frame}
    {made : ℤ → Option (ℤ × Option FibArgs)} {acts : ℤ → List ℤ} {x : Option FibArgs}
    (h : Readiness tg frame made acts) (hi : GroupInv tg frame) (few : tg.fibers.size < 2 ^ 31)
    (t : Thread) (cpu : Cpu)
    (hold : (frame pid).unfinished = none ∧ (frame pid).unactivated = none ∧
      (frame pid).bringsIn = none)
    (hfr : fr = match x with
      | none => .trylock .convert (nextFid tg)
      | some a => .createStack (nextFid tg) a) :
    Readiness (Fibers.addFiber tg t cpu) (Function.update frame pid fr)
      (Function.update made (nextFid tg) (some (pid, x))) acts := by
  have hfree := hi.numbered.getFiber_nextFid few
  have hphase : fr.phase = .resting := by
    subst hfr
    cases x <;> rfl
  refine h.insert ?_ (GroupInv.hasFiber_newFiber t cpu) ?_ ?_ ?_ (view_addFiber t cpu hfree).1 ?_
    (fun q f ht => tags_of_resting rfl hphase ht) hold hfr
  · simp [ThreadGroup.HasFiber, hfree]
  · have heffect : GroupEffect tg pid (Fibers.addFiber tg t cpu) := .fiber t cpu
    exact fun f hf => heffect.getFiber_isSome hf
  · intro f hf
    simp [ThreadGroup.regs, Ne.symm hf]
  · intro f hf
    simp [ThreadGroup.stackLimit, Ne.symm hf]
  · simp [ThreadGroup.locked, hfree]

/-- A calm piece. -/
theorem Readiness.calm {tg : ThreadGroup} {frame : ℤ → Frame} {pid : ℤ} {cpu : Cpu} {p : Piece}
    {made : ℤ → Option (ℤ × Option FibArgs)} {acts : ℤ → List ℤ}
    (h : Readiness tg frame made acts) (hi : GroupInv tg frame)
    (hp : Fibers.piece tg pid cpu (frame pid) = some p) (few : p.tg.fibers.size < 2 ^ 31)
    (hq : (frame pid).counts = false) (hcalm : (frame pid).Calm p.frame)
    (hsteal : ∀ f q, frame pid = .trylock .switch f → tg.locked f = false →
      (frame q).tries ≠ some f)
    (hearly : ∀ f q, frame pid = .loadRegs f → (frame q).unfinished ≠ some f) :
    Readiness p.tg (Function.update frame pid p.frame) made acts := by
  obtain ⟨hstack, hregs⟩ := piece_records hp hq
  have hview := hi.piece_refines hp few
  have hself : (lockView tg frame).phase pid = (frame pid).phase := rfl
  have hphase : ∀ q, q ≠ pid → (lockView p.tg (Function.update frame pid p.frame)).phase q =
      (lockView tg frame).phase q := by
    intro q hqp
    simp [lockView, hqp]
  have hphase' : (lockView p.tg (Function.update frame pid p.frame)).phase pid = p.frame.phase := by
    simp [lockView]
  refine h.keep (fun f => (piece_effect hp).getFiber_isSome) ?_ ?_ hcalm.old hcalm.new hstack ?_ ?_
    ?_ ?_ hcalm.tries ?_
  · exact fun f hu => hregs f fun new hfr => h.loaded_of_saveRegs hi hfr hu
  · intro q f ht
    rcases hview with hv | hs | ⟨⟨k, hfr⟩, _, hv⟩
    · rwa [hv] at ht
    · rcases hs.tags hi.locks ht with ht | ⟨htaken, hmarked⟩
      · exact ht
      · by_cases hqp : q = pid
        · subst hqp
          rw [hphase'] at hmarked
          exact absurd hmarked ((piece_phases hp hq).1 htaken)
        · rw [hphase q hqp, htaken] at hmarked
          cases hmarked
    · rw [hv] at ht
      have htaken : (lockView tg frame).phase pid = .taken k := by
        simp [lockView, hfr, Frame.phase]
      exact (Handover.tags_abandon htaken q f).mp ht
  · intro f hf
    rcases hcalm.converts with hn | hs
    · rw [hn] at hf
      cases hf
    · rwa [hs] at hf
  · intro f hf
    rcases hcalm.unactivated with hn | hs
    · rw [hn] at hf
      cases hf
    · rwa [hs]
  · intro f hf
    rcases hcalm.bringsIn with hn | hs
    · rw [hn] at hf
      cases hf
    · rwa [hs] at hf
  · intro f q a hm hun hb
    rcases bringsIn_kept hp hb with hkept | hload | hconv
    · exact hkept
    · exact absurd hun (hearly f q hload)
    · rw [h.converting pid f hconv] at hm
      cases hm
  · intro q f hqp htry
    have hl : (lockView tg frame).locked f = false := h.free q f htry
    change (lockView p.tg (Function.update frame pid p.frame)).locked f = false
    rcases hview with hv | hs | ⟨_, _, hv⟩
    · rwa [hv]
    · rcases hs.locked hl with hl' | ⟨t, hrest, htaken⟩
      · exact hl'
      · exfalso
        by_cases htp : t = pid
        · subst htp
          rw [hphase'] at htaken
          obtain ⟨c, hfr⟩ := (piece_phases hp hq).2 hrest htaken
          cases c with
          | switch => exact hsteal f q hfr hl htry
          | convert =>
            have hconverts : (frame t).converts = some f := by rw [hfr]; rfl
            exact hqp (h.converts_unique (Frame.converts_of_tries htry) hconverts)
        · rw [hphase t htp, hrest] at htaken
          cases htaken
    · rw [hv]
      exact hl

/-- A piece keeps the invariant, unless it takes a lock before a convert does or loads a fiber
whose create is not finished. -/
theorem Readiness.piece {tg : ThreadGroup} {frame : ℤ → Frame} {pid : ℤ} {cpu : Cpu} {p : Piece}
    {made : ℤ → Option (ℤ × Option FibArgs)} {acts : ℤ → List ℤ}
    (h : Readiness tg frame made acts) (hi : GroupInv tg frame)
    (hp : Fibers.piece tg pid cpu (frame pid) = some p) (few : p.tg.fibers.size < 2 ^ 31)
    (hsteal : ∀ f q, frame pid = .trylock .switch f → tg.locked f = false →
      (frame q).tries ≠ some f)
    (hearly : ∀ f q, frame pid = .loadRegs f → (frame q).unfinished ≠ some f) :
    Readiness p.tg (Function.update frame pid p.frame)
      (madeAfter pid (frame pid) p.frame made) (actsAfter pid (frame pid) acts) := by
  have hok := hi.frames pid
  have few₀ : tg.fibers.size < 2 ^ 31 := lt_of_le_of_lt (piece_effect hp).size_le few
  by_cases hq : (frame pid).counts = false
  · have hcalm := piece_calm hp hq
      (fun f hf => h.free pid f (by rw [hf]; rfl))
      (fun f hf => hi.state_of_taken (by rw [hf]; rfl))
    have hacts : (frame pid).activates = none := by
      cases hfr : frame pid <;> simp_all [Frame.counts, Frame.activates]
    rw [madeAfter_of_none hcalm.inserts, actsAfter_of_none hacts]
    exact h.calm hi hp few hq hcalm hsteal hearly
  · generalize hfr : frame pid = fr at hp hok hq
    cases piece_step hp with
    | convertFiber _ | createFiber _ =>
      rw [actsAfter_of_none rfl, madeAfter_of_some rfl]
      exact h.addFiber hi few₀ _ cpu (by rw [hfr]; exact ⟨rfl, rfl, rfl⟩) rfl
    | createStack _ => exact h.stack hfr hok
    | createContext _ => exact h.context hfr hok
    | @activateState old f =>
      have hacts : actsAfter pid (.activateState old f) acts =
          Function.update acts f (pid :: acts f) := by
        funext k
        by_cases hk : k = f
        · simp [actsAfter, Frame.activates, hk]
        · simp [actsAfter, Frame.activates, hk, Ne.symm hk]
      rw [hacts]
      exact h.activate hi hfr
    | _ => exact absurd rfl hq

/-! ## The invariant of a group and its history -/

/-- A thread goes from one frame without a record of its own to another. -/
theorem Readiness.goto {tg : ThreadGroup} {frame : ℤ → Frame} {pid : ℤ} {fr : Frame}
    {made : ℤ → Option (ℤ × Option FibArgs)} {acts : ℤ → List ℤ}
    (h : Readiness tg frame made acts) (hold : (frame pid).awaitsGroup = true)
    (hfr : fr.awaitsGroup = true ∨ fr = .convertThread) :
    Readiness tg (Function.update frame pid fr) made acts := by
  have plain : ∀ {x : Frame}, x.awaitsGroup = true ∨ x = .convertThread →
      x.unfinished = none ∧ x.converts = none ∧ x.unactivated = none ∧ x.bringsIn = none ∧
        x.tries = none ∧ x.phase = .resting := by
    intro x hx
    cases x <;> first
      | exact ⟨rfl, rfl, rfl, rfl, rfl, rfl⟩
      | exact absurd hx (by simp [Frame.awaitsGroup])
  obtain ⟨hun, _, hact, hbring, _, _⟩ := plain (Or.inl hold)
  obtain ⟨hun', hconv', _, hbring', htries', hphase'⟩ := plain hfr
  refine h.keep (fun _ => id) (fun _ _ => rfl) (fun q f => tags_of_resting rfl hphase') hun hun' rfl
    ?_ ?_ ?_ ?_ htries' (fun q f _ => h.free q f)
  · simp [hconv']
  · simp [hact]
  · simp [hbring']
  · simp [hbring]

/-- The invariant of a group that exists; in a group that does not, nothing was made. -/
structure ViewReady (v : GroupView) (made : ℤ → Option (ℤ × Option FibArgs)) (acts : ℤ → List ℤ) :
    Prop where
  grouped : ∀ tg, v.tg = some tg → Readiness tg v.frame made acts
  groupless : v.tg = none → made = (fun _ => none) ∧ acts = fun _ => []

theorem ViewReady.of_group {tg : ThreadGroup} {frame : ℤ → Frame} {cpu : ℤ → Cpu}
    {made : ℤ → Option (ℤ × Option FibArgs)} {acts : ℤ → List ℤ}
    (h : Readiness tg frame made acts) : ViewReady ⟨some tg, frame, cpu⟩ made acts where
  grouped := by
    rintro _ ⟨⟩
    exact h
  groupless := by simp

theorem ViewReady.of_offers {v : GroupView} {tgid : ℤ} {tg : ThreadGroup}
    {made : ℤ → Option (ℤ × Option FibArgs)} {acts : ℤ → List ℤ} (h : ViewReady v made acts)
    (hi : ViewInv v) (ho : v.Offers tgid tg) : Readiness tg v.frame made acts := by
  rcases ho with hg | ⟨hg, hash, rfl⟩
  · exact h.grouped tg hg
  · obtain ⟨rfl, rfl⟩ := h.groupless hg
    exact Readiness.fresh hash tgid (hi.groupless hg)

theorem ViewReady.goto {v : GroupView} {pid : ℤ} {fr : Frame} {cpu : ℤ → Cpu}
    {made : ℤ → Option (ℤ × Option FibArgs)} {acts : ℤ → List ℤ} (h : ViewReady v made acts)
    (hold : (v.frame pid).awaitsGroup = true) (hfr : fr.awaitsGroup = true) :
    ViewReady { v with frame := Function.update v.frame pid fr, cpu := cpu } made acts where
  grouped := fun tg hg => (h.grouped tg hg).goto hold (Or.inl hfr)
  groupless := h.groupless

/-- A step of no thread of the group makes and activates nothing in it. -/
theorem history_of_not_tick {tgid : ℤ} {e : Entry Cfg Action} {h : History}
    (he : ∀ pid, e.act ≠ .tick ⟨tgid, pid⟩) :
    (fun fid => maker tgid fid (e :: h)) = (fun fid => maker tgid fid h) ∧
      (fun fid => activations tgid fid (e :: h)) = (fun fid => activations tgid fid h) := by
  obtain ⟨s, a, s'⟩ := e
  have hne : ∀ t : Task, a = .tick t → t.tgid ≠ tgid := by
    rintro ⟨_, pid⟩ ha rfl
    exact he pid ha
  constructor <;> funext fid
  · have hnone : insertedBy tgid fid ⟨s, a, s'⟩ = none := by
      cases a with
      | tick t => simp [insertedBy, hne t rfl]
      | _ => rfl
    simp [maker, hnone]
  · have hnone : activatedBy tgid fid ⟨s, a, s'⟩ = none := by
      cases a with
      | tick t => simp [activatedBy, hne t rfl]
      | _ => rfl
    simp [activations, hnone]

/-- A step of a thread of the group. -/
theorem history_of_tick (tgid pid : ℤ) (s s' : Cfg) (h : History) :
    (fun fid => maker tgid fid (⟨s, .tick ⟨tgid, pid⟩, s'⟩ :: h)) =
        madeAfter pid (s.frame ⟨tgid, pid⟩) (s'.frame ⟨tgid, pid⟩) (fun fid => maker tgid fid h) ∧
      (fun fid => activations tgid fid (⟨s, .tick ⟨tgid, pid⟩, s'⟩ :: h)) =
        actsAfter pid (s.frame ⟨tgid, pid⟩) (fun fid => activations tgid fid h) := by
  constructor <;> funext fid
  · simp only [maker, List.findSome?_cons, madeAfter, insertedBy, if_true]
    cases Option.bind _ _ <;> rfl
  · by_cases ha : (s.frame ⟨tgid, pid⟩).activates = some fid <;>
      simp [activations, activatedBy, actsAfter, ha]

/-- What every step keeps, unless it loads or takes a fiber too early. -/
theorem viewReady_step {tgid : ℤ} {h : History} {e : Entry Cfg Action} {r : Option Ret}
    (ha : e.act.callsApart) (hi : ViewInv (e.pre.view tgid))
    (hv : ViewReady (e.pre.view tgid) (fun fid => maker tgid fid h)
      (fun fid => activations tgid fid h))
    (few : ∀ tg, (e.post.view tgid).tg = some tg → tg.fibers.size < 2 ^ 31)
    (hstep : ViewStep tgid (e.pre.view tgid) e.act r (e.post.view tgid))
    (hload : ¬ EarlyLoad e) (hsteal : ¬ Stolen e) :
    ViewReady (e.post.view tgid) (fun fid => maker tgid fid (e :: h))
      (fun fid => activations tgid fid (e :: h)) := by
  by_cases hother : ∀ pid, e.act ≠ .tick ⟨tgid, pid⟩
  · obtain ⟨hm, hacts⟩ := history_of_not_tick (h := h) hother
    rw [hm, hacts]
    obtain ⟨s, a, s'⟩ := e
    change ViewStep tgid (s.view tgid) a r (s'.view tgid) at hstep
    change ViewReady (s'.view tgid) _ _
    generalize s'.view tgid = v' at hstep
    cases hstep with
    | elsewhere _ => exact hv
    | user _ => exact ⟨hv.grouped, hv.groupless⟩
    | call hu => exact hv.goto (by rw [hu]; rfl) (awaitsGroup_entry _)
    | plock _ _ | noGroup _ _ | piece _ _ => exact absurd rfl (hother _)
    | convertAgain | convert | createUnknown | create | cleanup => exact ha.elim
  · obtain ⟨pid, hact⟩ := not_forall_not.mp hother
    obtain ⟨s, a, s'⟩ := e
    change a = .tick ⟨tgid, pid⟩ at hact
    subst hact
    obtain ⟨hm, hacts⟩ := history_of_tick tgid pid s s' h
    rw [hm, hacts]
    change ViewStep tgid (s.view tgid) (.tick ⟨tgid, pid⟩) r (s'.view tgid) at hstep
    change ViewReady (s'.view tgid)
      (madeAfter pid ((s.view tgid).frame pid) ((s'.view tgid).frame pid) _)
      (actsAfter pid ((s.view tgid).frame pid) _)
    change ∀ tg, (s'.view tgid).tg = some tg → _ at few
    generalize s'.view tgid = v' at hstep few
    cases hstep with
    | elsewhere hne => exact absurd rfl hne
    | plock hf ho =>
      simp only [Function.update_self]
      rw [hf, madeAfter_of_none rfl, actsAfter_of_none rfl]
      refine .of_group ((hv.of_offers hi ho).goto ?_ (Or.inr rfl))
      rw [hf]
      rfl
    | noGroup hg hl =>
      have hquiet : ∀ fr : Frame, fr.looksUpGroup = true → fr.inserts .user = none ∧
          fr.activates = none := by
        intro fr hfr
        cases fr <;> first | exact ⟨rfl, rfl⟩ | cases hfr
      simp only [Function.update_self]
      rw [madeAfter_of_none (hquiet _ hl).1, actsAfter_of_none (hquiet _ hl).2]
      exact hv.goto (awaitsGroup_of_looksUpGroup hl) rfl
    | @piece _ tg p hg hp =>
      simp only [Function.update_self]
      refine .of_group ((hv.grouped tg hg).piece (hi.grouped tg hg) hp (few _ rfl) ?_ ?_)
      · intro f q hfr hl htry
        refine hsteal ⟨⟨tgid, pid⟩, f, q, tg, rfl, hfr, hg, hl, ?_⟩
        change (s.view tgid).frame q = _
        cases hfq : (s.view tgid).frame q with
        | trylock c k =>
          rw [hfq] at htry
          cases c with
          | convert =>
            cases htry
            rfl
          | switch => cases htry
        | _ =>
          rw [hfq] at htry
          cases htry
      · exact fun f q hfr hun => hload ⟨⟨tgid, pid⟩, f, q, ⟨rfl, hfr⟩, hun⟩

/-- Who made and who activated the fibers, in every state reached without an early load and
without a stolen fiber. -/
theorem viewReady_of_run {hash : ℤ → Bucket} {cpu : Task → Cpu} {h : History} {s : Cfg}
    (hr : Run (Step Action.callsApart) (Cfg.initial hash cpu) h s)
    (hc : ∀ e ∈ h, ¬ EarlyLoad e ∧ ¬ Stolen e) (tgid : ℤ) :
    ViewReady (s.view tgid) (fun fid => maker tgid fid h) (fun fid => activations tgid fid h) := by
  refine view_of_history (I := fun h v => (∀ e ∈ h, ¬ EarlyLoad e ∧ ¬ Stolen e) →
    ViewReady v (fun fid => maker tgid fid h) (fun fid => activations tgid fid h)) hr
    (fun _ _ => ⟨by simp, fun _ => ⟨rfl, rfl⟩⟩) ?_ hc
  intro h e r ha hi ih few _ hstep hc
  obtain ⟨hload, hsteal⟩ := hc e (by simp)
  exact viewReady_step ha hi (ih (fun x hx => hc x (by simp [hx]))) few hstep hload hsteal

/-! ## The first activations -/

/-- A thread that loads a fiber is on it. -/
theorem holds_of_loads {tg : ThreadGroup} {frame : ℤ → Frame} {pid fid : ℤ} (hi : GroupInv tg frame)
    (hf : frame pid = .loadRegs fid) : (lockView tg frame).current pid = some fid := by
  have hok := hi.frames pid
  rw [hf] at hok
  exact hok.2.current_eq (hi.fid_ne_noFibers hok.1)

/-- A convert is about to lock the fiber that it has made, or holds it. -/
theorem Frame.phase_of_converts {fr : Frame} {fid : ℤ} (h : fr.converts = some fid) :
    fr.tries = some fid ∨ fr.phase = .taken fid ∨ fr.phase = .marked fid := by
  cases fr with
  | trylock c k =>
    cases c with
    | convert => exact Or.inl h
    | switch => cases h
  | check c k =>
    cases c with
    | convert =>
      cases h
      exact Or.inr (Or.inl rfl)
    | switch => cases h
  | activateState old k =>
    cases old with
    | none =>
      cases h
      exact Or.inr (Or.inl rfl)
    | some o => cases h
  | activateRead old k | activateWrite old k _ | activateTime old k | activateCurrent old k =>
    cases old with
    | none =>
      cases h
      exact Or.inr (Or.inr rfl)
    | some o => cases h
  | _ => cases h

/-- No other thread executes a fiber that is being loaded. -/
theorem Readiness.apart_of_loads {tg : ThreadGroup} {frame : ℤ → Frame} {pid q fid : ℤ}
    {made : ℤ → Option (ℤ × Option FibArgs)} {acts : ℤ → List ℤ}
    (h : Readiness tg frame made acts) (hi : GroupInv tg frame) (hf : frame pid = .loadRegs fid)
    (hq : pid ≠ q) : tg.current q ≠ some fid ∧ (frame q).converts ≠ some fid := by
  have hholds : (lockView tg frame).Holds pid fid := Or.inl (holds_of_loads hi hf)
  constructor
  · exact fun hcq => hq (hi.locks.holds_unique pid q fid hholds (Or.inl hcq))
  · intro hc
    rcases Frame.phase_of_converts hc with htry | htaken | hmarked
    · have hfree : (lockView tg frame).locked fid = false := h.free q fid htry
      rw [hi.locks.locked_of_holds pid fid hholds] at hfree
      cases hfree
    · exact hq (hi.locks.holds_unique pid q fid hholds (Or.inr (Or.inl htaken)))
    · exact hq (hi.locks.holds_unique pid q fid hholds (Or.inr (Or.inr (Or.inl hmarked))))

/-- What the load of a fiber finds and does. -/
theorem loads_cases {s s' : Cfg} {t : Task} {fid : ℤ} (hs : Step Action.callsApart s (.tick t) s')
    (hf : s.frame t = .loadRegs fid) :
    ∃ tg f, getGroup t.tgid s.groups = some tg ∧ getFiber fid tg = some f ∧
      (s'.cpu t).regs = f.context.regs := by
  obtain ⟨r, hstep⟩ := hs.fires
  cases step_cases hstep with
  | plock hp =>
    rw [hf] at hp
    cases hp
  | noGroup _ hl =>
    rw [hf] at hl
    cases hl
  | piece hg hp =>
    rw [hf] at hp
    obtain ⟨f, hfib, rfl⟩ := Option.map_eq_some_iff.mp hp
    exact ⟨_, f, hg, hfib, by simp [Cfg.commit, Piece.goto]⟩

/-- In every run in which no step loads a fiber whose create is not finished, and no switch takes
the lock of a fiber before the convert that made it, the first activations are ready. -/
theorem first_activations_ready {hash : ℤ → Bucket} {cpu : Task → Cpu} {h : History} {s : Cfg}
    (hr : Run (Step Action.callsApart) (Cfg.initial hash cpu) h s)
    (hc : ∀ e ∈ h, ¬ EarlyLoad e ∧ ¬ Stolen e) : FirstActivationsReady h := by
  -- the invariants at the beginning of a load
  have hpre : ∀ later e past t fid, h = later ++ e :: past → Loads t fid e →
      ∃ tg f, getGroup t.tgid e.pre.groups = some tg ∧ getFiber fid tg = some f ∧
        (e.post.cpu t).regs = f.context.regs ∧
        GroupInv tg (fun pid => e.pre.frame ⟨t.tgid, pid⟩) ∧
        Readiness tg (fun pid => e.pre.frame ⟨t.tgid, pid⟩) (fun fid => maker t.tgid fid past)
          (fun fid => activations t.tgid fid past) := by
    rintro later ⟨s₁, a, s₂⟩ past t fid rfl ⟨hact, hf⟩
    cases hact
    obtain ⟨hpast, hstep⟩ := hr.split
    obtain ⟨tg, f, hg, hfib, hregs⟩ := loads_cases hstep hf
    exact ⟨tg, f, hg, hfib, hregs, ((inv_of_run hpast).views t.tgid).grouped tg hg,
      (viewReady_of_run hpast (fun e he => hc e (by simp [he])) t.tgid).grouped tg hg⟩
  constructor
  · intro later e past t fid pid a hh hload hm hlen
    obtain ⟨tg, f, hg, hfib, hregs, hi, hready⟩ := hpre later e past t fid hh hload
    have hbring : (e.pre.frame t).bringsIn = some fid := by
      rw [hload.2]
      rfl
    have hunloaded : Unloaded (fun pid => e.pre.frame ⟨t.tgid, pid⟩)
        (fun fid => activations t.tgid fid past) fid := Or.inr ⟨hlen, t.pid, hbring⟩
    rcases hready.ready fid pid a hm hunloaded with hun | ⟨regs, hr', hok⟩
    · exact absurd ⟨t, fid, pid, hload, hun⟩ (hc e (by simp [hh])).1
    · have he : f.context.regs = regs := by simpa [ThreadGroup.regs, hfib] using hr'
      rwa [hregs, he]
  · intro tgid fid pid pid' hm hlast
    have hview := viewReady_of_run hr hc tgid
    cases hg : getGroup tgid s.groups with
    | none =>
      have hnone := congrFun (hview.groupless hg).1 fid
      simp [hm] at hnone
    | some tg =>
      rcases (hview.grouped tg hg).first fid pid hm with hfirst | ⟨hempty, _⟩
      · exact Option.some.inj (hlast.symm.trans hfirst)
      · simp [hempty] at hlast
  · intro later e past t fid pid hh hload hm hne
    obtain ⟨tg, f, hg, hfib, hregs, hi, hready⟩ := hpre later e past t fid hh hload
    have hf : (fun pid => e.pre.frame ⟨t.tgid, pid⟩) t.pid = .loadRegs fid := hload.2
    obtain ⟨hcur, hconv⟩ := hready.apart_of_loads hi hf hne
    rintro (hc' | hc')
    · exact hcur (by simpa [Cfg.currentFid, hg] using hc')
    · exact hconv hc'

/-- A thread that makes all calls alone loads and takes no fiber too early. -/
theorem timely_of_alone {hash : ℤ → Bucket} {cpu : Task → Cpu} {h : History} {s : Cfg} {t : Task}
    (hr : Run (Step Action.callsApart) (Cfg.initial hash cpu) h s)
    (hc : ∀ e ∈ h, ∀ t' c, e.act = .call t' c → t' = t) : ∀ e ∈ h, ¬ EarlyLoad e ∧ ¬ Stolen e := by
  intro e he
  obtain ⟨later, past, rfl⟩ := List.append_of_mem he
  have hother : ∀ t', e.pre.frame t' ≠ .user → t' = t := by
    intro t' hf
    by_contra hne
    refine hf (frame_of_no_call hr.split.1 (fun x hx c hact => hne ?_))
    exact hc x (by simp [hx]) t' c hact
  constructor
  · rintro ⟨t', fid, pid, ⟨_, hf⟩, hun⟩
    have ht := hother t' (by simp [hf])
    have hp := hother ⟨t'.tgid, pid⟩ (by
      intro hu
      rw [hu] at hun
      cases hun)
    rw [hp, ← ht, hf] at hun
    cases hun
  · rintro ⟨t', fid, pid, tg, _, hf, _, _, hf'⟩
    have ht := hother t' (by simp [hf])
    have hp := hother ⟨t'.tgid, pid⟩ (by simp [hf'])
    rw [hp, ← ht, hf] at hf'
    cases hf'

/-- A thread converts, creates a fiber and switches to it. -/
def firstSwitch (a : FibArgs) : List Action :=
  [Action.call ⟨1, 1⟩ .convert] ++ List.replicate 10 (Action.tick ⟨1, 1⟩) ++
    [Action.call ⟨1, 1⟩ (.create a)] ++ List.replicate 4 (Action.tick ⟨1, 1⟩) ++
    [Action.call ⟨1, 1⟩ (.switch 1)] ++ List.replicate 16 (Action.tick ⟨1, 1⟩)

/-- The arguments of a create. -/
def someFibArgs : FibArgs :=
  { stackBase := 0x10000, stackSize := 0x4000, entryPoint := 0x400000, params := 7 }

/-- An action that is no call of another thread. -/
def Action.calledOnlyBy (t : Task) : Action → Bool
  | .call t' _ => t' = t
  | _ => true

theorem first_activations_ready_firstSwitch :
    ∃ e past s, execute [] (Cfg.initial (fun _ => 0) default) (firstSwitch someFibArgs) =
        some (e :: past, s) ∧
      Loads ⟨1, 1⟩ 1 e ∧ ReadyRegs someFibArgs (e.post.cpu ⟨1, 1⟩).regs := by
  obtain ⟨e, past, s, he, hc⟩ := exists_execute_cons (Cfg.initial (fun _ => 0) default)
    (firstSwitch someFibArgs)
    (fun e past _ => (e.act = .tick ⟨1, 1⟩ ∧ e.pre.frame ⟨1, 1⟩ = .loadRegs 1) ∧
      maker 1 1 past = some (1, some someFibArgs) ∧ (activations 1 1 past).length = 1 ∧
      (e :: past).all (fun x => x.act.calledOnlyBy ⟨1, 1⟩))
    (by decide +kernel)
  obtain ⟨hload, hmade, hlen, hcalls⟩ := of_decide_eq_true hc
  have hr : Run (Step Action.callsApart) (Cfg.initial (fun _ => 0) default) (e :: past) s :=
    run_of_execute_initial (firstSwitch someFibArgs) (by simp [firstSwitch, Action.callsApart])
      (by decide) he
  have halone : ∀ x ∈ e :: past, ∀ t' c, x.act = .call t' c → t' = (⟨1, 1⟩ : Task) := by
    intro x hx t' c hact
    have := List.all_eq_true.mp hcalls x hx
    simpa [hact, Action.calledOnlyBy] using this
  have hready := first_activations_ready hr (timely_of_alone hr halone)
  exact ⟨e, past, s, he, hload, hready.created [] e past _ _ _ _ rfl hload hmade hlen⟩

/-- One thread switches to a fiber that another is still converting to, and a third one to a fiber
whose create is not finished. -/
def earlyActivation (a : FibArgs) : List Action :=
  [Action.call ⟨1, 1⟩ .convert] ++ List.replicate 10 (Action.tick ⟨1, 1⟩) ++
    [Action.call ⟨1, 2⟩ .convert] ++ List.replicate 3 (Action.tick ⟨1, 2⟩) ++
    [Action.call ⟨1, 1⟩ (.switch 1)] ++ List.replicate 17 (Action.tick ⟨1, 1⟩) ++
    [Action.call ⟨1, 1⟩ (.create a)] ++ List.replicate 2 (Action.tick ⟨1, 1⟩) ++
    [Action.call ⟨1, 3⟩ .convert] ++ List.replicate 10 (Action.tick ⟨1, 3⟩) ++
    [Action.call ⟨1, 3⟩ (.switch 2)] ++ List.replicate 16 (Action.tick ⟨1, 3⟩)

/-- The fiber of the unfinished create is started at address 0, and the one of the other convert
was first activated by a stranger. -/
theorem early_activation :
    ∃ e past s, Run (Step Action.callsApart) (Cfg.initial (fun _ => 0) default) (e :: past) s ∧
      (Loads ⟨1, 3⟩ 2 e ∧ maker 1 2 past = some (1, some someFibArgs) ∧
        (e.post.cpu ⟨1, 3⟩).regs.ip = 0) ∧
      (maker 1 1 past = some (2, none) ∧ (activations 1 1 past).getLast? = some 1) ∧
      ¬ FirstActivationsReady (e :: past) := by
  obtain ⟨e, past, s, he, hc⟩ := exists_execute_cons (Cfg.initial (fun _ => 0) default)
    (earlyActivation someFibArgs)
    (fun e past _ => (e.act = .tick ⟨1, 3⟩ ∧ e.pre.frame ⟨1, 3⟩ = .loadRegs 2) ∧
      maker 1 2 past = some (1, some someFibArgs) ∧ (activations 1 2 past).length = 1 ∧
      (e.post.cpu ⟨1, 3⟩).regs.ip = 0 ∧
      maker 1 1 past = some (2, none) ∧ (activations 1 1 past).getLast? = some 1)
    (by decide +kernel)
  obtain ⟨hload, hmade, hlen, hip, hmade', hlast⟩ := of_decide_eq_true hc
  have hr : Run (Step Action.callsApart) (Cfg.initial (fun _ => 0) default) (e :: past) s :=
    run_of_execute_initial (earlyActivation someFibArgs)
      (by simp [earlyActivation, Action.callsApart]) (by decide) he
  refine ⟨e, past, s, hr, ⟨hload, hmade, hip⟩, ⟨hmade', hlast⟩, fun hready => ?_⟩
  have hok := (hready.created [] e past _ _ _ _ rfl hload hmade hlen).1
  rw [hip] at hok
  exact absurd hok (by decide)

end Fibers
