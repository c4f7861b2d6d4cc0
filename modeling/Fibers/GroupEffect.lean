import Fibers.Interleaving

/-!
# What a piece can do to its group

Whatever the frame, a piece leaves the group as it is, inserts one record, or writes
one record. Everything that holds because records are only ever added and never change
their keys follows from this classification once, and not from each of the pieces.
-/

namespace Fibers

/-! ## The branches of a piece -/

/-- A frame and what its piece does, for each branch of `piece`. -/
inductive PieceStep (tg : ThreadGroup) (pid : ℤ) (cpu : Cpu) : Frame → Piece → Prop
  | convertAgain {t} (ht : getThread pid tg = some t) :
      PieceStep tg pid cpu .convertThread (.ret tg cpu (.error .EEXIST))
  | convertThread (ht : getThread pid tg = none) :
      PieceStep tg pid cpu .convertThread (.goto (addThread tg pid) cpu .convertFiber)
  | convertFiber {t} (ht : getThread pid tg = some t) :
      PieceStep tg pid cpu .convertFiber
        (.goto (addFiber tg t cpu) cpu (.trylock .convert (newFiber tg t cpu).fid))
  | createUnknown {a} (ht : getThread pid tg = none) :
      PieceStep tg pid cpu (.createLookup a) (.ret tg cpu (.error .ESRCH))
  | createLookup {a t} (ht : getThread pid tg = some t) :
      PieceStep tg pid cpu (.createLookup a) (.goto tg cpu (.createFiber a))
  | createFiber {a t} (ht : getThread pid tg = some t) :
      PieceStep tg pid cpu (.createFiber a)
        (.goto (addFiber tg t cpu) cpu (.createStack (newFiber tg t cpu).fid a))
  | createStack {fid a f} (hf : getFiber fid tg = some f) :
      PieceStep tg pid cpu (.createStack fid a)
        (.goto (tg.onFiber fid (Fiber.allocStack a)) cpu (.createContext fid a))
  | createContext {fid a f} (hf : getFiber fid tg = some f) :
      PieceStep tg pid cpu (.createContext fid a)
        (.ret (tg.onFiber fid (Fiber.allocContext a)) cpu (.ok fid))
  | switchUnknown {next} (ht : getThread pid tg = none) :
      PieceStep tg pid cpu (.switchThread next) (.ret tg cpu (.error .ESRCH))
  | switchThread {next t} (ht : getThread pid tg = some t) :
      PieceStep tg pid cpu (.switchThread next) (.goto tg cpu (.switchTarget next))
  | noTarget {next} (hf : getFiber next tg = none) :
      PieceStep tg pid cpu (.switchTarget next) (.ret tg cpu (.error .ESRCH))
  | switchTarget {next f} (hf : getFiber next tg = some f) :
      PieceStep tg pid cpu (.switchTarget next) (.goto tg cpu (.trylock .switch next))
  | locked {c fid f} (hf : getFiber fid tg = some f) (hl : f.flock = true) :
      PieceStep tg pid cpu (.trylock c fid) (.goto tg cpu (.fail c fid))
  | lock {c fid f} (hf : getFiber fid tg = some f) (hl : f.flock = false) :
      PieceStep tg pid cpu (.trylock c fid)
        (.goto (tg.onFiber fid Fiber.lock) cpu (.check c fid))
  | used {c fid f} (hf : getFiber fid tg = some f) (hs : f.info.state ≠ 0) :
      PieceStep tg pid cpu (.check c fid) (.goto tg cpu (.fail c fid))
  | checkConvert {fid f} (hf : getFiber fid tg = some f) (hs : f.info.state = 0) :
      PieceStep tg pid cpu (.check .convert fid) (.goto tg cpu (.activateState none fid))
  | checkSwitch {fid f} (hf : getFiber fid tg = some f) (hs : f.info.state = 0) :
      PieceStep tg pid cpu (.check .switch fid) (.goto tg cpu (.switchOld fid))
  | fail {c fid f} (hf : getFiber fid tg = some f) :
      PieceStep tg pid cpu (.fail c fid)
        (.ret (tg.onFiber fid Fiber.countFailure) cpu (.error .EAGAIN))
  | nowhere {fid t} (ht : getThread pid tg = some t) (hf : getFiber t.currentFid tg = none) :
      PieceStep tg pid cpu (.switchOld fid) (.ret tg cpu (.error .ESRCH))
  | switchOld {fid t f} (ht : getThread pid tg = some t) (hf : getFiber t.currentFid tg = some f) :
      PieceStep tg pid cpu (.switchOld fid) (.goto tg cpu (.activateState (some t.currentFid) fid))
  | activateState {old fid f} (hf : getFiber fid tg = some f) :
      PieceStep tg pid cpu (.activateState old fid)
        (.goto (tg.onFiber fid (Fiber.setState pid)) cpu (.activateRead old fid))
  | activateRead {old fid f} (hf : getFiber fid tg = some f) :
      PieceStep tg pid cpu (.activateRead old fid)
        (.goto tg cpu (.activateWrite old fid f.info.successfulActivations))
  | activateWrite {old fid n f} (hf : getFiber fid tg = some f) :
      PieceStep tg pid cpu (.activateWrite old fid n)
        (.goto (tg.onFiber fid (Fiber.setSuccessful (n + 1))) cpu (.activateTime old fid))
  | activateTime {old fid f} (hf : getFiber fid tg = some f) :
      PieceStep tg pid cpu (.activateTime old fid)
        (.goto (tg.onFiber fid (Fiber.setActivationTime cpu.utime)) cpu (.activateCurrent old fid))
  | converted {fid t} (ht : getThread pid tg = some t) :
      PieceStep tg pid cpu (.activateCurrent none fid)
        (.ret (tg.onThread pid (Thread.setCurrent fid)) cpu (.ok fid))
  | activateCurrent {old fid t} (ht : getThread pid tg = some t) :
      PieceStep tg pid cpu (.activateCurrent (some old) fid)
        (.goto (tg.onThread pid (Thread.setCurrent fid)) cpu (.saveRegs old fid))
  | saveRegs {old fid f} (hf : getFiber old tg = some f) :
      PieceStep tg pid cpu (.saveRegs old fid)
        (.goto (tg.onFiber old (Fiber.saveRegs cpu.regs)) cpu (.saveFpu old fid))
  | saveFpu {old fid f} (hf : getFiber old tg = some f) :
      PieceStep tg pid cpu (.saveFpu old fid)
        (.goto (tg.onFiber old (Fiber.saveFpu cpu.fpu)) cpu (.account old fid))
  | account {old fid f} (hf : getFiber old tg = some f) :
      PieceStep tg pid cpu (.account old fid)
        (.goto (tg.onFiber old (Fiber.addRunningTime cpu.utime)) cpu (.clearState old fid))
  | clearState {old fid f} (hf : getFiber old tg = some f) :
      PieceStep tg pid cpu (.clearState old fid)
        (.goto (tg.onFiber old (Fiber.setState 0)) cpu (.unlock old fid))
  | unlock {old fid f} (hf : getFiber old tg = some f) :
      PieceStep tg pid cpu (.unlock old fid)
        (.goto (tg.onFiber old Fiber.unlock) cpu (.loadRegs fid))
  | loadRegs {fid f} (hf : getFiber fid tg = some f) :
      PieceStep tg pid cpu (.loadRegs fid)
        (.goto tg { cpu with regs := f.context.regs } (.loadFpu fid))
  | loadFpu {fid f} (hf : getFiber fid tg = some f) :
      PieceStep tg pid cpu (.loadFpu fid) (.ret tg { cpu with fpu := f.context.fpu } (.ok 0))

theorem piece_step {tg : ThreadGroup} {pid : ℤ} {cpu : Cpu} {fr : Frame} {p : Piece}
    (h : piece tg pid cpu fr = some p) : PieceStep tg pid cpu fr p := by
  cases fr with
  | user | convertGroup => cases h
  | convertThread =>
    simp only [piece] at h
    split at h
    · next ht => cases h; exact .convertAgain ht
    · next ht => cases h; exact .convertThread ht
  | createLookup a =>
    simp only [piece] at h
    split at h
    · next ht => cases h; exact .createUnknown ht
    · next ht => cases h; exact .createLookup ht
  | switchThread next =>
    simp only [piece] at h
    split at h
    · next ht => cases h; exact .switchUnknown ht
    · next ht => cases h; exact .switchThread ht
  | switchTarget next =>
    simp only [piece] at h
    split at h
    · next hf => cases h; exact .noTarget hf
    · next hf => cases h; exact .switchTarget hf
  | trylock c fid =>
    obtain ⟨f, hf, rfl⟩ := Option.map_eq_some_iff.mp h
    split
    · next hl => exact .locked hf hl
    · next hl => exact .lock hf (Bool.eq_false_iff.mpr hl)
  | check c fid =>
    obtain ⟨f, hf, rfl⟩ := Option.map_eq_some_iff.mp h
    split
    · next hs => exact .used hf hs
    · next hs =>
      have hs := not_not.mp hs
      cases c with
      | convert => exact .checkConvert hf hs
      | switch => exact .checkSwitch hf hs
  | switchOld fid =>
    obtain ⟨t, ht, rfl⟩ := Option.map_eq_some_iff.mp h
    split
    · next hf => exact .nowhere ht hf
    · next hf => exact .switchOld ht hf
  | activateCurrent old fid =>
    obtain ⟨t, ht, rfl⟩ := Option.map_eq_some_iff.mp h
    cases old with
    | none => exact .converted ht
    | some old => exact .activateCurrent ht
  | convertFiber | createFiber _ =>
    obtain ⟨t, ht, rfl⟩ := Option.map_eq_some_iff.mp h
    constructor
    exact ht
  | createStack _ _ | createContext _ _ | fail _ _ | activateState _ _ | activateRead _ _
  | activateWrite _ _ _ | activateTime _ _ | saveRegs _ _ | saveFpu _ _ | account _ _
  | clearState _ _ | unlock _ _ | loadRegs _ | loadFpu _ =>
    obtain ⟨f, hf, rfl⟩ := Option.map_eq_some_iff.mp h
    constructor
    exact hf

/-! ## The effect on the group -/

/-- The five ways in which a piece of the thread `pid` may change its group. -/
inductive GroupEffect (tg : ThreadGroup) (pid : ℤ) : ThreadGroup → Prop
  | same : GroupEffect tg pid tg
  | thread : getThread pid tg = none → GroupEffect tg pid (addThread tg pid)
  | fiber (t : Thread) (cpu : Cpu) : GroupEffect tg pid (addFiber tg t cpu)
  | writeFiber (fid : ℤ) (g : Fiber → Fiber) (hg : ∀ f, (g f).fid = f.fid) :
      GroupEffect tg pid (tg.onFiber fid g hg)
  | writeThread (g : Thread → Thread) (hg : ∀ t, (g t).pid = t.pid) :
      GroupEffect tg pid (tg.onThread pid g hg)

/-- Every piece has one of the five effects. -/
theorem piece_effect {tg : ThreadGroup} {pid : ℤ} {cpu : Cpu} {fr : Frame} {p : Piece}
    (h : piece tg pid cpu fr = some p) : GroupEffect tg pid p.tg := by
  cases piece_step h with
  | convertThread hn => exact .thread hn
  | convertFiber _ | createFiber _ => exact .fiber _ cpu
  | converted _ | activateCurrent _ => exact .writeThread _ _
  | lock _ _ | createStack _ | createContext _ | fail _ | activateState _ | activateWrite _
  | activateTime _ | saveRegs _ | saveFpu _ | account _ | clearState _ | unlock _ =>
    exact .writeFiber _ _ _
  | _ => exact .same

/-- Only two kinds of pieces touch the table of threads. -/
theorem piece_threads {tg : ThreadGroup} {pid : ℤ} {cpu : Cpu} {fr : Frame} {p : Piece}
    (h : piece tg pid cpu fr = some p) (hinsert : fr ≠ .convertThread)
    (hcurrent : ∀ old fid, fr ≠ .activateCurrent old fid) : p.tg.threads = tg.threads := by
  cases piece_step h with
  | convertThread _ => exact absurd rfl hinsert
  | converted _ | activateCurrent _ => exact absurd rfl (hcurrent _ _)
  | _ => rfl

/-- The pieces that end a call, each with its result. -/
inductive Returns (tg : ThreadGroup) (pid : ℤ) (cpu : Cpu) : Frame → Ret → Piece → Prop
  | convertAgain {t} (ht : getThread pid tg = some t) :
      Returns tg pid cpu .convertThread (.error .EEXIST) (.ret tg cpu (.error .EEXIST))
  | createUnknown {a} (ht : getThread pid tg = none) :
      Returns tg pid cpu (.createLookup a) (.error .ESRCH) (.ret tg cpu (.error .ESRCH))
  | created {fid f a} (hf : getFiber fid tg = some f) :
      Returns tg pid cpu (.createContext fid a) (.ok fid)
        (.ret (tg.onFiber fid (Fiber.allocContext a)) cpu (.ok fid))
  | switchUnknown {next} (ht : getThread pid tg = none) :
      Returns tg pid cpu (.switchThread next) (.error .ESRCH) (.ret tg cpu (.error .ESRCH))
  | noTarget {next} (hf : getFiber next tg = none) :
      Returns tg pid cpu (.switchTarget next) (.error .ESRCH) (.ret tg cpu (.error .ESRCH))
  | refused {c fid f} (hf : getFiber fid tg = some f) :
      Returns tg pid cpu (.fail c fid) (.error .EAGAIN)
        (.ret (tg.onFiber fid Fiber.countFailure) cpu (.error .EAGAIN))
  | nowhere {fid t} (ht : getThread pid tg = some t) (hf : getFiber t.currentFid tg = none) :
      Returns tg pid cpu (.switchOld fid) (.error .ESRCH) (.ret tg cpu (.error .ESRCH))
  | converted {fid t} (ht : getThread pid tg = some t) :
      Returns tg pid cpu (.activateCurrent none fid) (.ok fid)
        (.ret (tg.onThread pid (Thread.setCurrent fid)) cpu (.ok fid))
  | switched {fid f} (hf : getFiber fid tg = some f) :
      Returns tg pid cpu (.loadFpu fid) (.ok 0)
        (.ret tg { cpu with fpu := f.context.fpu } (.ok 0))

theorem piece_returns {tg : ThreadGroup} {pid : ℤ} {cpu : Cpu} {fr : Frame} {p : Piece} {r : Ret}
    (h : piece tg pid cpu fr = some p) (hr : p.result = some r) : Returns tg pid cpu fr r p := by
  cases piece_step h with
  | convertAgain ht => cases hr; exact .convertAgain ht
  | createUnknown ht => cases hr; exact .createUnknown ht
  | createContext hf => cases hr; exact .created hf
  | switchUnknown ht => cases hr; exact .switchUnknown ht
  | noTarget hf => cases hr; exact .noTarget hf
  | fail hf => cases hr; exact .refused hf
  | nowhere ht hf => cases hr; exact .nowhere ht hf
  | converted ht => cases hr; exact .converted ht
  | loadFpu hf => cases hr; exact .switched hf
  | _ => cases hr

/-! ## Lookups after an insertion -/

/-- The fid that the next fiber of the group gets. -/
def nextFid (tg : ThreadGroup) : ℤ := atomicIncReturn tg.fidCount

section Insertions

variable (tg : ThreadGroup) (pid : ℤ) (t : Thread) (cpu : Cpu)

@[simp] theorem getThread_addThread (q : ℤ) :
    getThread q (addThread tg pid) =
      if pid = q then some ⟨pid, noFibers⟩ else getThread q tg :=
  HashTable.find_add ..

@[simp] theorem getFiber_addThread (fid : ℤ) :
    getFiber fid (addThread tg pid) = getFiber fid tg := rfl

@[simp] theorem fibers_addThread : (addThread tg pid).fibers = tg.fibers := rfl

@[simp] theorem getThread_addFiber (q : ℤ) :
    getThread q (addFiber tg t cpu) = getThread q tg := rfl

@[simp] theorem newFiber_fid : (newFiber tg t cpu).fid = nextFid tg := rfl

@[simp] theorem getFiber_addFiber (fid : ℤ) :
    getFiber fid (addFiber tg t cpu) =
      if nextFid tg = fid then some (newFiber tg t cpu) else getFiber fid tg :=
  HashTable.find_add ..

end Insertions

/-! ## Functions of the fibers -/

/-- What a function of the fiber that is found yields at every fid. -/
def ThreadGroup.seen {α : Type*} (tg : ThreadGroup) (look : Option Fiber → α) (fid : ℤ) : α :=
  look (getFiber fid tg)

/-- A field of every fiber; `d` stands for the fibers that do not exist. -/
def ThreadGroup.field {α : Type*} (tg : ThreadGroup) (d : α) (proj : Fiber → α) (fid : ℤ) : α :=
  (getFiber fid tg).elim d proj

section Fields

variable {α : Type*} (look : Option Fiber → α) {d : α} {proj : Fiber → α} {tg : ThreadGroup}
variable {fid : ℤ} {g : Fiber → Fiber} {hg : ∀ f, (g f).fid = f.fid}

/-- A write that the function does not see. -/
theorem seen_onFiber_of_same (h : ∀ f, look (some (g f)) = look (some f)) :
    (tg.onFiber fid g hg).seen look = tg.seen look := by
  funext k
  by_cases hk : k = fid
  · subst hk
    cases hf : getFiber k tg <;> simp [ThreadGroup.seen, hf, h]
  · simp [ThreadGroup.seen, hk]

theorem seen_onFiber {f : Fiber} (hf : getFiber fid tg = some f) :
    (tg.onFiber fid g hg).seen look = Function.update (tg.seen look) fid (look (some (g f))) := by
  funext k
  by_cases hk : k = fid
  · subst hk
    simp [ThreadGroup.seen, hf]
  · simp [ThreadGroup.seen, hk]

/-- A new fiber that looks like a fiber that does not exist. -/
theorem seen_addFiber {t : Thread} {cpu : Cpu} (hn : getFiber (nextFid tg) tg = none)
    (hnew : look (some (newFiber tg t cpu)) = look none) :
    (addFiber tg t cpu).seen look = tg.seen look := by
  funext k
  by_cases hk : nextFid tg = k
  · subst hk
    simp only [ThreadGroup.seen, getFiber_addFiber, if_true, hn]
    exact hnew
  · simp [ThreadGroup.seen, hk]

theorem field_of_getFiber {f : Fiber} (hf : getFiber fid tg = some f) :
    tg.field d proj fid = proj f := by
  rw [ThreadGroup.field, hf]
  rfl

theorem field_onFiber {f : Fiber} (hf : getFiber fid tg = some f) :
    (tg.onFiber fid g hg).field d proj = Function.update (tg.field d proj) fid (proj (g f)) :=
  seen_onFiber (fun o => o.elim d proj) hf

/-- What the piece of a frame writes to the fiber that it writes. -/
def Frame.writes (pid : ℤ) (cpu : Cpu) : Frame → Fiber → Fiber
  | .createStack _ a => Fiber.allocStack a
  | .createContext _ a => Fiber.allocContext a
  | .trylock _ _ => Fiber.lock
  | .fail _ _ => Fiber.countFailure
  | .activateState _ _ => Fiber.setState pid
  | .activateWrite _ _ n => Fiber.setSuccessful (n + 1)
  | .activateTime _ _ => Fiber.setActivationTime cpu.utime
  | .saveRegs _ _ => Fiber.saveRegs cpu.regs
  | .saveFpu _ _ => Fiber.saveFpu cpu.fpu
  | .account _ _ => Fiber.addRunningTime cpu.utime
  | .clearState _ _ => Fiber.setState 0
  | .unlock _ _ => Fiber.unlock
  | _ => id

/-- A function does not see a piece, if it does not see what the piece writes. -/
theorem piece_seen {pid : ℤ} {cpu : Cpu} {fr : Frame} {p : Piece}
    (hp : piece tg pid cpu fr = some p) (hn : getFiber (nextFid tg) tg = none)
    (hnew : ∀ t, look (some (newFiber tg t cpu)) = look none)
    (hw : ∀ f, look (some (fr.writes pid cpu f)) = look (some f)) :
    p.tg.seen look = tg.seen look := by
  cases piece_step hp with
  | convertFiber _ | createFiber _ => exact seen_addFiber look hn (hnew _)
  | lock _ _ | createStack _ | createContext _ | fail _ | activateState _ | activateWrite _
  | activateTime _ | saveRegs _ | saveFpu _ | account _ | clearState _ | unlock _ =>
    exact seen_onFiber_of_same look hw
  | _ => rfl

/-- A piece leaves a field as it is, if what it writes does. -/
theorem piece_field {pid : ℤ} {cpu : Cpu} {fr : Frame} {p : Piece}
    (hp : piece tg pid cpu fr = some p) (hn : getFiber (nextFid tg) tg = none)
    (hnew : ∀ t, proj (newFiber tg t cpu) = d) (hw : ∀ f, proj (fr.writes pid cpu f) = proj f) :
    p.tg.field d proj = tg.field d proj :=
  piece_seen (fun o => o.elim d proj) hp hn hnew hw

end Fields

/-! ## Consequences of the classification -/

namespace GroupEffect

variable {tg tg' : ThreadGroup} {pid : ℤ}

theorem tgid_eq (h : GroupEffect tg pid tg') : tg'.tgid = tg.tgid := by
  cases h <;> rfl

/-- No fiber goes away. -/
theorem getFiber_isSome (h : GroupEffect tg pid tg') {fid : ℤ}
    (hf : (getFiber fid tg).isSome) : (getFiber fid tg').isSome := by
  cases h with
  | same => exact hf
  | thread _ => exact hf
  | fiber t cpu =>
    rw [getFiber_addFiber]
    split
    · rfl
    · exact hf
  | writeFiber k g hg =>
    rw [getFiber_onFiber]
    split
    · next he =>
      subst he
      simpa using hf
    · exact hf
  | writeThread g hg => exact hf

/-- The records of the other threads stay as they are. -/
theorem getThread_of_ne (h : GroupEffect tg pid tg') {q : ℤ} (hq : q ≠ pid) :
    getThread q tg' = getThread q tg := by
  cases h with
  | same => rfl
  | thread _ => simp [Ne.symm hq]
  | fiber t cpu => rfl
  | writeFiber k g hg => rfl
  | writeThread g hg => simp [hq]

/-- A registered thread stays registered. -/
theorem getThread_isSome (h : GroupEffect tg pid tg') {q : ℤ}
    (ht : (getThread q tg).isSome) : (getThread q tg').isSome := by
  by_cases hq : q = pid
  · subst hq
    cases h with
    | same => exact ht
    | thread _ => simp
    | fiber t cpu => exact ht
    | writeFiber k g hg => exact ht
    | writeThread g hg => simpa using ht
  · rw [h.getThread_of_ne hq]
    exact ht

theorem size_le (h : GroupEffect tg pid tg') : tg.fibers.size ≤ tg'.fibers.size := by
  cases h with
  | same => exact le_rfl
  | thread _ => exact le_rfl
  | fiber t cpu => simp [addFiber]
  | writeFiber k g hg => simp
  | writeThread g hg => simp

end GroupEffect

/-! ## Numbering of the fibers -/

/-- The tables of a group: one record for each thread, and the fibers numbered from 0 without
gaps, the counter on the last number given out. -/
structure Numbered (tg : ThreadGroup) : Prop where
  threads_unique : tg.threads.Unique
  fids : tg.fibers.keys = (Multiset.range tg.fibers.size).map Int.ofNat
  count : tg.fidCount = tg.fibers.size - 1

namespace Numbered

variable {tg tg' : ThreadGroup} {pid : ℤ}

theorem fibers_unique (h : Numbered tg) : tg.fibers.Unique := by
  rw [HashTable.unique_iff_nodup_keys, h.fids]
  exact (Multiset.nodup_range _).map (fun _ _ => Int.ofNat.inj)

theorem getFiber_isSome_iff (h : Numbered tg) {fid : ℤ} :
    (getFiber fid tg).isSome ↔ 0 ≤ fid ∧ fid < tg.fibers.size := by
  unfold getFiber
  rw [HashTable.find_isSome_iff, h.fids]
  simp only [Multiset.mem_map, Multiset.mem_range]
  constructor
  · rintro ⟨n, hn, rfl⟩
    exact ⟨Int.natCast_nonneg n, Int.ofNat_lt.mpr hn⟩
  · rintro ⟨h₁, h₂⟩
    refine ⟨fid.toNat, by omega, ?_⟩
    simpa using h₁

/-- As long as the counter does not wrap, the next number is the number of fibers. -/
theorem nextFid_eq (h : Numbered tg) (few : tg.fibers.size < 2 ^ 31) :
    nextFid tg = tg.fibers.size := by
  have hs : tg.fidCount + 1 = tg.fibers.size := by
    rw [h.count]
    omega
  unfold nextFid atomicIncReturn
  rw [hs]
  exact wrap32_of_range (by omega) (by omega)

theorem nextFid_ne_noFibers (h : Numbered tg) (few : tg.fibers.size < 2 ^ 31) :
    nextFid tg ≠ noFibers := by
  rw [h.nextFid_eq few, noFibers]
  omega

theorem getFiber_nextFid (h : Numbered tg) (few : tg.fibers.size < 2 ^ 31) :
    getFiber (nextFid tg) tg = none := by
  by_contra hn
  have hs := h.getFiber_isSome_iff.mp (Option.isSome_iff_ne_none.mpr hn)
  rw [h.nextFid_eq few] at hs
  omega

theorem onFiber (h : Numbered tg) (fid : ℤ) (g : Fiber → Fiber) (hg : ∀ f, (g f).fid = f.fid) :
    Numbered (tg.onFiber fid g hg) where
  threads_unique := h.threads_unique
  fids := by
    rw [keys_onFiber, size_onFiber]
    exact h.fids
  count := by
    rw [fidCount_onFiber, size_onFiber]
    exact h.count

theorem effect (h : Numbered tg) (he : GroupEffect tg pid tg')
    (few : tg'.fibers.size < 2 ^ 31) : Numbered tg' := by
  cases he with
  | same => exact h
  | thread hn => exact ⟨h.threads_unique.add hn, h.fids, h.count⟩
  | fiber t cpu =>
    have few' : tg.fibers.size < 2 ^ 31 := by
      simp only [addFiber, HashTable.size_add] at few
      omega
    have hf := h.nextFid_eq few'
    refine ⟨h.threads_unique, ?_, ?_⟩
    · simp only [addFiber, HashTable.keys_add, HashTable.size_add, Multiset.range_succ,
        Multiset.map_cons, h.fids, newFiber_fid, hf]
      rfl
    · simp only [addFiber, HashTable.size_add]
      change nextFid tg = _
      rw [hf]
      push_cast
      omega
  | writeFiber k g hg => exact h.onFiber k g hg
  | writeThread g hg => exact ⟨h.threads_unique.modify pid g hg, h.fids, h.count⟩

end Numbered

end Fibers
