import Fibers.Testbed.Program

/-!
# What the fibers of the program share

`Owns` are the places in memory that a fiber knows: the slots that it has allocated, and what the
pointers in them lead to. No place is owned by two fibers, so a pass through the loop of one fiber
changes nothing for another one.

## Main results

- `Private.step` — a step of one fiber in its own memory
- `Memory.worker_congr` — what another fiber works on stays the same
- `Private.store`, `Private.start`, `Private.pass` — the steps that write to memory
-/

namespace Fibers.Testbed.Program

open Cell (Msg LpState Draws)
open DoublyLinked (Heap)
open MainLoop (Worker)

/-! ## Places in memory -/

inductive Loc
  | slot (k : ℕ)
  | queue (a : ℕ)
  | cell (a : ℕ)

namespace Memory

def SameAt (m m' : Memory) : Loc → Prop
  | .slot k => m'.fls k = m.fls k
  | .queue a => m'.queue a = m.queue a
  | .cell a => m'.cell a = m.cell a

/-- The places that a fiber knows. -/
def Owns (m : Memory) (p : Pc) : Loc → Prop
  | .slot k => k ∈ p.slots
  | .queue a => ∃ q, p.queueSlot = some q ∧ m.fls q = some a
  | .cell a => ∃ st, p.stateSlot = some st ∧ m.fls st = some a

/-- The slots of a fiber are two, and there is something behind the pointers in them. -/
structure Sound (m : Memory) (p : Pc) : Prop where
  nodup : p.slots.Nodup
  queue : ∀ q, p.queueSlot = some q → ∃ a, m.fls q = some a ∧ (m.queue a).isSome
  cell : ∀ st a, p.stateSlot = some st → m.fls st = some a → (m.cell a).isSome

theorem sameAt (m : Memory) {l : Loc} : m.SameAt m l := by
  cases l <;> rfl

end Memory

theorem Pc.mem_slots_of_queueSlot {p : Pc} {q : ℕ} (h : p.queueSlot = some q) : q ∈ p.slots := by
  cases p <;> simp_all [Pc.queueSlot, Pc.slots]

theorem Pc.mem_slots_of_stateSlot {p : Pc} {st : ℕ} (h : p.stateSlot = some st) :
    st ∈ p.slots := by
  cases p <;> simp_all [Pc.stateSlot, Pc.slots]

section Congr

variable {m m' : Memory} {p : Pc} {q st : ℕ}

/-- What a fiber owns is fixed by what is in its own places. -/
theorem Memory.owns_congr (h : ∀ l, m.Owns p l → m.SameAt m' l) (l : Loc) :
    m'.Owns p l ↔ m.Owns p l := by
  have hslot : ∀ k ∈ p.slots, m'.fls k = m.fls k := fun k hk => h (.slot k) hk
  cases l with
  | slot k => exact Iff.rfl
  | queue a =>
    refine exists_congr fun q => and_congr_right fun hq => ?_
    rw [hslot q (Pc.mem_slots_of_queueSlot hq)]
  | cell a =>
    refine exists_congr fun st => and_congr_right fun hst => ?_
    rw [hslot st (Pc.mem_slots_of_stateSlot hst)]

theorem Memory.Sound.congr (hs : m.Sound p) (h : ∀ l, m.Owns p l → m.SameAt m' l) :
    m'.Sound p := by
  have hslot : ∀ k ∈ p.slots, m'.fls k = m.fls k := fun k hk => h (.slot k) hk
  refine ⟨hs.nodup, fun q hq => ?_, fun st a hst ha => ?_⟩
  · obtain ⟨a, ha, hqueue⟩ := hs.queue q hq
    refine ⟨a, (hslot q (Pc.mem_slots_of_queueSlot hq)).trans ha, ?_⟩
    have hsame : m'.queue a = m.queue a := h (.queue a) ⟨q, hq, ha⟩
    rwa [hsame]
  · rw [hslot st (Pc.mem_slots_of_stateSlot hst)] at ha
    have hsame : m'.cell a = m.cell a := h (.cell a) ⟨st, hst, ha⟩
    rw [hsame]
    exact hs.cell st a hst ha

theorem Memory.load_congr {done : Bool} (hq : p.queueSlot = some q) (hst : p.stateSlot = some st)
    (h : ∀ l, m.Owns p l → m.SameAt m' l) : m'.load q st done = m.load q st done := by
  have hslot : ∀ k ∈ p.slots, m'.fls k = m.fls k := fun k hk => h (.slot k) hk
  have hqueue : (m'.fls q).bind m'.queue = (m.fls q).bind m.queue := by
    rw [hslot q (Pc.mem_slots_of_queueSlot hq)]
    cases ha : m.fls q with
    | none => rfl
    | some a => exact h (.queue a) ⟨q, hq, ha⟩
  have hcell : m'.cellOf st = m.cellOf st := by
    unfold Memory.cellOf
    rw [hslot st (Pc.mem_slots_of_stateSlot hst)]
    cases ha : m.fls st with
    | none => rfl
    | some a =>
      have hsame : m'.cell a = m.cell a := h (.cell a) ⟨st, hst, ha⟩
      simp only [hsame]
  unfold Memory.load
  rw [hqueue, hcell]

theorem Memory.worker_afterPass (m : Memory) (q st : ℕ) (done : Bool) :
    m.worker (.afterPass q st done) = m.load q st done := by
  cases done <;> rfl

/-- A fiber in its loop finds its queue and its cell. -/
theorem Memory.Sound.load (hs : m.Sound p) (done : Bool) (hq : p.queueSlot = some q)
    (hst : p.stateSlot = some st) : ∃ w, m.load q st done = some w := by
  obtain ⟨a, ha, hsome⟩ := hs.queue q hq
  obtain ⟨queue, hqueue⟩ := Option.isSome_iff_exists.mp hsome
  obtain ⟨c, hc⟩ : ∃ c, m.cellOf st = some c := by
    unfold Memory.cellOf
    cases hfls : m.fls st with
    | none => exact ⟨_, rfl⟩
    | some b =>
      obtain ⟨c, hc⟩ := Option.isSome_iff_exists.mp (hs.cell st b hst hfls)
      exact ⟨(some c.1, c.2), by simp only [hc, Option.map_some]⟩
  exact ⟨⟨queue, c.1, c.2, done⟩, by simp [Memory.load, ha, hqueue, hc]⟩

/-- So is what it works on. -/
theorem Memory.worker_congr (h : ∀ l, m.Owns p l → m.SameAt m' l) : m'.worker p = m.worker p := by
  cases p with
  | looping q st => exact Memory.load_congr rfl rfl h
  | left q st => exact Memory.load_congr rfl rfl h
  | timed q st millis => exact Memory.load_congr rfl rfl h
  | done q st millis => exact Memory.load_congr rfl rfl h
  | _ => rfl

end Congr

/-! ## No place is shared -/

/-- Every place has at most one owner. -/
structure Private (m : Memory) (pc : ℕ → Pc) : Prop where
  sole : ∀ i j l, m.Owns (pc i) l → m.Owns (pc j) l → i = j
  sound : ∀ i, m.Sound (pc i)

/-- No other fiber owns the place. -/
def Spare (m : Memory) (pc : ℕ → Pc) (id : ℕ) (l : Loc) : Prop := ∀ j, j ≠ id → ¬ m.Owns (pc j) l

/-- A fiber goes on at `p`, and has written to and taken only what no other fiber owns. -/
structure Advances (m m' : Memory) (pc : ℕ → Pc) (id : ℕ) (p : Pc) : Prop where
  frame : ∀ l, ¬ m.SameAt m' l → Spare m pc id l
  spare : ∀ l, m'.Owns p l → Spare m pc id l
  sound : m'.Sound p

/-- The other fibers find their memory as it was. -/
theorem Advances.same {m m' : Memory} {pc : ℕ → Pc} {id j : ℕ} {p : Pc}
    (ha : Advances m m' pc id p) (hj : j ≠ id) (l : Loc) (hl : m.Owns (pc j) l) :
    m.SameAt m' l := by
  by_contra hchanged
  exact ha.frame l hchanged j hj hl

namespace Private

variable {m m' : Memory} {pc : ℕ → Pc} {id : ℕ} {p : Pc}

theorem spare (h : Private m pc) {l : Loc} (hl : m.Owns (pc id) l) : Spare m pc id l :=
  fun j hj hown => hj (h.sole j id l hown hl)

theorem spare_queue (h : Private m pc) {a : ℕ} (ha : m.queue a = none) :
    Spare m pc id (.queue a) := by
  rintro j - ⟨q, hq, hfls⟩
  obtain ⟨a', hfls', hsome⟩ := (h.sound j).queue q hq
  obtain rfl := Option.some.inj (hfls.symm.trans hfls')
  rw [ha] at hsome
  cases hsome

theorem spare_cell (h : Private m pc) {a : ℕ} (ha : m.cell a = none) : Spare m pc id (.cell a) := by
  rintro j - ⟨st, hst, hfls⟩
  have hsome := (h.sound j).cell st a hst hfls
  rw [ha] at hsome
  cases hsome

theorem step (h : Private m pc) (ha : Advances m m' pc id p) :
    Private m' (Function.update pc id p) := by
  have howns : ∀ j, j ≠ id → ∀ l, m'.Owns (pc j) l ↔ m.Owns (pc j) l := fun j hj =>
    Memory.owns_congr (ha.same hj)
  refine ⟨fun i j l hi hj => ?_, fun i => ?_⟩
  · by_cases hid : i = id
    · by_cases hjd : j = id
      · rw [hid, hjd]
      · subst hid
        rw [Function.update_self] at hi
        rw [Function.update_of_ne hjd] at hj
        exact absurd ((howns j hjd l).mp hj) (ha.spare l hi j hjd)
    · rw [Function.update_of_ne hid] at hi
      by_cases hjd : j = id
      · subst hjd
        rw [Function.update_self] at hj
        exact absurd ((howns i hid l).mp hi) (ha.spare l hj i hid)
      · rw [Function.update_of_ne hjd] at hj
        exact h.sole i j l ((howns i hid l).mp hi) ((howns j hjd l).mp hj)
  · by_cases hid : i = id
    · rw [hid, Function.update_self]
      exact ha.sound
    · rw [Function.update_of_ne hid]
      exact (h.sound i).congr (ha.same hid)

/-- The fiber keeps its slots, and the memory stays as it is. -/
theorem keep (h : Private m pc) (hslots : p.slots = (pc id).slots)
    (hqueue : p.queueSlot = (pc id).queueSlot) (hstate : p.stateSlot = (pc id).stateSlot) :
    Advances m m pc id p := by
  have howns : ∀ l, m.Owns p l ↔ m.Owns (pc id) l := by
    intro l
    cases l <;> simp only [Memory.Owns, hslots, hqueue, hstate]
  have hs := h.sound id
  exact ⟨fun l hl => absurd m.sameAt hl, fun l hl => h.spare ((howns l).mp hl),
    hslots ▸ hs.nodup, hqueue ▸ hs.queue, hstate ▸ hs.cell⟩

end Private

/-! ## The steps that write to memory -/

section Writes

variable {m : Memory} {pc : ℕ → Pc} {id q st a b addr : ℕ} {w w' : Worker}
  {mem queue : Calqueue (Msg ℚ)}

theorem Memory.setQueue_eq (ha : m.fls q = some a) :
    m.setQueue q queue = { m with queue := Function.update m.queue a (some queue) } := by
  rw [Memory.setQueue, ha]

/-- The memory after a pass, with the state of the cell at `c` in the end. -/
theorem Memory.store_eq {allocated : Option ℕ} {c : ℕ} (ha : m.fls q = some a)
    (hc : (match allocated with | none => m.fls st | some b => some b) = some c) :
    m.store q st w allocated =
      { fls := Function.update m.fls st (some c)
        queue := Function.update m.queue a (some w.queue)
        cell := Function.update m.cell c (w.state.map (·, w.heap)) } := by
  cases allocated with
  | none =>
    replace hc : m.fls st = some c := hc
    have hfls : Function.update m.fls st (some c) = m.fls := by
      rw [← hc]
      exact Function.update_eq_self st m.fls
    rw [hfls]
    simp only [Memory.store, Memory.setQueue_eq ha]
    rw [hc]
  | some b =>
    obtain rfl := Option.some.inj hc
    simp only [Memory.store, Memory.setQueue_eq ha, Function.update_self]

theorem Memory.load_eq_some {done : Bool} (h : m.load q st done = some w) :
    ∃ a, m.fls q = some a ∧ m.queue a = some w.queue ∧ m.cellOf st = some (w.state, w.heap) ∧
      w.done = done := by
  simp only [Memory.load, bind, Option.bind_eq_some_iff, pure, Option.some.injEq] at h
  obtain ⟨queue, ⟨a, ha, hqueue⟩, ⟨state, heap⟩, hcell, rfl⟩ := h
  exact ⟨a, ha, hqueue, hcell, rfl⟩

/-- A fiber puts a new queue behind its first slot. -/
theorem Private.store (h : Private m pc) (hpc : pc id = .indices q st)
    (hfree : m.queue addr = none) :
    Advances m { m with
      queue := Function.update m.queue addr (some mem)
      fls := Function.update m.fls q (some addr) } pc id (.stored q st) := by
  have hslot : ∀ k, k = q ∨ k = st → m.Owns (pc id) (.slot k) := by
    intro k hk
    simpa [Memory.Owns, hpc, Pc.slots] using hk
  constructor
  · intro l hl
    cases l with
    | slot k =>
      by_cases hk : k = q
      · exact h.spare (hslot k (.inl hk))
      · exact absurd (Function.update_of_ne hk _ _) hl
    | queue a =>
      by_cases ha : a = addr
      · exact ha ▸ h.spare_queue hfree
      · exact absurd (Function.update_of_ne ha _ _) hl
    | cell a => exact absurd rfl hl
  · intro l hl
    cases l with
    | slot k => exact h.spare (hslot k (by simpa [Memory.Owns, Pc.slots] using hl))
    | queue a =>
      obtain ⟨q', hq, hfls⟩ := hl
      obtain rfl := Option.some.inj hq
      have hself : Function.update m.fls q (some addr) q = some addr := Function.update_self _ _ _
      obtain rfl := Option.some.inj (hself.symm.trans hfls)
      exact h.spare_queue hfree
    | cell a =>
      obtain ⟨st', hst, -⟩ := hl
      cases hst
  · refine ⟨?_, fun q' hq => ?_, nofun⟩
    · have hnodup := (h.sound id).nodup
      rwa [hpc] at hnodup
    · obtain rfl := Option.some.inj hq
      have hself : Function.update m.queue addr (some mem) addr = some mem :=
        Function.update_self _ _ _
      exact ⟨addr, Function.update_self _ _ _, congrArg Option.isSome hself⟩

/-- A fiber whose queue is at `a` writes to it and to its second slot, and from then on finds the
state of its cell at `c`, if at all. -/
theorem Private.write {p : Pc} {slot : Option ℕ} {cell : ℕ → Option (LpState ℚ × Heap ℕ)}
    (h : Private m pc) (hslots : (pc id).slots = [q, st]) (hqueue : (pc id).queueSlot = some q)
    (ha : m.fls q = some a) (hp : p.slots = [q, st]) (hp' : p.queueSlot = some q)
    (hst : p.stateSlot = some st) (hcell : ∀ c, slot = some c → (cell c).isSome)
    (hspare : ∀ c, slot = some c → Spare m pc id (.cell c))
    (hframe : ∀ c, slot ≠ some c → cell c = m.cell c) :
    Advances m { fls := Function.update m.fls st slot
                 queue := Function.update m.queue a (some queue)
                 cell := cell } pc id p := by
  have hne : q ≠ st := by
    have hnodup := (h.sound id).nodup
    rw [hslots] at hnodup
    simpa using hnodup
  have hfls : Function.update m.fls st slot q = some a := by
    rw [Function.update_of_ne hne, ha]
  have hslot : ∀ k ∈ p.slots, m.Owns (pc id) (.slot k) := by
    intro k hk
    show k ∈ (pc id).slots
    rwa [hslots, ← hp]
  have hown : m.Owns (pc id) (.queue a) := ⟨q, hqueue, ha⟩
  constructor
  · intro l hl
    cases l with
    | slot k =>
      by_cases hk : k = st
      · exact h.spare (hslot k (by rw [hp, hk]; simp))
      · exact absurd (Function.update_of_ne hk _ _) hl
    | queue c =>
      by_cases hc : c = a
      · exact hc ▸ h.spare hown
      · exact absurd (Function.update_of_ne hc _ _) hl
    | cell c =>
      by_cases hc : slot = some c
      · exact hspare c hc
      · exact absurd (hframe c hc) hl
  · intro l hl
    cases l with
    | slot k => exact h.spare (hslot k hl)
    | queue c =>
      obtain ⟨q', hq, hc⟩ := hl
      obtain rfl := Option.some.inj (hp'.symm.trans hq)
      obtain rfl := Option.some.inj (hfls.symm.trans hc)
      exact h.spare hown
    | cell c =>
      obtain ⟨st', hst', hc⟩ := hl
      obtain rfl := Option.some.inj (hst.symm.trans hst')
      exact hspare c ((Function.update_self st slot m.fls).symm.trans hc)
  · refine ⟨?_, fun q' hq => ?_, fun st' c hst' hc => ?_⟩
    · rw [hp]
      simpa using hne
    · obtain rfl := Option.some.inj (hp'.symm.trans hq)
      have hself : Function.update m.queue a (some queue) a = some queue :=
        Function.update_self _ _ _
      exact ⟨a, hfls, congrArg Option.isSome hself⟩
    · obtain rfl := Option.some.inj (hst.symm.trans hst')
      exact hcell c ((Function.update_self st slot m.fls).symm.trans hc)

/-- What the fiber finds afterwards. -/
theorem Memory.load_written {s : LpState ℚ} {c : ℕ}
    {cell : ℕ → Option (LpState ℚ × Heap ℕ)} (hne : q ≠ st) (ha : m.fls q = some a)
    (hstate : w.state = some s) (hcell : cell c = some (s, w.heap)) :
    Memory.load { fls := Function.update m.fls st (some c)
                  queue := Function.update m.queue a (some w.queue)
                  cell := cell } q st w.done = some w := by
  have hfls : Function.update m.fls st (some c) q = some a := by
    rw [Function.update_of_ne hne, ha]
  have hqueue : Function.update m.queue a (some w.queue) a = some w.queue :=
    Function.update_self _ _ _
  have hslot : Function.update m.fls st (some c) st = some c := Function.update_self _ _ _
  simp only [Memory.load, Memory.cellOf, hfls, hslot, hcell, Option.bind_some, hqueue, bind,
    Option.map_some, pure, ← hstate]

theorem Memory.load_started (hne : q ≠ st) (ha : m.fls q = some a) (hstate : w.state = none)
    (hheap : w.heap = fun _ => none) :
    Memory.load { fls := Function.update m.fls st none
                  queue := Function.update m.queue a (some w.queue)
                  cell := m.cell } q st w.done = some w := by
  have hfls : Function.update m.fls st none q = some a := by
    rw [Function.update_of_ne hne, ha]
  have hqueue : Function.update m.queue a (some w.queue) a = some w.queue :=
    Function.update_self _ _ _
  have hslot : Function.update m.fls st none st = none := Function.update_self _ _ _
  simp only [Memory.load, Memory.cellOf, hfls, hslot, Option.bind_some, hqueue, bind, pure,
    ← hstate, ← hheap]

end Writes

/-- A pass leaves a state, and only the first event finds none. -/
theorem state_of_iterate {id : ℕ} {m : Msg ℚ} {d : Draws ℚ} {w w' : Worker}
    (h : MainLoop.iterate id w d = .ok (m, w')) :
    (∃ s, w'.state = some s) ∧ (w.state = none → m.type = Cell.EventType.INIT) := by
  obtain ⟨e, q, out, -, -, -, hout, -, hstate⟩ := MainLoop.iterate_eq_ok h
  refine ⟨⟨_, hstate⟩, fun hnone => ?_⟩
  rw [hnone] at hout
  cases hm : m.type with
  | INIT => rfl
  | START_CALL => simp [Cell.processEvent, hm, Cell.orFault, bind, Except.bind] at hout
  | END_CALL => simp [Cell.processEvent, hm, Cell.orFault, bind, Except.bind] at hout
  | other => simp [Cell.processEvent, hm] at hout

theorem started {id : ℕ} {mem : Calqueue (Msg ℚ)} {memory : Msg ℚ} {w : Worker}
    (h : MainLoop.start id mem memory = .ok w) :
    w.state = none ∧ w.heap = (fun _ => none) ∧ w.done = false := by
  unfold MainLoop.start at h
  simp only [bind, Except.bind] at h
  split at h
  · cases h
  · split at h
    · cases h
    · cases h
      exact ⟨rfl, rfl, rfl⟩

section Loop

variable {m : Memory} {pc : ℕ → Pc} {id q st b : ℕ} {w w' : Worker} {p : Pc}

theorem Private.ne (h : Private m pc) (hslots : (pc id).slots = [q, st]) : q ≠ st := by
  have hnodup := (h.sound id).nodup
  rw [hslots] at hnodup
  simpa using hnodup

/-- `main_loop` up to the loop. -/
theorem Private.start {a : ℕ} (h : Private m pc) (hpc : pc id = .stored q st)
    (ha : m.fls q = some a) (hstate : w.state = none) (hheap : w.heap = fun _ => none)
    (hdone : w.done = false) :
    Advances m { m.setQueue q w.queue with
      fls := Function.update (m.setQueue q w.queue).fls st none } pc id (.looping q st) ∧
      Memory.load { m.setQueue q w.queue with
        fls := Function.update (m.setQueue q w.queue).fls st none } q st false = some w := by
  have hslots : (pc id).slots = [q, st] := by rw [hpc]; rfl
  rw [Memory.setQueue_eq ha]
  constructor
  · apply h.write hslots (by rw [hpc]; rfl) ha rfl rfl rfl
    · intro c hc
      cases hc
    · intro c hc
      cases hc
    · exact fun _ _ => rfl
  · rw [← hdone]
    exact Memory.load_started (h.ne hslots) ha hstate hheap

/-- A pass through the loop. -/
theorem Private.pass {ev : Msg ℚ} {d : Draws ℚ} (h : Private m pc) (hpc : pc id = .looping q st)
    (hload : m.load q st false = some w) (hstep : MainLoop.iterate id w d = .ok (ev, w'))
    (hfree : m.cell b = none) :
    Advances m (m.store q st w' (allocated ev b)) pc id (.afterPass q st w'.done) ∧
      (m.store q st w' (allocated ev b)).worker (.afterPass q st w'.done) = some w' := by
  have hslots : (pc id).slots = [q, st] := by rw [hpc]; rfl
  obtain ⟨a, ha, -, hcell, -⟩ := Memory.load_eq_some hload
  obtain ⟨⟨s, hs⟩, hinit⟩ := state_of_iterate hstep
  -- the state is at a new address, or where the fiber found it
  obtain ⟨c, hc, hspare⟩ : ∃ c, (match allocated ev b with
      | none => m.fls st
      | some b => some b) = some c ∧ Spare m pc id (.cell c) := by
    by_cases hev : ev.type = Cell.EventType.INIT
    · exact ⟨b, by rw [allocated, if_pos hev], h.spare_cell hfree⟩
    · rw [allocated, if_neg hev]
      cases hfls : m.fls st with
      | none =>
        rw [Memory.cellOf, hfls] at hcell
        exact absurd (hinit (congrArg Prod.fst (Option.some.inj hcell)).symm) hev
      | some c =>
        refine ⟨c, rfl, h.spare ?_⟩
        rw [hpc]
        exact ⟨st, rfl, hfls⟩
  rw [Memory.store_eq ha hc, hs, Memory.worker_afterPass]
  have hself : Function.update m.cell c (some (s, w'.heap)) c = some (s, w'.heap) :=
    Function.update_self _ _ _
  constructor
  · apply h.write hslots (by rw [hpc]; rfl) ha <;> try cases w'.done <;> rfl
    · intro c' hc'
      obtain rfl := Option.some.inj hc'
      exact congrArg Option.isSome hself
    · intro c' hc'
      obtain rfl := Option.some.inj hc'
      exact hspare
    · intro c' hc'
      exact Function.update_of_ne (fun he => hc' (congrArg some he.symm)) _ _
  · exact Memory.load_written (h.ne hslots) ha hs hself

end Loop

end Fibers.Testbed.Program
