import Fibers.Testbed.CellInvariant

/-!
# The bookkeeping of a cell

The counter, the bitmap, the list and the pending events of a cell say the same about its channels
after every event, in whatever order the queue hands the events back and whatever the delays.

## Main results

- `Tracked.deliver` — an event that is pending does not abort and keeps the bookkeeping
- `cell_bookkeeping` — the bookkeeping of every run
-/

namespace Fibers.Testbed.Cell

open DoublyLinked (Heap Linked)

variable {τ : Type}

/-! ## Pending events -/

/-- The channels that the pending `END_CALL` events name. -/
def endChannels (pending : List (Msg τ)) : List ℤ :=
  (pending.filter fun m => m.type = .END_CALL).map Msg.channel

/-- The number of pending `START_CALL` events. -/
def startCalls (pending : List (Msg τ)) : ℕ := pending.countP fun m => m.type = .START_CALL

/-- The channels of a list of nodes, as events name them. -/
def channelsOf (l : List (ℕ × ℕ)) : List ℤ := l.map fun y => (y.2 : ℤ)

section Pending

variable {before after : List (Msg τ)} {m : Msg τ}

theorem endChannels_append (p q : List (Msg τ)) :
    endChannels (p ++ q) = endChannels p ++ endChannels q := by
  simp [endChannels]

theorem startCalls_append (p q : List (Msg τ)) :
    startCalls (p ++ q) = startCalls p + startCalls q :=
  List.countP_append

theorem endChannels_take_start (h : m.type = .START_CALL) :
    endChannels (before ++ m :: after) = endChannels (before ++ after) := by
  simp [endChannels, h]

theorem endChannels_take_end (h : m.type = .END_CALL) :
    (endChannels (before ++ m :: after)).Perm (m.channel :: endChannels (before ++ after)) := by
  have hm : endChannels (m :: after) = m.channel :: endChannels after := by
    simp [endChannels, h]
  rw [endChannels_append, endChannels_append, hm]
  exact List.perm_middle

theorem startCalls_take_start (h : m.type = .START_CALL) :
    startCalls (before ++ m :: after) = startCalls (before ++ after) + 1 := by
  have hm : startCalls (m :: after) = startCalls after + 1 := by
    simp [startCalls, h]
  rw [startCalls_append, startCalls_append, hm]
  rfl

theorem startCalls_take_end (h : m.type = .END_CALL) :
    startCalls (before ++ m :: after) = startCalls (before ++ after) := by
  have hm : startCalls (m :: after) = startCalls after := by
    simp [startCalls, h]
  rw [startCalls_append, startCalls_append, hm]

end Pending

/-! ## Events -/

/-- The bookkeeping of a running cell. -/
structure Tracked (s : LpState τ) (H : Heap ℕ) (pending : List (Msg τ)) (l : List (ℕ × ℕ)) :
    Prop where
  channels : Channels s H l
  counter : s.channelCounter.toNat + l.length = channelsPerCell
  ends : (endChannels pending).Perm (channelsOf l)
  starts : startCalls pending = 1
  kinds : ∀ m ∈ pending, m.type = .START_CALL ∨ m.type = .END_CALL

/-- What an event adds to the counters of calls, with `n` busy channels before and `n'` after it. -/
inductive Counted (s s' : LpState τ) : EventType → ℕ → ℕ → Prop
  | blocked {n : ℕ} (hc : s.channelCounter = 0) (ha : s'.arrivingCalls = s.arrivingCalls + 1)
      (hb : s'.blockedOnSetup = s.blockedOnSetup + 1)
      (hd : s'.completeCalls = s.completeCalls) : Counted s s' .START_CALL n n
  | started {n : ℕ} (hc : s.channelCounter ≠ 0) (ha : s'.arrivingCalls = s.arrivingCalls + 1)
      (hb : s'.blockedOnSetup = s.blockedOnSetup)
      (hd : s'.completeCalls = s.completeCalls) : Counted s s' .START_CALL n (n + 1)
  | completed {n : ℕ} (ha : s'.arrivingCalls = s.arrivingCalls)
      (hb : s'.blockedOnSetup = s.blockedOnSetup)
      (hd : s'.completeCalls = s.completeCalls + 1) : Counted s s' .END_CALL (n + 1) n

section Events

variable [Add τ] {s : LpState τ} {H : Heap ℕ} {l : List (ℕ × ℕ)}

/-- A call that arrives: it is blocked, or it gets a channel and the event that ends it. -/
theorem startCall_spec (h : Channels s H l)
    (hcounter : s.channelCounter.toNat + l.length = channelsPerCell) (me : ℕ) (now : τ)
    {d : Draws τ} (ha : H d.addr = none) :
    ∃ out l', startCall me now s H d = .ok out ∧ Channels out.state out.heap l' ∧
      out.state.channelCounter.toNat + l'.length = channelsPerCell ∧
      channelsOf l' = endChannels out.put ++ channelsOf l ∧ startCalls out.put = 1 ∧
      (∀ m ∈ out.put, m.type = .START_CALL ∨ m.type = .END_CALL) ∧
      Counted s out.state .START_CALL l.length l'.length := by
  unfold startCall
  by_cases hzero : s.channelCounter = 0
  · refine ⟨_, l, if_pos hzero, ⟨h.perCell, h.linked, h.nodup, h.ids_nodup, h.ids⟩, hcounter, rfl,
      rfl, ?_, .blocked hzero rfl rfl rfl⟩
    intro m hm
    obtain rfl := List.mem_singleton.mp hm
    exact .inl rfl
  · have hclear := h.clearBits_add_length
    have hpos : 0 < s.channelCounter.toNat := by
      refine Nat.pos_of_ne_zero fun hz => hzero ?_
      exact BitVec.eq_of_toNat_eq hz
    have hless : (s.channelCounter - 1).toNat + 1 = s.channelCounter.toNat := by
      have hlt := s.channelCounter.isLt
      rw [BitVec.toNat_sub]
      show (2 ^ 32 - 1 + s.channelCounter.toNat) % 2 ^ 32 + 1 = _
      omega
    have hstate : Channels { s with
        arrivingCalls := s.arrivingCalls + 1
        channelCounter := s.channelCounter - 1 } H l :=
      ⟨h.perCell, h.linked, h.nodup, h.ids_nodup, h.ids⟩
    obtain ⟨H', index, halloc, hchannels⟩ := hstate.allocation
      (show 0 < clearBits s by omega) ha
    refine ⟨_, (d.addr, index) :: l, (if_neg hzero).trans (bind_of_ok halloc rfl), hchannels, ?_, rfl,
      rfl, ?_, .started hzero rfl rfl rfl⟩
    · show (s.channelCounter - 1).toNat + (l.length + 1) = channelsPerCell
      omega
    · intro m hm
      simp only [List.mem_cons, List.not_mem_nil, or_false] at hm
      obtain rfl | rfl := hm
      · exact .inr rfl
      · exact .inl rfl

omit [Add τ] in
/-- A call that ends gives its channel back. -/
theorem endCall_spec (h : Channels s H l)
    (hcounter : s.channelCounter.toNat + l.length = channelsPerCell) {ch : ℤ}
    (hch : ch ∈ channelsOf l) :
    ∃ out l', endCall ch s H = .ok out ∧ Channels out.state out.heap l' ∧
      out.state.channelCounter.toNat + l'.length = channelsPerCell ∧
      (channelsOf l).Perm (ch :: channelsOf l') ∧ out.put = [] ∧
      Counted s out.state .END_CALL l.length l'.length := by
  obtain ⟨y, hy, rfl⟩ := List.mem_map.mp hch
  have hstate : Channels { s with
      channelCounter := s.channelCounter + 1
      completeCalls := s.completeCalls + 1 } H l :=
    ⟨h.perCell, h.linked, h.nodup, h.ids_nodup, h.ids⟩
  obtain ⟨H', p, before, z, after, rfl, hz, hdealloc, hchannels⟩ :=
    hstate.deallocation (List.mem_map_of_mem hy)
  have hlen : (before ++ z :: after).length = (before ++ after).length + 1 := by
    simp
    omega
  refine ⟨_, before ++ after, bind_of_ok hdealloc rfl, hchannels, ?_, ?_, rfl, ?_⟩
  · have hbound : channelsPerCell = 1000 := rfl
    show (s.channelCounter + 1).toNat + (before ++ after).length = channelsPerCell
    rw [BitVec.toNat_add]
    show (s.channelCounter.toNat + 1) % 2 ^ 32 + _ = _
    omega
  · rw [← hz]
    exact List.perm_middle.map _
  · rw [hlen]
    exact .completed rfl rfl rfl

omit [Add τ] in
/-- The time of an event and the number of events do not matter. -/
theorem Counted.congr {s' t : LpState τ} {k : EventType} {n n' : ℕ} (h : Counted s s' k n n')
    (hc : t.channelCounter = s.channelCounter) (ha : t.arrivingCalls = s.arrivingCalls)
    (hb : t.blockedOnSetup = s.blockedOnSetup) (hd : t.completeCalls = s.completeCalls) :
    Counted t s' k n n' := by
  cases h with
  | blocked hc' ha' hb' hd' =>
    exact .blocked (hc.trans hc') (by rw [ha', ha]) (by rw [hb', hb]) (hd'.trans hd.symm)
  | started hc' ha' hb' hd' =>
    exact .started (fun h => hc' (hc.symm.trans h)) (by rw [ha', ha]) (hb'.trans hb.symm)
      (hd'.trans hd.symm)
  | completed ha' hb' hd' =>
    exact .completed (ha'.trans ha.symm) (hb'.trans hb.symm) (by rw [hd', hd])

theorem Tracked.deliver {before after : List (Msg τ)} {m : Msg τ}
    (ht : Tracked s H (before ++ m :: after) l) {d : Draws τ} (hd : H d.addr = none) :
    ∃ out l', processEvent m (some s) H d = .ok out ∧
      Tracked out.state out.heap (before ++ after ++ out.put) l' ∧
      Counted s out.state m.type l.length l'.length := by
  have hchannels : Channels { s with
      lvt := some m.timestamp
      executedEvents := s.executedEvents + 1 } H l :=
    ⟨ht.channels.perCell, ht.channels.linked, ht.channels.nodup, ht.channels.ids_nodup,
      ht.channels.ids⟩
  have hkinds : ∀ k ∈ before ++ after, k.type = .START_CALL ∨ k.type = .END_CALL := by
    intro k hk
    refine ht.kinds k ?_
    obtain hk | hk := List.mem_append.mp hk
    · exact List.mem_append_left _ hk
    · exact List.mem_append_right _ (List.mem_cons_of_mem _ hk)
  obtain hm | hm := ht.kinds m (by simp)
  · obtain ⟨out, l', hout, hchannels', hcounter, hends, hstarts, hput, hcounted⟩ :=
      startCall_spec hchannels ht.counter m.receiver m.timestamp hd
    refine ⟨out, l', ?_, ⟨hchannels', hcounter, ?_, ?_, ?_⟩, ?_⟩
    · simp only [processEvent, hm, Option.map_some]
      exact bind_of_ok rfl hout
    · have hbefore := ht.ends
      rw [endChannels_take_start hm] at hbefore
      rw [endChannels_append, hends]
      exact (hbefore.append_right _).trans List.perm_append_comm
    · have hbefore := ht.starts
      rw [startCalls_take_start hm] at hbefore
      rw [startCalls_append, hstarts, hbefore]
    · intro k hk
      obtain hk | hk := List.mem_append.mp hk
      · exact hkinds k hk
      · exact hput k hk
    · rw [hm]
      exact hcounted.congr rfl rfl rfl rfl
  · have hperm := (endChannels_take_end hm).symm.trans ht.ends
    have hch : m.channel ∈ channelsOf l := hperm.mem_iff.mp List.mem_cons_self
    obtain ⟨out, l', hout, hchannels', hcounter, hends, hput, hcounted⟩ :=
      endCall_spec hchannels ht.counter hch
    refine ⟨out, l', ?_, ?_, ?_⟩
    · simp only [processEvent, hm, Option.map_some]
      exact bind_of_ok rfl hout
    · rw [hput, List.append_nil]
      refine ⟨hchannels', hcounter, (List.perm_cons _).mp (hperm.trans hends), ?_, hkinds⟩
      rw [← startCalls_take_end hm]
      exact ht.starts
    · rw [hm]
      exact hcounted.congr rfl rfl rfl rfl

end Events

/-! ## Runs -/

/-- What happened to a cell. -/
abbrev History (τ : Type) := List (Entry (Config τ) (Msg τ × Draws τ))

/-- The calls that arrived. -/
def arrivals (h : History τ) : ℕ := h.countP fun e => e.act.1.type = .START_CALL

/-- The calls that arrived while no channel was free. -/
def blockedCalls (h : History τ) : ℕ :=
  h.countP fun e => e.act.1.type = .START_CALL ∧ e.pre.state.any fun s => s.channelCounter = 0

/-- The calls that ended. -/
def completedCalls (h : History τ) : ℕ := h.countP fun e => e.act.1.type = .END_CALL

/-- The counters of a cell, and `n` calls under way. -/
structure Counts (h : History τ) (s : LpState τ) (n : ℕ) : Prop where
  calls : arrivals h = blockedCalls h + completedCalls h + n
  arriving : s.arrivingCalls = BitVec.ofNat 32 (arrivals h)
  blocked : s.blockedOnSetup = BitVec.ofNat 32 (blockedCalls h)
  complete : s.completeCalls = BitVec.ofNat 32 (completedCalls h)

section Counting

variable {h : History τ} {c c' : Config τ} {m : Msg τ} {d : Draws τ}

theorem arrivals_start (hm : m.type = .START_CALL) :
    arrivals (⟨c, (m, d), c'⟩ :: h) = arrivals h + 1 := by
  simp [arrivals, hm]

theorem arrivals_end (hm : m.type = .END_CALL) : arrivals (⟨c, (m, d), c'⟩ :: h) = arrivals h := by
  simp [arrivals, hm]

theorem completedCalls_start (hm : m.type = .START_CALL) :
    completedCalls (⟨c, (m, d), c'⟩ :: h) = completedCalls h := by
  simp [completedCalls, hm]

theorem completedCalls_end (hm : m.type = .END_CALL) :
    completedCalls (⟨c, (m, d), c'⟩ :: h) = completedCalls h + 1 := by
  simp [completedCalls, hm]

theorem blockedCalls_start {s : LpState τ} (hm : m.type = .START_CALL) (hc : c.state = some s) :
    blockedCalls (⟨c, (m, d), c'⟩ :: h) =
      blockedCalls h + if s.channelCounter = 0 then 1 else 0 := by
  simp [blockedCalls, List.countP_cons, hm, hc]

theorem blockedCalls_end (hm : m.type = .END_CALL) :
    blockedCalls (⟨c, (m, d), c'⟩ :: h) = blockedCalls h := by
  simp [blockedCalls, hm]

theorem Counts.next {s s' : LpState τ} {n n' : ℕ} (hi : Counts h s n) (hc : c.state = some s)
    (hs : Counted s s' m.type n n') : Counts (⟨c, (m, d), c'⟩ :: h) s' n' := by
  have hcalls := hi.calls
  have hone : ∀ k : ℕ, BitVec.ofNat 32 k + 1 = BitVec.ofNat 32 (k + 1) := fun k =>
    (BitVec.ofNat_add k 1).symm
  generalize hm : m.type = k at hs
  cases hs with
  | blocked hzero ha hb hd =>
    have hblocked : blockedCalls (⟨c, (m, d), c'⟩ :: h) = blockedCalls h + 1 := by
      rw [blockedCalls_start hm hc, if_pos hzero]
    constructor
    · rw [arrivals_start hm, hblocked, completedCalls_start hm]
      omega
    · rw [ha, hi.arriving, arrivals_start hm, hone]
    · rw [hb, hi.blocked, hblocked, hone]
    · rw [hd, hi.complete, completedCalls_start hm]
  | started hzero ha hb hd =>
    have hblocked : blockedCalls (⟨c, (m, d), c'⟩ :: h) = blockedCalls h := by
      rw [blockedCalls_start hm hc, if_neg hzero, Nat.add_zero]
    constructor
    · rw [arrivals_start hm, hblocked, completedCalls_start hm]
      omega
    · rw [ha, hi.arriving, arrivals_start hm, hone]
    · rw [hb, hi.blocked, hblocked]
    · rw [hd, hi.complete, completedCalls_start hm]
  | completed ha hb hd =>
    constructor
    · rw [arrivals_end hm, blockedCalls_end hm, completedCalls_end hm]
      omega
    · rw [ha, hi.arriving, arrivals_end hm]
    · rw [hb, hi.blocked, blockedCalls_end hm]
    · rw [hd, hi.complete, completedCalls_end hm, hone]

end Counting

/-! ## The first event -/

theorem busy_initialState (memory : ℕ → BitVec bits) {i : ℕ} (hi : i < channelsPerCell) :
    busy (initialState memory : LpState τ) i = false := by
  have hword : i / bits < channelsPerCell / bits + 1 :=
    Nat.lt_succ_of_le (Nat.div_le_div_right hi.le)
  show BitVec.getLsbD (if i / bits < channelsPerCell / bits + 1 then 0 else memory (i / bits)) _ = _
  rw [if_pos hword]
  exact BitVec.getLsbD_zero

theorem channels_initialState (memory : ℕ → BitVec bits) (H : Heap ℕ) :
    Channels (initialState memory : LpState τ) H [] where
  perCell := rfl
  linked := rfl
  nodup := List.nodup_nil
  ids_nodup := List.nodup_nil
  ids := fun i => by
    refine iff_of_false List.not_mem_nil fun hi => ?_
    have hbusy := hi.2
    rw [busy_initialState memory hi.1] at hbusy
    cases hbusy

theorem tracked_initialState (me : ℕ) (d : Draws τ) (H : Heap ℕ) :
    Tracked (initialState d.memory) H [packEvent me .START_CALL d.first (-1)] [] where
  channels := channels_initialState d.memory H
  counter := rfl
  ends := List.Perm.refl _
  starts := rfl
  kinds := fun m hm => by
    obtain rfl := List.mem_singleton.mp hm
    exact .inl rfl

/-- The state before the first event, or a cell whose bookkeeping is right. -/
def CellInv (me : ℕ) (stamp : τ) (h : History τ) (c : Config τ) : Prop :=
  (h = [] ∧ c = .start me stamp) ∨
    ∃ s l, c.state = some s ∧ Tracked s c.heap c.pending l ∧ Counts h s l.length

variable [Add τ]

theorem cellInv_of_run {me : ℕ} {stamp : τ} {h : History τ} {c : Config τ}
    (hr : Run EventStep (.start me stamp) h c) : CellInv me stamp h c := by
  refine hr.induct (I := fun h c => CellInv me stamp h c) (.inl ⟨rfl, rfl⟩) ?_
  rintro h c ⟨m, d⟩ c' _ hi hs
  right
  cases hs with
  | @deliver state H before after m d out hd hout =>
    obtain ⟨rfl, hstart⟩ | ⟨s, l, hstate, htracked, hcounts⟩ := hi
    · obtain ⟨rfl, rfl, hpending⟩ := Config.mk.inj hstart
      obtain ⟨rfl, rfl, rfl⟩ : before = [] ∧ m = packEvent me .INIT stamp (-1) ∧ after = [] := by
        obtain ⟨rfl, htail⟩ | ⟨-, htail⟩ := List.append_eq_singleton_iff.mp hpending
        · obtain ⟨rfl, rfl⟩ := List.cons.inj htail
          exact ⟨rfl, rfl, rfl⟩
        · cases htail
      cases hout
      exact ⟨_, [], rfl, tracked_initialState me d _, ⟨rfl, rfl, rfl, rfl⟩⟩
    · obtain rfl : state = some s := hstate
      obtain ⟨out', l', hout', htracked', hcounted⟩ := htracked.deliver hd
      obtain rfl : out = out' := Except.ok.inj (hout.symm.trans hout')
      exact ⟨out.state, l', rfl, htracked', hcounts.next rfl hcounted⟩

/-! ## The bookkeeping -/

/-- The counter, the bitmap, the list `l` in the heap and the pending events of a cell agree, and its
counters of calls count what happened. -/
structure Consistent (h : History τ) (c : Config τ) (s : LpState τ) (l : List (ℕ × ℕ)) : Prop where
  counter : s.channelCounter.toNat = clearBits s
  linked : Linked c.heap none s.channels l none
  nodes : (l.map Prod.snd).Nodup ∧ ∀ i, i ∈ l.map Prod.snd ↔ i < channelsPerCell ∧ busy s i = true
  ends : (endChannels c.pending).Nodup ∧
    ∀ z, z ∈ endChannels c.pending ↔ ∃ i : ℕ, z = i ∧ i < channelsPerCell ∧ busy s i = true
  start : startCalls c.pending = 1
  calls : arrivals h = blockedCalls h + completedCalls h + (channelsPerCell - clearBits s)
  arriving : s.arrivingCalls = BitVec.ofNat 32 (arrivals h)
  blocked : s.blockedOnSetup = BitVec.ofNat 32 (blockedCalls h)
  complete : s.completeCalls = BitVec.ofNat 32 (completedCalls h)

omit [Add τ] in
theorem Tracked.consistent {s : LpState τ} {l : List (ℕ × ℕ)} {h : History τ} {c : Config τ}
    (ht : Tracked s c.heap c.pending l) (hn : Counts h s l.length) : Consistent h c s l := by
  have hclear := ht.channels.clearBits_add_length
  have hcounter := ht.counter
  have hids := ht.channels.ids
  have hchannels : channelsOf l = (l.map Prod.snd).map fun i : ℕ => (i : ℤ) := by
    rw [channelsOf, List.map_map]
    rfl
  refine ⟨by omega, ht.channels.linked, ⟨ht.channels.ids_nodup, hids⟩, ⟨?_, fun z => ?_⟩,
    ht.starts, ?_, hn.arriving, hn.blocked, hn.complete⟩
  · rw [ht.ends.nodup_iff, hchannels]
    exact ht.channels.ids_nodup.map Nat.cast_injective
  · rw [ht.ends.mem_iff, hchannels, List.mem_map]
    constructor
    · rintro ⟨i, hi, rfl⟩
      exact ⟨i, rfl, (hids i).mp hi⟩
    · rintro ⟨i, rfl, hi⟩
      exact ⟨i, (hids i).mpr hi, rfl⟩
  · rw [hn.calls]
    omega

/-- In every run of a cell from its first event on, after every event the bookkeeping is consistent,
and whichever pending event comes next is handled without an abort. -/
theorem cell_bookkeeping {me : ℕ} {stamp : τ} {h : History τ} {c : Config τ}
    (hr : Run EventStep (.start me stamp) h c) :
    (h ≠ [] → ∃ s l, c.state = some s ∧ Consistent h c s l) ∧
    ∀ m ∈ c.pending, ∀ d : Draws τ, c.heap d.addr = none →
      ∃ out, processEvent m c.state c.heap d = .ok out := by
  obtain ⟨rfl, rfl⟩ | ⟨s, l, hstate, htracked, hcounts⟩ := cellInv_of_run hr
  · refine ⟨fun hne => absurd rfl hne, fun m hm d _ => ?_⟩
    obtain rfl := List.mem_singleton.mp hm
    exact ⟨_, rfl⟩
  · refine ⟨fun _ => ⟨s, l, hstate, htracked.consistent hcounts⟩, fun m hm d hd => ?_⟩
    obtain ⟨before, after, hpending⟩ := List.append_of_mem hm
    rw [hpending] at htracked
    obtain ⟨out, l', hout, -⟩ := htracked.deliver hd
    rw [hstate]
    exact ⟨out, hout⟩

/-! ## A run with three calls -/

/-- The delivery of a pending event, computed. -/
def deliver [DecidableEq τ] (c : Config τ) (a : Msg τ × Draws τ) : Option (Config τ) :=
  if a.1 ∈ c.pending ∧ c.heap a.2.addr = none then
    (processEvent a.1 c.state c.heap a.2).toOption.map fun out =>
      ⟨some out.state, out.heap, c.pending.erase a.1 ++ out.put⟩
  else none

theorem eventStep_of_deliver [DecidableEq τ] {c c' : Config τ} {a : Msg τ × Draws τ}
    (h : deliver c a = some c') : EventStep c a c' := by
  obtain ⟨state, H, pending⟩ := c
  obtain ⟨m, d⟩ := a
  rw [deliver] at h
  split at h
  case isFalse => cases h
  case isTrue hc =>
    obtain ⟨before, after, -, rfl, herase⟩ := List.exists_erase_eq hc.1
    obtain ⟨out, hout, rfl⟩ := Option.map_eq_some_iff.mp h
    cases hp : processEvent m state H d with
    | error e =>
      rw [hp] at hout
      cases hout
    | ok out' =>
      rw [hp] at hout
      cases hout
      show EventStep _ _ ⟨_, _, List.erase _ m ++ _⟩
      rw [herase]
      exact .deliver hc.2 hp

/-- A call takes 60, the next one arrives after 1. -/
def draw (addr : ℕ) : Draws ℕ := ⟨60, 1, addr, fun _ => 0⟩

/-- Three calls arrive; the second one ends, whose record lies between the other two. -/
def threeCalls : List (Msg ℕ × Draws ℕ) :=
  [(packEvent 1 .INIT 0 (-1), draw 8), (packEvent 1 .START_CALL 60 (-1), draw 8),
    (packEvent 1 .START_CALL 61 (-1), draw 16), (packEvent 1 .START_CALL 62 (-1), draw 24),
    (packEvent 1 .END_CALL 121 1, draw 32)]

theorem cell_bookkeeping_threeCalls : ∃ h c s l,
    Run EventStep (.start 1 0) h c ∧
      h.map (fun e => e.act.1) = (threeCalls.map Prod.fst).reverse ∧
      endChannels c.pending = [0, 2] ∧ c.state = some s ∧ Consistent h c s l ∧
      ∀ m ∈ c.pending, ∃ out, processEvent m c.state c.heap (draw 32) = .ok out := by
  obtain ⟨h, c, he, hc⟩ := Run.exists_execute deliver (.start 1 0) threeCalls
    (fun h c => decide (h.map (fun e => e.act.1) = (threeCalls.map Prod.fst).reverse ∧
      endChannels c.pending = [0, 2] ∧ (c.heap 32).isNone)) (by decide +kernel)
  obtain ⟨hacts, hends, hfree⟩ := of_decide_eq_true hc
  have hr : Run EventStep (.start 1 0) h c :=
    (Run.of_execute threeCalls .start he).mono (fun _ _ _ => eventStep_of_deliver)
  obtain ⟨hconsistent, hhandled⟩ := cell_bookkeeping hr
  have hne : h ≠ [] := by
    rintro rfl
    cases hacts
  obtain ⟨s, l, hstate, hs⟩ := hconsistent hne
  have hnone : c.heap (draw 32).addr = none := Option.isNone_iff_eq_none.mp hfree
  exact ⟨h, c, s, l, hr, hacts, hends, hstate, hs, fun m hm => hhandled m hm (draw 32) hnone⟩

end Fibers.Testbed.Cell
