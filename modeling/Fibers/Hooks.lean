import Fibers.ProcDirectory

/-!
# The hooks of `/proc/<pid>`

`probes.c` hooks the kernel's listing and lookup of a process's directory. On the return of each it
runs the kernel's own function a second time over the one-element array `fibers_dir`, from a
pointer moved back by `nents - 2` entries and with the length `nents - 1`, both `unsigned int`s.
`nents` is the position at which the first listing returned.

Positions 0 and 1 of a listing are the dots, and position `p` is entry `p - 2` of the array. An
entry is examined as long as there is room in the caller's buffer. A lookup starts at the first
entry instead, which for `nents > 2` lies before `fibers_dir`.

## Main results

- `fibers_listed_once` — when complete listings hold the directory and every other entry once
- `handler_lookup_resolves` — when a lookup stays inside `fibers_dir` and resolves its name
-/

namespace Fibers

/-! ## The second run -/

/-- The value of an `int` as an `unsigned int`. -/
def unsigned (z : ℤ) : ℤ := z % 2 ^ 32

/-- What a listing returns: the dots, an entry of the array that the kernel lists, or the entry at
an offset from `fibers_dir`. -/
inductive Listed
  | dot
  | dotdot
  | base (i : ℤ)
  | fibersDir (j : ℤ)
  deriving DecidableEq

/-- The position of a listing and how many entries the caller's buffer has room for. -/
structure DirContext where
  pos : ℕ
  room : ℕ

def dirItem (ents : ℤ → Listed) : ℕ → Listed
  | 0 => .dot
  | 1 => .dotdot
  | p + 2 => ents p

/-- `proc_pident_readdir`. -/
def procPidentReaddir (ctx : DirContext) (ents : ℤ → Listed) (nents : ℕ) :
    List Listed × DirContext :=
  let items := EntryTable.fill (dirItem ents) (nents + 2) ctx.pos ctx.room
  (items, ⟨ctx.pos + items.length, ctx.room - items.length⟩)

/-- `handler_readdir` for a process with the group `tg`. -/
def handlerReaddir (tg : Option ThreadGroup) (nents : ℤ) (ctx : DirContext) :
    ℤ × List Listed × DirContext :=
  let nents := if nents = 0 then wrap32 ctx.pos else nents
  match tg with
  | none => (nents, [], ctx)
  | some _ =>
    let pos := unsigned nents
    (nents, procPidentReaddir ctx (fun i => .fibersDir (i - unsigned (pos - 2)))
      (unsigned (pos - 1)).toNat)

def fibersDirEntry : PidEntry where
  name := some "fibers"
  len := 6
  mode := S_IFDIR ||| (S_IRUGO ||| S_IXUGO)
  iop := some .fibersIops
  fop := some .fibersFops

/-- The entry at an offset from `fibers_dir`, with what lies around it. -/
def fibersDir (around : ℤ → PidEntry) (j : ℤ) : PidEntry := if j = 0 then fibersDirEntry else around j

/-- `handler_lookup`: the offsets that `proc_pident_lookup` examines, and the one that it
resolves the name to. -/
def handlerLookup (around : ℤ → PidEntry) (tg : Option ThreadGroup) (nents : ℤ) (name : String) :
    List ℤ × Option ℤ :=
  match tg with
  | none => ([], none)
  | some _ =>
    if nents = 0 then ([], none)
    else
      let pos := unsigned nents
      EntryTable.scan (fun j => (fibersDir around j).hits name) (-unsigned (pos - 2))
        (unsigned (pos - 1)).toNat

/-! ## Calls -/

/-- `nents`, and the position of every open directory of a process. -/
structure HookState (δ : Type*) where
  nents : ℤ
  pos : δ → ℕ

def HookState.start (δ : Type*) : HookState δ := ⟨0, fun _ => 0⟩

/-- A read of the open directory `d` into a buffer with room for `room` entries, or a lookup, for a
process with the group `tg`. -/
inductive HookCall (δ : Type*)
  | readdir (d : δ) (tg : Option ThreadGroup) (room : ℕ)
  | lookup (tg : Option ThreadGroup) (name : String)

/-- What a read returns, and the state and the room that it leaves. -/
structure Reading (δ : Type*) where
  items : List Listed
  state : HookState δ
  room : ℕ

variable {δ : Type*} [DecidableEq δ]

/-- A read of a directory: the kernel's listing of its `N` entries, and then the hook. -/
def readDirectory (N : ℕ) (s : HookState δ) (d : δ) (tg : Option ThreadGroup) (room : ℕ) :
    Reading δ :=
  let (base, ctx) := procPidentReaddir ⟨s.pos d, room⟩ .base N
  let (nents, hooked, ctx) := handlerReaddir tg s.nents ctx
  ⟨base ++ hooked, ⟨nents, Function.update s.pos d ctx.pos⟩, ctx.room⟩

def HookCall.apply (N : ℕ) (s : HookState δ) : HookCall δ → HookState δ
  | .readdir d tg room => (readDirectory N s d tg room).state
  | .lookup _ _ => s

def HookStep (N : ℕ) (s : HookState δ) (a : HookCall δ) (s' : HookState δ) : Prop :=
  some (a.apply N s) = some s'

/-- What the entry of a history adds to the listing of `d`. -/
def listedBy (N : ℕ) (d : δ) (e : Entry (HookState δ) (HookCall δ)) : List Listed :=
  match e.act with
  | .readdir d' tg room => if d' = d then (readDirectory N e.pre d' tg room).items else []
  | .lookup _ _ => []

/-- Everything that the reads of `d` have returned. -/
def listing (N : ℕ) (d : δ) : List (Entry (HookState δ) (HookCall δ)) → List Listed
  | [] => []
  | e :: past => listing N d past ++ listedBy N d e

/-! ## One read -/

theorem unsigned_wrap32 {n : ℕ} (h : n < 2 ^ 32) : unsigned (wrap32 n) = n := by
  have hmod : wrap32 n % (2 ^ 32 : ℕ) = (n : ℤ) % (2 ^ 32 : ℕ) := Int.bmod_emod
  unfold unsigned
  omega

theorem wrap32_inj {m n : ℕ} (hm : m < 2 ^ 32) (hn : n < 2 ^ 32) (h : wrap32 m = wrap32 n) :
    m = n := by
  have hu := congrArg unsigned h
  rw [unsigned_wrap32 hm, unsigned_wrap32 hn] at hu
  exact_mod_cast hu

theorem wrap32_ne_zero {n : ℕ} (h₀ : 0 < n) (h : n < 2 ^ 32) : wrap32 n ≠ 0 := by
  intro hz
  exact h₀.ne (wrap32_inj (m := 0) (by decide) h (hz.trans (by decide)).symm)

/-- What is at position `p` of a complete listing. -/
def wholeItem (N p : ℕ) : Listed := if p = N + 2 then .fibersDir 0 else dirItem .base p

/-- The first `p` items of a complete listing. -/
def firstItems (N p : ℕ) : List Listed := (List.range' 0 p).map (wholeItem N)

/-- The position at which a listing ends. -/
def endPos (N : ℕ) (tg : Option ThreadGroup) (nents : ℤ) : ℕ :=
  if tg.isSome ∧ nents = wrap32 (N + 2 : ℕ) then N + 3 else N + 2

theorem dirItem_base {N p : ℕ} (h : p < N + 2) : dirItem .base p = wholeItem N p := by
  rw [wholeItem, if_neg h.ne]

theorem map_dirItem_base {N p k : ℕ} (h : p + k ≤ N + 2) :
    (List.range' p k).map (dirItem .base) = (List.range' p k).map (wholeItem N) := by
  apply List.map_congr_left
  intro q hq
  have hlt := (List.mem_range'_1.mp hq).2
  exact dirItem_base (by omega)

theorem procPidentReaddir_eq {ctx : DirContext} {ents : ℤ → Listed} {n : ℕ} {l : List Listed}
    (h : (procPidentReaddir ctx ents n).1 = l) :
    procPidentReaddir ctx ents n = (l, ⟨ctx.pos + l.length, ctx.room - l.length⟩) := by
  subst h
  rfl

/-- With room left after the kernel's listing, the hook lists `fibers_dir` if `nents` is the
position of the end, and the listing is there. -/
theorem hooked_items {N Q : ℕ} (hN : N + 2 < 2 ^ 32) (hQ : Q ≤ N + 2) {ctx : DirContext}
    (hroom : 0 < ctx.room → N + 2 ≤ ctx.pos ∧ 0 < Q) :
    (procPidentReaddir ctx (fun i => .fibersDir (i - unsigned (unsigned (wrap32 Q) - 2)))
      (unsigned (unsigned (wrap32 Q) - 1)).toNat).1 =
      (List.range' ctx.pos (min ctx.room (if Q = N + 2 then N + 3 - ctx.pos else 0))).map
        (wholeItem N) := by
  have hu : unsigned (wrap32 Q) = Q := unsigned_wrap32 (by omega)
  show EntryTable.fill _ _ ctx.pos ctx.room = _
  rw [EntryTable.fill_eq, hu]
  obtain hzero | hpos := Nat.eq_zero_or_pos ctx.room
  · simp [hzero]
  obtain ⟨hend, hQ₀⟩ := hroom hpos
  have hlen : (unsigned ((Q : ℤ) - 1)).toNat = Q - 1 := by
    unfold unsigned
    omega
  rw [hlen]
  have hcount : min ctx.room (Q - 1 + 2 - ctx.pos) =
      min ctx.room (if Q = N + 2 then N + 3 - ctx.pos else 0) := by
    split <;> omega
  rw [hcount]
  apply List.map_congr_left
  intro q hq
  split at hq
  · next hwhole =>
    have hbound := List.mem_range'_1.mp hq
    obtain rfl : q = N + 2 := by omega
    have hbase : unsigned ((Q : ℤ) - 2) = N := by
      unfold unsigned
      omega
    rw [hbase, wholeItem, if_pos rfl]
    show Listed.fibersDir ((N : ℤ) - N) = _
    rw [sub_self]
  · rw [Nat.min_zero] at hq
    exact absurd hq List.not_mem_nil

theorem endPos_wrap32 {N Q : ℕ} (hN : N + 2 < 2 ^ 32) (hQ : Q ≤ N + 2) (g : ThreadGroup) :
    endPos N (some g) (wrap32 Q) = if Q = N + 2 then N + 3 else N + 2 := by
  have hiff : wrap32 Q = wrap32 (N + 2 : ℕ) ↔ Q = N + 2 :=
    ⟨wrap32_inj (by omega) hN, fun h => by rw [h]⟩
  simp only [endPos, hiff, Option.isSome_some, true_and]

/-- A read lists from where the directory stands to where its listing ends, if there is room. -/
theorem readDirectory_eq {N Q : ℕ} (hN : N + 2 < 2 ^ 32) (hQ : Q ≤ N + 2) {s : HookState δ} {d : δ}
    (tg : Option ThreadGroup) {room : ℕ} (hp : s.pos d ≤ N + 3)
    (hc : (if s.nents = 0 then wrap32 (s.pos d + min room (N + 2 - s.pos d) : ℕ) else s.nents) =
      wrap32 Q)
    (hroom : N + 2 < s.pos d + room → 0 < Q) :
    readDirectory N s d tg room =
      ⟨(List.range' (s.pos d) (min room (endPos N tg (wrap32 Q) - s.pos d))).map (wholeItem N),
        ⟨wrap32 Q, Function.update s.pos d
          (s.pos d + min room (endPos N tg (wrap32 Q) - s.pos d))⟩,
        room - min room (endPos N tg (wrap32 Q) - s.pos d)⟩ := by
  have hbase : (procPidentReaddir ⟨s.pos d, room⟩ .base N).1 =
      (List.range' (s.pos d) (min room (N + 2 - s.pos d))).map (wholeItem N) := by
    show EntryTable.fill _ _ (s.pos d) room = _
    rw [EntryTable.fill_eq]
    obtain h | h := Nat.lt_or_ge (N + 2) (s.pos d)
    · have hzero : N + 2 - s.pos d = 0 := by omega
      simp [hzero]
    · exact map_dirItem_base (by omega)
  unfold readDirectory handlerReaddir
  rw [procPidentReaddir_eq hbase, List.length_map, List.length_range']
  dsimp only
  rw [hc]
  cases tg with
  | none =>
    have hend : endPos N none (wrap32 Q) = N + 2 := if_neg (by simp)
    rw [hend, List.append_nil]
  | some g =>
    have hleft : 0 < room - min room (N + 2 - s.pos d) →
        N + 2 ≤ s.pos d + min room (N + 2 - s.pos d) ∧ 0 < Q :=
      fun hleft => ⟨by omega, hroom (by omega)⟩
    dsimp only
    rw [procPidentReaddir_eq (hooked_items hN hQ hleft), List.length_map, List.length_range',
      endPos_wrap32 hN hQ]
    dsimp only
    have hcount : min room (N + 2 - s.pos d) + min (room - min room (N + 2 - s.pos d))
        (if Q = N + 2 then N + 3 - (s.pos d + min room (N + 2 - s.pos d)) else 0) =
        min room ((if Q = N + 2 then N + 3 else N + 2) - s.pos d) := by
      split <;> omega
    rw [← List.map_append, List.range'_append_1, hcount, Nat.add_assoc, hcount, Nat.sub_sub, hcount]

/-! ## Runs -/

/-- `d` is read for processes with a group only. -/
def GroupThroughout (d : δ) (h : List (Entry (HookState δ) (HookCall δ))) : Prop :=
  ∀ e ∈ h, ∀ tg room, e.act = .readdir d tg room → tg.isSome

/-- Some read of `d` came back with room left. -/
def Complete (N : ℕ) (d : δ) (h : List (Entry (HookState δ) (HookCall δ))) : Prop :=
  ∃ e ∈ h, ∃ tg room, e.act = .readdir d tg room ∧ 0 < (readDirectory N e.pre d tg room).room

/-- A read that finds `nents` unset has room for no entry, or for the dots and all `N` entries. -/
def WholeCapture (N : ℕ) (e : Entry (HookState δ) (HookCall δ)) : Prop :=
  ∀ d tg room, e.act = .readdir d tg room → e.pre.nents = 0 →
    room = 0 ∨ N + 2 ≤ e.pre.pos d + room

/-- Where a listing for a process with a group ends when `nents` was set at position `Q`. -/
def lastPos (N Q : ℕ) : ℕ := if Q = N + 2 then N + 3 else N + 2

/-- The position at which `nents` was set after a read into a buffer with room for `room`. -/
def captured (N Q room : ℕ) : ℕ := if Q = 0 then min room (N + 2) else Q

/-- `nents` was set at position `Q`, and every directory was listed without a gap up to where it
stands. -/
structure HookInv (N : ℕ) (h : List (Entry (HookState δ) (HookCall δ))) (s : HookState δ) (Q : ℕ) :
    Prop where
  le : Q ≤ N + 2
  nents : s.nents = wrap32 Q
  unset : Q = 0 → ∀ d, s.pos d = 0
  pos_le : ∀ d, s.pos d ≤ lastPos N Q
  listed : ∀ d, listing N d h = firstItems N (s.pos d)
  whole : (∀ e ∈ h, WholeCapture N e) ↔ Q = 0 ∨ Q = N + 2
  ended : ∀ d, Complete N d h → 0 < Q ∧ (GroupThroughout d h → s.pos d = lastPos N Q)

theorem lastPos_le (N Q : ℕ) : lastPos N Q ≤ N + 3 := by
  unfold lastPos
  split <;> omega

theorem firstItems_append (N p m : ℕ) :
    firstItems N p ++ (List.range' p m).map (wholeItem N) = firstItems N (p + m) := by
  rw [firstItems, firstItems, ← List.map_append]
  congr 1
  have h := List.range'_append_1 (s := 0) (m := p) (n := m)
  rwa [Nat.zero_add] at h

section Invariant

variable {N Q : ℕ} {h : List (Entry (HookState δ) (HookCall δ))} {s : HookState δ}

omit [DecidableEq δ] in
theorem endPos_le (hN : N + 2 < 2 ^ 32) (hQ : Q ≤ N + 2) (tg : Option ThreadGroup) :
    N + 2 ≤ endPos N tg (wrap32 Q) ∧ endPos N tg (wrap32 Q) ≤ lastPos N Q := by
  cases tg with
  | none =>
    have hend : endPos N none (wrap32 Q) = N + 2 := if_neg (by simp)
    rw [hend]
    unfold lastPos
    split <;> omega
  | some g =>
    rw [endPos_wrap32 hN hQ]
    unfold lastPos
    split <;> omega

theorem HookInv.nents_eq_zero_iff (hi : HookInv N h s Q) (hN : N + 2 < 2 ^ 32) :
    s.nents = 0 ↔ Q = 0 := by
  rw [hi.nents]
  constructor
  · intro hz
    by_contra hQ
    exact wrap32_ne_zero (Nat.pos_of_ne_zero hQ) (hi.le.trans_lt hN) hz
  · rintro rfl
    rfl

/-- What a read does in a state that the invariant describes. -/
theorem HookInv.reading (hi : HookInv N h s Q) (hN : N + 2 < 2 ^ 32) (d : δ)
    (tg : Option ThreadGroup) (room : ℕ) :
    ∃ m, m = min room (endPos N tg (wrap32 (captured N Q room)) - s.pos d) ∧
      readDirectory N s d tg room = ⟨(List.range' (s.pos d) m).map (wholeItem N),
        ⟨wrap32 (captured N Q room), Function.update s.pos d (s.pos d + m)⟩, room - m⟩ := by
  refine ⟨_, rfl, readDirectory_eq hN ?_ tg ((hi.pos_le d).trans (lastPos_le N Q)) ?_ ?_⟩
  · have hle := hi.le
    unfold captured
    split <;> omega
  · simp only [hi.nents_eq_zero_iff hN, captured]
    split
    · next hQ => rw [hi.unset hQ d, Nat.zero_add, Nat.sub_zero]
    · exact hi.nents
  · intro hroom
    unfold captured
    split
    · next hQ =>
      have hzero := hi.unset hQ d
      omega
    · next hQ => exact Nat.pos_of_ne_zero hQ

theorem hookInv_start : HookInv N ([] : List (Entry (HookState δ) (HookCall δ))) (.start δ) 0 where
  le := Nat.zero_le _
  nents := rfl
  unset := fun _ _ => rfl
  pos_le := fun _ => Nat.zero_le _
  listed := fun _ => rfl
  whole := iff_of_true (fun e he => absurd he List.not_mem_nil) (.inl rfl)
  ended := fun d hd => by
    obtain ⟨e, he, -⟩ := hd
    exact absurd he List.not_mem_nil

theorem HookInv.readdir_whole (hi : HookInv N h s Q) (hN : N + 2 < 2 ^ 32) (d : δ)
    (tg : Option ThreadGroup) (room : ℕ) (s' : HookState δ) :
    (∀ e ∈ ⟨s, .readdir d tg room, s'⟩ :: h, WholeCapture N e) ↔
      captured N Q room = 0 ∨ captured N Q room = N + 2 := by
  have hone : WholeCapture N ⟨s, .readdir d tg room, s'⟩ ↔
      (Q = 0 → room = 0 ∨ N + 2 ≤ room) := by
    constructor
    · intro hw hQ
      have hw' := hw d tg room rfl ((hi.nents_eq_zero_iff hN).mpr hQ)
      rwa [hi.unset hQ d, Nat.zero_add] at hw'
    · intro hw d' tg' room' he hz
      cases he
      have hQ := (hi.nents_eq_zero_iff hN).mp hz
      show _ ∨ N + 2 ≤ s.pos d + room
      rw [hi.unset hQ d, Nat.zero_add]
      exact hw hQ
  rw [List.forall_mem_cons, hone, hi.whole]
  unfold captured
  split <;> omega

theorem HookInv.readdir (hi : HookInv N h s Q) (hN : N + 2 < 2 ^ 32) (d : δ)
    (tg : Option ThreadGroup) (room : ℕ) :
    HookInv N (⟨s, .readdir d tg room, (readDirectory N s d tg room).state⟩ :: h)
      (readDirectory N s d tg room).state (captured N Q room) := by
  have hwhole := hi.readdir_whole hN d tg room (readDirectory N s d tg room).state
  have hle : captured N Q room ≤ N + 2 := by
    have := hi.le
    unfold captured
    split <;> omega
  have hkeep : Q ≠ 0 → captured N Q room = Q := fun hQ => if_neg hQ
  obtain ⟨m, hm, hread⟩ := hi.reading hN d tg room
  obtain ⟨hend, hlast⟩ := endPos_le hN hle tg
  -- the directories that are not read have not moved
  have hother : ∀ d', s.pos d' ≤ lastPos N (captured N Q room) := by
    intro d'
    by_cases hQ : Q = 0
    · rw [hi.unset hQ d']
      exact Nat.zero_le _
    · rw [hkeep hQ]
      exact hi.pos_le d'
  have hpos : ∀ d', (readDirectory N s d tg room).state.pos d' =
      if d' = d then s.pos d + m else s.pos d' := by
    intro d'
    rw [hread]
    exact Function.update_apply _ _ _ _
  refine ⟨hle, by rw [hread], fun hzero d' => ?_, fun d' => ?_, fun d' => ?_, hwhole,
    fun d' hd' => ?_⟩
  · have hQ : Q = 0 := by
      by_contra hQ
      exact hQ ((hkeep hQ).symm.trans hzero)
    have hroom : room = 0 := by
      unfold captured at hzero
      rw [if_pos hQ] at hzero
      omega
    rw [hpos d', hi.unset hQ d, hi.unset hQ d']
    split <;> omega
  · have hd := hother d
    have hd' := hother d'
    rw [hpos d']
    split <;> omega
  · show listing N d' h ++ (if d = d' then (readDirectory N s d tg room).items else []) = _
    rw [hi.listed d', hpos d', hread]
    by_cases hdd : d' = d
    · subst hdd
      rw [if_pos rfl, if_pos rfl]
      exact firstItems_append N _ _
    · rw [if_neg (Ne.symm hdd), if_neg hdd, List.append_nil]
  · have hunit : captured N Q room = Q ∨ Q = 0 := or_iff_not_imp_right.mpr hkeep
    obtain ⟨e, he, tg', room', hact, hleft⟩ := hd'
    obtain rfl | he := List.mem_cons.mp he
    · -- the read that is made now comes back with room left
      cases hact
      have hleft : 0 < room - m := by
        rw [hread] at hleft
        exact hleft
      refine ⟨?_, fun hgroup => ?_⟩
      · unfold captured
        split <;> omega
      · obtain ⟨g, rfl⟩ := Option.isSome_iff_exists.mp
          (hgroup _ List.mem_cons_self tg room rfl)
        have hlast : endPos N (some g) (wrap32 (captured N Q room)) =
            lastPos N (captured N Q room) := endPos_wrap32 hN hle g
        have hd := hother d
        rw [hpos d, if_pos rfl]
        omega
    · obtain ⟨hQ, hold⟩ := hi.ended d' ⟨e, he, tg', room', hact, hleft⟩
      rw [hkeep hQ.ne']
      rw [hkeep hQ.ne'] at hm hlast
      refine ⟨hQ, fun hgroup => ?_⟩
      have hstands := hold fun e he => hgroup e (List.mem_cons_of_mem _ he)
      rw [hpos d']
      split
      · next hdd =>
        rw [hdd] at hstands
        omega
      · exact hstands

theorem HookInv.lookup (hi : HookInv N h s Q) (tg : Option ThreadGroup) (name : String) :
    HookInv N (⟨s, .lookup tg name, s⟩ :: h) s Q where
  le := hi.le
  nents := hi.nents
  unset := hi.unset
  pos_le := hi.pos_le
  listed := fun d => (List.append_nil _).trans (hi.listed d)
  whole := by
    have hone : WholeCapture N (⟨s, .lookup tg name, s⟩ : Entry (HookState δ) (HookCall δ)) :=
      fun d tg room he => by cases he
    rw [List.forall_mem_cons, ← hi.whole]
    exact and_iff_right hone
  ended := fun d hd => by
    obtain ⟨e, he, tg', room, hact, hleft⟩ := hd
    obtain rfl | he := List.mem_cons.mp he
    · cases hact
    · obtain ⟨hQ, hold⟩ := hi.ended d ⟨e, he, tg', room, hact, hleft⟩
      exact ⟨hQ, fun hgroup => hold fun e he => hgroup e (List.mem_cons_of_mem _ he)⟩

omit [DecidableEq δ] in
theorem fibersDir_of_mem {p : ℕ} {j : ℤ} (hm : .fibersDir j ∈ firstItems N p) : j = 0 := by
  obtain ⟨q, -, hq⟩ := List.mem_map.mp hm
  unfold wholeItem at hq
  split at hq
  · cases hq
    rfl
  · obtain _ | _ | q := q <;> cases hq

theorem mem_listing {d : δ} {e : Entry (HookState δ) (HookCall δ)} (he : e ∈ h) {x : Listed}
    (hx : x ∈ listedBy N d e) : x ∈ listing N d h := by
  induction h with
  | nil => cases he
  | cons e' past ih =>
    obtain rfl | he := List.mem_cons.mp he
    · exact List.mem_append_right _ hx
    · exact List.mem_append_left _ (ih he)

theorem hookInv_of_run (hN : N + 2 < 2 ^ 32) (hr : Run (HookStep N) (.start δ) h s) :
    ∃ Q, HookInv N h s Q := by
  refine hr.induct (I := fun h s => ∃ Q, HookInv N h s Q) ⟨0, hookInv_start⟩ ?_
  rintro h s a s' _ ⟨Q, hi⟩ hs
  cases hs
  cases a with
  | readdir d tg room => exact ⟨_, hi.readdir hN d tg room⟩
  | lookup tg name => exact ⟨_, hi.lookup tg name⟩

end Invariant

/-! ## Complete listings -/

theorem wholeItem_injOn {N p q : ℕ} (h : wholeItem N p = wholeItem N q) : p = q := by
  unfold wholeItem at h
  split at h
  · next hp =>
    split at h
    · next hq => rw [hp, hq]
    · obtain _ | _ | q := q <;> cases h
  · split at h
    · obtain _ | _ | p := p <;> cases h
    · obtain _ | _ | p := p <;> obtain _ | _ | q := q <;> cases h <;> rfl

theorem nodup_firstItems (N p : ℕ) : (firstItems N p).Nodup :=
  List.Nodup.map (fun _ _ h => wholeItem_injOn h) List.nodup_range'

theorem count_wholeItem {N p q : ℕ} (h : q < p) :
    (firstItems N p).count (wholeItem N q) = 1 := by
  apply List.count_eq_one_of_mem (nodup_firstItems N p)
  exact List.mem_map.mpr ⟨q, List.mem_range'_1.mpr ⟨Nat.zero_le _, by omega⟩, rfl⟩

theorem wholeItem_end (N : ℕ) : wholeItem N (N + 2) = .fibersDir 0 := if_pos rfl

theorem wholeItem_base {N i : ℕ} (h : i < N) : wholeItem N (i + 2) = .base i :=
  if_neg (by omega)

theorem count_fibersDir_short (N : ℕ) : (firstItems N (N + 2)).count (.fibersDir 0) = 0 := by
  rw [List.count_eq_zero]
  intro hm
  obtain ⟨q, hq, he⟩ := List.mem_map.mp hm
  have hlt := (List.mem_range'_1.mp hq).2
  rw [← wholeItem_end N] at he
  have := wholeItem_injOn he
  omega

/-- Whatever happens, only `fibers_dir` is examined. A complete listing for a process with a group
holds it and every entry of the kernel's listing once, just when the read that set `nents` came to
the end of that listing. -/
theorem fibers_listed_once {N : ℕ} (hN : N + 2 < 2 ^ 32)
    {h : List (Entry (HookState δ) (HookCall δ))} {s : HookState δ}
    (hr : Run (HookStep N) (.start δ) h s) :
    (∀ e ∈ h, ∀ d j, .fibersDir j ∈ listedBy N d e → j = 0) ∧
    ∀ d, Complete N d h → GroupThroughout d h →
      (((listing N d h).count (.fibersDir 0) = 1 ∧
          ∀ i : ℕ, i < N → (listing N d h).count (.base i) = 1) ↔
        ∀ e ∈ h, WholeCapture N e) := by
  obtain ⟨Q, hi⟩ := hookInv_of_run hN hr
  refine ⟨fun e he d j hj => ?_, fun d hd hgroup => ?_⟩
  · have hm := mem_listing he hj
    rw [hi.listed d] at hm
    exact fibersDir_of_mem hm
  · obtain ⟨hQ, hstands⟩ := hi.ended d hd
    rw [hi.whole, hi.listed d, hstands hgroup]
    unfold lastPos
    split
    · next hwhole =>
      refine iff_of_true ⟨?_, fun i hin => ?_⟩ (.inr hwhole)
      · rw [← wholeItem_end N]
        exact count_wholeItem (by omega)
      · rw [← wholeItem_base hin]
        exact count_wholeItem (by omega)
    · next hshort =>
      rw [count_fibersDir_short]
      exact iff_of_false (fun hc => absurd hc.1 (by decide)) (by omega)

/-- The state after a first read of the directory 0 of a process without a group. -/
def afterRead (room : ℕ) : HookState ℕ := (HookCall.readdir 0 none room).apply 3 (.start ℕ)

theorem run_afterRead (room : ℕ) : Run (HookStep 3) (.start ℕ)
    [⟨.start ℕ, .readdir 0 none room, afterRead room⟩] (afterRead room) :=
  Run.start.next rfl

/-- The same, and then a read of the directory 1 for a process with a group. -/
def twoReads (room : ℕ) : List (Entry (HookState ℕ) (HookCall ℕ)) :=
  [⟨afterRead room, .readdir 1 (some oneFiberGroup) 10,
      (HookCall.readdir 1 (some oneFiberGroup) 10).apply 3 (afterRead room)⟩,
    ⟨.start ℕ, .readdir 0 none room, afterRead room⟩]

theorem complete_twoReads (room : ℕ) (h : 0 < (readDirectory 3 (afterRead room) 1
    (some oneFiberGroup) 10).room) : Complete 3 1 (twoReads room) :=
  ⟨_, List.mem_cons_self, some oneFiberGroup, 10, rfl, h⟩

theorem groupThroughout_twoReads (room : ℕ) : GroupThroughout 1 (twoReads room) := by
  intro e he tg r hact
  simp only [twoReads, List.mem_cons, List.not_mem_nil, or_false] at he
  obtain rfl | rfl := he
  · cases hact
    rfl
  · cases hact

/-- A first read of everything: the second one finds `fibers_dir` at the end. -/
theorem fibers_listed_once_twoReads :
    (∃ s, Run (HookStep 3) (.start ℕ) (twoReads 10) s) ∧
    (((listing 3 1 (twoReads 10)).count (.fibersDir 0) = 1 ∧
        ∀ i : ℕ, i < 3 → (listing 3 1 (twoReads 10)).count (.base i) = 1) ↔
      ∀ e ∈ twoReads 10, WholeCapture 3 e) :=
  have hr : Run (HookStep 3) (.start ℕ) (twoReads 10) _ := (run_afterRead 10).next rfl
  ⟨⟨_, hr⟩, (fibers_listed_once (by decide) hr).2 1 (complete_twoReads 10 (by decide))
    (groupThroughout_twoReads 10)⟩

/-- A first read with room for one entry: the second one ends without it. -/
theorem fibers_not_listed :
    (∃ s, Run (HookStep 3) (.start ℕ) (twoReads 1) s) ∧ Complete 3 1 (twoReads 1) ∧
      GroupThroughout 1 (twoReads 1) ∧ (listing 3 1 (twoReads 1)).count (.fibersDir 0) = 0 :=
  ⟨⟨_, (run_afterRead 1).next rfl⟩, complete_twoReads 1 (by decide), groupThroughout_twoReads 1,
    by decide⟩

/-! ## Lookups -/

/-- A lookup examines `fibers_dir` at most, and resolves its name and no other. -/
def LookupResolves (around : ℤ → PidEntry) (tg : Option ThreadGroup) (nents : ℤ) (name : String) :
    Prop :=
  (∀ j ∈ (handlerLookup around tg nents name).1, j = 0) ∧
    (handlerLookup around tg nents name).2 = if name = "fibers" then some 0 else none

/-- The values of `nents` for which it does. -/
def LookupFits (nents : ℤ) (name : String) : Prop :=
  nents = 2 ∨ (nents = 0 ∨ nents = 1) ∧ name ≠ "fibers"

theorem hits_fibersDirEntry (name : String) :
    fibersDirEntry.hits name = true ↔ name = "fibers" := by
  have hiff : fibersDirEntry.hits name = true ↔
      6 = name.length ∧ "fibers".toList.take 6 = name.toList := by
    simp [PidEntry.hits, fibersDirEntry]
  have htake : "fibers".toList.take 6 = "fibers".toList := by decide
  rw [hiff, htake]
  constructor
  · rintro ⟨-, h⟩
    exact (String.toList_injective h).symm
  · rintro rfl
    decide

section Lookup

variable (around : ℤ → PidEntry) (g : ThreadGroup)

/-- A lookup that examines nothing is right about every name but one. -/
theorem resolves_none {nents : ℤ} {name : String}
    (h : handlerLookup around (some g) nents name = ([], none)) :
    LookupResolves around (some g) nents name ↔ name ≠ "fibers" := by
  rw [LookupResolves, h]
  constructor
  · rintro ⟨-, hname⟩ he
    rw [if_pos he] at hname
    cases hname
  · intro hname
    exact ⟨fun j hj => absurd hj List.not_mem_nil, (if_neg hname).symm⟩

theorem resolves_two (name : String) : LookupResolves around (some g) 2 name := by
  have hbase : -unsigned (unsigned 2 - 2) = 0 := by decide
  have hlen : (unsigned (unsigned 2 - 1)).toNat = 1 := by decide
  have hscan : handlerLookup around (some g) 2 name = ([0],
      if (fibersDir around 0).hits name then some 0 else none) := by
    rw [handlerLookup, if_neg (by decide)]
    dsimp only
    rw [hbase, hlen]
    exact EntryTable.scan_one
  have hentry : fibersDir around 0 = fibersDirEntry := if_pos rfl
  rw [LookupResolves, hscan, hentry]
  simp only [hits_fibersDirEntry]
  exact ⟨fun j hj => List.mem_singleton.mp hj, trivial⟩

/-- From another `nents` on the first entry that is examined is none of `fibers_dir`. -/
theorem not_resolves {nents : ℤ} (hint : isInt nents) (h : nents < 0 ∨ 2 < nents) (name : String) :
    ¬ LookupResolves around (some g) nents name := by
  rintro ⟨hinside, -⟩
  have hlow := hint.1
  have hhigh := hint.2
  have hne : nents ≠ 0 := by omega
  rw [handlerLookup, if_neg hne] at hinside
  have hfirst := hinside _ (EntryTable.scan_first (by unfold unsigned; omega))
  unfold unsigned at hfirst
  omega

theorem handlerLookup_iff {nents : ℤ} (hint : isInt nents) (name : String) :
    LookupResolves around (some g) nents name ↔ LookupFits nents name := by
  have hcases : nents = 0 ∨ nents = 1 ∨ nents = 2 ∨ nents < 0 ∨ 2 < nents := by omega
  unfold LookupFits
  rcases hcases with rfl | rfl | rfl | hout
  · rw [resolves_none around g rfl]
    simp
  · rw [resolves_none around g rfl]
    simp
  · exact iff_of_true (resolves_two around g name) (.inl rfl)
  · exact iff_of_false (not_resolves around g hint hout name) (by omega)

end Lookup

theorem isInt_nents_readDirectory {N : ℕ} {s : HookState δ} (hs : isInt s.nents) (d : δ)
    (tg : Option ThreadGroup) (room : ℕ) : isInt (readDirectory N s d tg room).state.nents := by
  have hset : (readDirectory N s d tg room).state.nents =
      if s.nents = 0 then wrap32 (procPidentReaddir ⟨s.pos d, room⟩ .base N).2.pos else s.nents := by
    cases tg <;> rfl
  rw [hset]
  split
  · exact isInt_wrap32 _
  · exact hs

theorem isInt_nents {N : ℕ} {h : List (Entry (HookState δ) (HookCall δ))} {s : HookState δ}
    (hr : Run (HookStep N) (.start δ) h s) : isInt s.nents := by
  refine hr.invariant (I := fun s => isInt s.nents) isInt_zero ?_
  rintro s a s' hi hs
  cases hs
  cases a with
  | readdir d tg room => exact isInt_nents_readDirectory hi d tg room
  | lookup tg name => exact hi

/-- After any run of listings and lookups, a lookup for a process with a group stays inside
`fibers_dir` and resolves `fibers` and nothing else just when `nents` is 2, or is 0 or 1 and the
name another one. -/
theorem handler_lookup_resolves (around : ℤ → PidEntry) {N : ℕ}
    {h : List (Entry (HookState δ) (HookCall δ))} {s : HookState δ}
    (hr : Run (HookStep N) (.start δ) h s) :
    (∀ g name, LookupResolves around (some g) s.nents name ↔ LookupFits s.nents name) ∧
    ((∀ e ∈ h, ∀ g name, e.act = .lookup (some g) name →
        LookupResolves around (some g) e.pre.nents name) ↔
      ∀ e ∈ h, ∀ g name, e.act = .lookup (some g) name → LookupFits e.pre.nents name) := by
  have hpre : ∀ e ∈ h, isInt e.pre.nents := by
    intro e he
    obtain ⟨before, past, rfl⟩ := List.append_of_mem he
    exact isInt_nents hr.split.1
  refine ⟨fun g name => handlerLookup_iff around g (isInt_nents hr) name, ?_⟩
  constructor
  · intro hall e he g name hact
    exact (handlerLookup_iff around g (hpre e he) name).mp (hall e he g name hact)
  · intro hall e he g name hact
    exact (handlerLookup_iff around g (hpre e he) name).mpr (hall e he g name hact)

/-- When the first read has room for the dots only, `nents` is 2. -/
theorem handler_lookup_resolves_dots :
    ∃ h, Run (HookStep 3) (.start ℕ) h (afterRead 2) ∧
      LookupResolves (fun _ => .zero) (some oneFiberGroup) (afterRead 2).nents "fibers" :=
  ⟨_, run_afterRead 2, ((handler_lookup_resolves (fun _ => .zero) (run_afterRead 2)).1
    oneFiberGroup "fibers").mpr (.inl (by decide))⟩

/-- Before any listing `fibers` is not resolved, and after a listing of three entries the scan begins
three entries before `fibers_dir`. -/
theorem handler_lookup_outside :
    ¬ LookupResolves (fun _ => .zero) (some oneFiberGroup) (HookState.start ℕ).nents "fibers" ∧
    (∃ h, Run (HookStep 3) (.start ℕ) h (afterRead 10)) ∧ (afterRead 10).nents = 5 ∧
    ¬ LookupResolves (fun _ => .zero) (some oneFiberGroup) (afterRead 10).nents "fibers" := by
  have hnents : (afterRead 10).nents = 5 := by decide
  refine ⟨?_, ⟨_, run_afterRead 10⟩, hnents, ?_⟩
  · rw [resolves_none _ _ rfl]
    exact not_not_intro rfl
  · rw [hnents]
    exact not_resolves _ _ ⟨by decide, by decide⟩ (.inr (by decide)) _

end Fibers
