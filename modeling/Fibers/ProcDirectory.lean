import Fibers.GroupEffect
import Fibers.Lib.EntryTable
import Fibers.Lib.Printf

/-!
# The directory of fibers

`fibers_readdir` and `fibers_lookup` of `proc.c` build an array of `pid_entry`s from the fibers of
a group and pass it on to the kernel. The array is as long as `fid_count` was when it was read;
the loop that fills it runs over the fibers that are in the table afterwards.

`generate_fiber` numbers a fiber before it inserts it, and other threads run in between.
`GroupStep` has the two as steps of their own. A group without insertions under way has one fiber
more than `fid_count` says.

## Main results

- `fidCount_of_run` — the counter, the population and the insertions under way
- `fibers_directory` — when the array holds an entry for every fiber
-/

namespace Fibers

/-! ## Entries -/

inductive InodeOps
  | fibersIops
  deriving DecidableEq

inductive FileOps
  | fibersFops
  | fibersProcFops
  deriving DecidableEq

/-- `struct pid_entry`, without the operations that neither directory sets. -/
structure PidEntry where
  name : Option String
  len : ℕ
  mode : ℕ
  iop : Option InodeOps
  fop : Option FileOps
  deriving DecidableEq

/-- `sizeof(struct pid_entry)`. -/
def sizeofPidEntry : ℕ := 40

def S_IFREG : ℕ := 0o100000

def S_IFDIR : ℕ := 0o040000

def S_IRUGO : ℕ := 0o444

def S_IXUGO : ℕ := 0o111

/-- What `memset` leaves. -/
def PidEntry.zero : PidEntry := ⟨none, 0, 0, none, none⟩

/-- `proc_pident_lookup` compares the length, and then as many characters. -/
def PidEntry.hits (name : String) (e : PidEntry) : Bool :=
  e.len = name.length ∧ e.name.any fun s => s.toList.take e.len = name.toList

/-- The entry that the loop writes for a fiber. -/
def fiberEntry (f : Fiber) : PidEntry where
  name := some f.info.name
  len := f.info.name.length
  mode := S_IFREG ||| S_IRUGO
  iop := none
  fop := some .fibersProcFops

/-- `kmalloc` does not succeed for sizes that it cannot address. -/
structure Allocator where
  succeeds : ℕ → Bool
  bounded : ∀ n, succeeds n → n < 2 ^ 63

/-! ## The array -/

/-- What is done to the array: its size in bytes, how many bytes `memset` writes, how many entries
the loop writes, and the entries that are passed on. -/
structure EntryArray where
  bytes : ℕ
  cleared : ℕ
  filled : ℕ
  nents : ℕ
  entry : ℕ → PidEntry

/-- The array for the `fid_count` that was read and the fibers that the loop visits. The product
is an `unsigned long`, the length that is passed on an `unsigned int`. -/
def entryArray (A : Allocator) (fidCount : ℤ) (fibers : List Fiber) : EntryArray :=
  let nents : Word := BitVec.ofInt 64 fidCount
  let size : ℕ := (nents * BitVec.ofNat 64 sizeofPidEntry).toNat
  { bytes := if A.succeeds size then size else 0
    cleared := size
    filled := fibers.length
    nents := (nents.setWidth 32).toNat
    entry := fun i => (fibers[i]?).elim .zero fiberEntry }

/-- `fibers_readdir` up to the call of `proc_pident_readdir`. `later` is the group when the loop
runs. -/
def fibersReaddir (A : Allocator) (task : Option ℤ) (groups : Groups)
    (later : ThreadGroup → ThreadGroup) : Except Errno (Option EntryArray) :=
  match task with
  | none => .error .ESRCH
  | some tgid =>
    match getGroup tgid groups with
    | none => .ok none
    | some tg => .ok (some (entryArray A tg.fidCount (later tg).fibers.walk))

/-- `proc_pident_lookup` in an array: the index of the entry. -/
def EntryArray.lookup (a : EntryArray) (name : String) : Option ℤ :=
  (EntryTable.scan (fun i => (a.entry i.toNat).hits name) 0 a.nents).2

/-- `fibers_lookup`, with the array and the index of the entry that it resolves to. -/
def fibersLookup (A : Allocator) (task : Option ℤ) (groups : Groups)
    (later : ThreadGroup → ThreadGroup) (name : String) :
    Except Errno (Option (EntryArray × Option ℤ)) :=
  match task with
  | none => .error .ESRCH
  | some tgid =>
    match getGroup tgid groups with
    | none => .ok none
    | some tg =>
      let a := entryArray A tg.fidCount (later tg).fibers.walk
      .ok (some (a, a.lookup name))

/-- Nothing is written outside the array. -/
def EntryArray.WritesInside (a : EntryArray) : Prop :=
  a.cleared ≤ a.bytes ∧ a.filled * sizeofPidEntry ≤ a.bytes

/-- The names that are passed on. -/
def EntryArray.names (a : EntryArray) : List (Option String) :=
  (List.range a.nents).map fun i => (a.entry i).name

/-- One entry for every fiber, named by its fid, and every fiber is found under its name. -/
structure EntryArray.Lists (a : EntryArray) (fibers : List Fiber) : Prop where
  inside : a.WritesInside
  names : a.names = fibers.map fun f => some (toString f.fid)
  found : ∀ f ∈ fibers, ∃ i : ℕ, a.lookup (toString f.fid) = some i ∧
    ∃ g, fibers[i]? = some g ∧ g.fid = f.fid

/-! ## Size and length -/

section Array

variable {A : Allocator} {c : ℤ} {fibers : List Fiber}

/-- What `hits` compares, for an entry of a fiber. -/
theorem hits_fiberEntry {f : Fiber} (hf : f.info.name = toString f.fid) (z : ℤ) :
    (fiberEntry f).hits (toString z) = true ↔ f.fid = z := by
  have hiff : (fiberEntry f).hits (toString z) = true ↔
      f.info.name.length = (toString z).length ∧
        f.info.name.toList.take f.info.name.length = (toString z).toList := by
    simp [PidEntry.hits, fiberEntry]
  rw [hiff, ← String.length_toList, List.take_length, hf]
  constructor
  · rintro ⟨-, h⟩
    exact Printf.toString_injective (String.toList_injective h)
  · rintro rfl
    exact ⟨String.length_toList, rfl⟩

variable (A fibers) in
/-- For a count below 0 the size is beyond what can be allocated. -/
theorem cleared_of_neg (hc : isInt c) (h : c < 0) : 2 ^ 63 ≤ (entryArray A c fibers).cleared := by
  have hlow := hc.1
  have hwrap : (c % (2 ^ 64 : ℕ)).toNat = 2 ^ 64 - (-c).toNat := by omega
  have hproduct : (2 ^ 64 - (-c).toNat) * 40 = (2 ^ 64 - 40 * (-c).toNat) + 2 ^ 64 * 39 := by
    omega
  show 2 ^ 63 ≤ (BitVec.ofInt 64 c * BitVec.ofNat 64 40).toNat
  rw [BitVec.toNat_mul, BitVec.toNat_ofInt, BitVec.toNat_ofNat, hwrap,
    Nat.mod_eq_of_lt (by decide : 40 < 2 ^ 64), hproduct, Nat.add_mul_mod_self_left,
    Nat.mod_eq_of_lt (by omega)]
  omega

theorem cleared_of_nonneg (hc : isInt c) (h : 0 ≤ c) :
    (entryArray A c fibers).cleared = c.toNat * sizeofPidEntry := by
  have hhigh := hc.2
  show (BitVec.ofInt 64 c * BitVec.ofNat 64 40).toNat = c.toNat * 40
  rw [BitVec.toNat_mul, BitVec.toNat_ofInt, BitVec.toNat_ofNat]
  omega

theorem nents_of_nonneg (hc : isInt c) (h : 0 ≤ c) :
    (entryArray A c fibers).nents = c.toNat := by
  have hhigh := hc.2
  show ((BitVec.ofInt 64 c).setWidth 32).toNat = c.toNat
  rw [BitVec.toNat_setWidth, BitVec.toNat_ofInt]
  omega

theorem bytes_eq : (entryArray A c fibers).bytes =
    if A.succeeds (entryArray A c fibers).cleared then (entryArray A c fibers).cleared else 0 := rfl

variable (A fibers) in
/-- The allocation is made for a count that is not negative, and large enough for it. -/
theorem cleared_le_iff (hc : isInt c) :
    (entryArray A c fibers).cleared ≤ (entryArray A c fibers).bytes ↔
      0 ≤ c ∧ (c = 0 ∨ A.succeeds (c.toNat * sizeofPidEntry) = true) := by
  rw [bytes_eq]
  obtain hneg | hpos := lt_or_ge c 0
  · have hlarge := cleared_of_neg A fibers hc hneg
    refine iff_of_false ?_ (fun h => absurd h.1 (not_le.mpr hneg))
    split
    · next hs =>
      have := A.bounded _ hs
      omega
    · omega
  · rw [cleared_of_nonneg hc hpos]
    unfold sizeofPidEntry
    split
    · next hs => exact iff_of_true le_rfl ⟨hpos, .inr hs⟩
    · next hs =>
      refine ⟨fun h => ⟨hpos, .inl (by omega)⟩, fun h => ?_⟩
      obtain rfl | h := h.2
      · exact le_rfl
      · exact absurd h hs

theorem entry_of_lt {i : ℕ} (h : i < fibers.length) :
    (entryArray A c fibers).entry i = fiberEntry fibers[i] := by
  show (fibers[i]?).elim PidEntry.zero fiberEntry = _
  rw [List.getElem?_eq_getElem h]
  rfl

variable (hname : ∀ f ∈ fibers, f.info.name = toString f.fid)

include hname

theorem names_eq (hn : (entryArray A c fibers).nents = fibers.length) :
    (entryArray A c fibers).names = fibers.map fun f => some (toString f.fid) := by
  rw [EntryArray.names, hn]
  apply List.ext_getElem
  · simp
  · intro i hi _
    have hlt : i < fibers.length := by simpa using hi
    rw [List.getElem_map, List.getElem_map, List.getElem_range, entry_of_lt hlt]
    exact congrArg some (hname _ (List.getElem_mem hlt))

/-- The first entry under a fiber's name belongs to a fiber with its fid. -/
theorem lookup_found (hn : (entryArray A c fibers).nents = fibers.length) {f : Fiber}
    (hf : f ∈ fibers) : ∃ i : ℕ, (entryArray A c fibers).lookup (toString f.fid) = some (i : ℤ) ∧
      ∃ g, fibers[i]? = some g ∧ g.fid = f.fid := by
  have hhit : ∀ i (h : i < fibers.length),
      ((entryArray A c fibers).entry i).hits (toString f.fid) = true ↔ (fibers[i]).fid = f.fid := by
    intro i h
    rw [entry_of_lt h]
    exact hits_fiberEntry (hname _ (List.getElem_mem h)) _
  have hsome : ∃ i, ∃ h : i < fibers.length, (fibers[i]).fid = f.fid := by
    obtain ⟨i, h, rfl⟩ := List.getElem_of_mem hf
    exact ⟨i, h, rfl⟩
  classical
  obtain ⟨hlt, hfid⟩ := Nat.find_spec hsome
  refine ⟨Nat.find hsome, ?_, fibers[Nat.find hsome], List.getElem?_eq_getElem hlt, hfid⟩
  have hscan : (EntryTable.scan
      (fun i : ℤ => ((entryArray A c fibers).entry i.toNat).hits (toString f.fid)) 0
      fibers.length).2 = some (0 + (Nat.find hsome : ℤ)) := by
    refine EntryTable.scan_found hlt (by simpa using (hhit _ hlt).mpr hfid) ?_
    intro j hj
    have hjlt : j < fibers.length := hj.trans hlt
    have hmiss : ¬ (fibers[j]).fid = f.fid := fun h => Nat.find_min hsome hj ⟨hjlt, h⟩
    rw [← hhit j hjlt] at hmiss
    simpa using hmiss
  rw [EntryArray.lookup, hn, hscan, zero_add]

/-- The array holds every fiber just when it was made for as many as there are. -/
theorem lists_iff (hc : isInt c) : (entryArray A c fibers).Lists fibers ↔
    (fibers.length : ℤ) = c ∧ (c = 0 ∨ A.succeeds (c.toNat * sizeofPidEntry) = true) := by
  constructor
  · rintro ⟨⟨hcleared, -⟩, hnames, -⟩
    obtain ⟨hpos, halloc⟩ := (cleared_le_iff A fibers hc).mp hcleared
    have hlen := congrArg List.length hnames
    rw [EntryArray.names, List.length_map, List.length_map, List.length_range,
      nents_of_nonneg hc hpos] at hlen
    exact ⟨by omega, halloc⟩
  · rintro ⟨hlen, halloc⟩
    have hpos : 0 ≤ c := by omega
    have hn : (entryArray A c fibers).nents = fibers.length := by
      rw [nents_of_nonneg hc hpos]
      omega
    have hcleared := (cleared_le_iff A fibers hc).mpr ⟨hpos, halloc⟩
    refine ⟨⟨hcleared, ?_⟩, names_eq hname hn, fun f hf => lookup_found hname hn hf⟩
    rw [cleared_of_nonneg hc hpos] at hcleared
    have hfilled : fibers.length * sizeofPidEntry = c.toNat * sizeofPidEntry := by
      rw [← hlen, Int.toNat_natCast]
    exact hfilled.trans_le hcleared

end Array

/-! ## Groups with insertions under way -/

/-- A group and the fibers that are numbered but not in the table yet. -/
structure GroupState where
  tg : ThreadGroup
  pending : List Fiber

/-- The group after `PREPARE_GENERICS` numbered a fiber. -/
def numberFiber (tg : ThreadGroup) : ThreadGroup :=
  { tg with fidCount := atomicIncReturn tg.fidCount }

/-- `hash_add_rcu` of a fiber. -/
def insertFiber (tg : ThreadGroup) (f : Fiber) : ThreadGroup :=
  { tg with fibers := tg.fibers.add f }

/-- What a call does to its group. -/
inductive GroupAct
  | thread (pid : ℤ)
  | number (t : Thread) (cpu : Cpu)
  | insert (f : Fiber)
  | writeFiber (fid : ℤ)
  | writeThread (pid : ℤ)

/-- The calls of a process, step by step. A write leaves the name of a fiber alone. -/
inductive GroupStep : GroupState → GroupAct → GroupState → Prop
  | thread {tg pending} (pid : ℤ) :
    GroupStep ⟨tg, pending⟩ (.thread pid) ⟨addThread tg pid, pending⟩
  | number {tg pending} (t : Thread) (cpu : Cpu) :
    GroupStep ⟨tg, pending⟩ (.number t cpu) ⟨numberFiber tg, newFiber tg t cpu :: pending⟩
  | insert {tg before after} (f : Fiber) :
    GroupStep ⟨tg, before ++ f :: after⟩ (.insert f) ⟨insertFiber tg f, before ++ after⟩
  | writeFiber {tg pending} (fid : ℤ) (g : Fiber → Fiber) (hg : ∀ f, (g f).fid = f.fid)
      (hname : ∀ f, (g f).info.name = f.info.name) :
    GroupStep ⟨tg, pending⟩ (.writeFiber fid) ⟨tg.onFiber fid g hg, pending⟩
  | writeThread {tg pending} (pid : ℤ) (g : Thread → Thread) (hg : ∀ t, (g t).pid = t.pid) :
    GroupStep ⟨tg, pending⟩ (.writeThread pid) ⟨tg.onThread pid g hg, pending⟩

/-- A group as `generate_group` leaves it. -/
def newGroup (tgid : ℤ) (hash : ℤ → Bucket) : GroupState :=
  ⟨{ tgid := tgid, fidCount := noFibers, threads := .init hash, fibers := .init hash }, []⟩

/-- A group that nobody else uses inserts a fiber right after numbering it. -/
theorem run_addFiber (tg : ThreadGroup) (t : Thread) (cpu : Cpu) (pending : List Fiber) :
    ∃ h, Run GroupStep ⟨tg, pending⟩ h ⟨addFiber tg t cpu, pending⟩ :=
  ⟨_, (Run.start.next (.number t cpu)).next
    (@GroupStep.insert (numberFiber tg) [] pending (newFiber tg t cpu))⟩

/-- The counter says how many fibers were numbered, the table and the pending ones which, and
every fiber has its fid for a name. -/
structure GroupState.Consistent (s : GroupState) : Prop where
  fidCount : s.tg.fidCount = wrap32 ((s.tg.fibers.size + s.pending.length : ℕ) - 1)
  named : ∀ f, s.tg.fibers.Mem f ∨ f ∈ s.pending → f.info.name = toString f.fid

theorem consistent_newGroup (tgid : ℤ) (hash : ℤ → Bucket) : (newGroup tgid hash).Consistent where
  fidCount := by
    rw [newGroup, HashTable.size_init]
    rfl
  named := by
    rintro f (⟨b, hf⟩ | hf)
    · exact absurd hf List.not_mem_nil
    · exact absurd hf List.not_mem_nil

theorem GroupStep.consistent {s s' : GroupState} {a : GroupAct} (hs : GroupStep s a s')
    (h : s.Consistent) : s'.Consistent := by
  cases hs with
  | thread pid => exact ⟨h.fidCount, h.named⟩
  | @number tg pending t cpu =>
    constructor
    · have hcount : ((tg.fibers.size + (newFiber tg t cpu :: pending).length : ℕ) : ℤ) - 1 =
          ((tg.fibers.size + pending.length : ℕ) : ℤ) - 1 + 1 := by
        rw [List.length_cons]
        omega
      show wrap32 (tg.fidCount + 1) = wrap32 _
      rw [h.fidCount, wrap32_succ]
      exact congrArg wrap32 hcount.symm
    · rintro f (hf | hf)
      · exact h.named f (.inl hf)
      · obtain rfl | hf := List.mem_cons.mp hf
        · rfl
        · exact h.named f (.inr hf)
  | @insert tg before after f =>
    constructor
    · have hcount : ((tg.fibers.add f).size + (before ++ after).length : ℕ) =
          tg.fibers.size + (before ++ f :: after).length := by
        rw [HashTable.size_add, List.length_append, List.length_append, List.length_cons]
        omega
      show tg.fidCount = wrap32 (((tg.fibers.add f).size + (before ++ after).length : ℕ) - 1)
      rw [hcount]
      exact h.fidCount
    · rintro g (hg | hg)
      · obtain rfl | hg := HashTable.mem_add hg
        · exact h.named g (.inr (by simp))
        · exact h.named g (.inl hg)
      · refine h.named g (.inr ?_)
        obtain hg | hg := List.mem_append.mp hg
        · exact List.mem_append_left _ hg
        · exact List.mem_append_right _ (List.mem_cons_of_mem _ hg)
  | @writeFiber tg pending fid g hg hname =>
    constructor
    · show tg.fidCount = wrap32 (((tg.fibers.modify fid g hg).size + pending.length : ℕ) - 1)
      rw [HashTable.size_modify]
      exact h.fidCount
    · rintro f (hf | hf)
      · obtain hf | ⟨y, hy, rfl⟩ := HashTable.mem_modify hg hf
        · exact h.named f (.inl hf)
        · rw [hname, hg]
          exact h.named y (.inl hy)
      · exact h.named f (.inr hf)
  | writeThread pid g hg => exact ⟨h.fidCount, h.named⟩

section Runs

variable {tgid : ℤ} {hash : ℤ → Bucket} {h h' : List (Entry GroupState GroupAct)}
  {s s' : GroupState}

theorem consistent_of_run (hr : Run GroupStep (newGroup tgid hash) h s) : s.Consistent :=
  hr.invariant (consistent_newGroup tgid hash) fun _ _ _ hi hs => hs.consistent hi

theorem GroupState.Consistent.run (hc : s.Consistent) (hr : Run GroupStep s h s') : s'.Consistent :=
  hr.invariant hc fun _ _ _ hi hs => hs.consistent hi

/-- Fibers stay in the table. -/
theorem GroupStep.size_le {a : GroupAct} (hs : GroupStep s a s') :
    s.tg.fibers.size ≤ s'.tg.fibers.size := by
  cases hs with
  | thread pid => exact le_rfl
  | number t cpu => exact le_rfl
  | @insert tg before after f =>
    show _ ≤ (tg.fibers.add f).size
    rw [HashTable.size_add]
    exact Nat.le_succ _
  | @writeFiber tg pending fid g hg hname =>
    show _ ≤ (tg.fibers.modify fid g hg).size
    rw [HashTable.size_modify]
  | writeThread pid g hg => exact le_rfl

theorem size_le_of_run (hr : Run GroupStep s h s') : s.tg.fibers.size ≤ s'.tg.fibers.size :=
  hr.invariant (I := fun x => s.tg.fibers.size ≤ x.tg.fibers.size) le_rfl
    fun _ _ _ hi hs => hi.trans hs.size_le

/-- What `fid_count` says, and how many fibers the loop visits. -/
theorem fidCount_of_run (hr : Run GroupStep (newGroup tgid hash) h s) :
    s.tg.fidCount = wrap32 ((s.tg.fibers.size + s.pending.length : ℕ) - 1) :=
  (consistent_of_run hr).fidCount

/-- `wrap32` does not raise a number that is not below the values of an `int`. -/
theorem wrap32_le {z : ℤ} (h : -2 ^ 31 ≤ z) : wrap32 z ≤ z := by
  have hw := isInt_wrap32 z
  have hmod : wrap32 z % (2 ^ 32 : ℕ) = z % (2 ^ 32 : ℕ) := Int.bmod_emod
  have hhigh := hw.2
  have hlow := hw.1
  omega

/-- Without an insertion under way the counter is behind the table. -/
theorem fidCount_lt (hr : Run GroupStep (newGroup tgid hash) h s) (hp : s.pending = []) :
    s.tg.fidCount < s.tg.fibers.size := by
  have hle := wrap32_le (z := ((s.tg.fibers.size + s.pending.length : ℕ) : ℤ) - 1) (by omega)
  rw [← fidCount_of_run hr, hp, List.length_nil] at hle
  omega

/-- A directory is read while the group goes from the state `s`, when `fid_count` is read, to the
state `s'`, when the loop runs. -/
theorem fibers_directory (A : Allocator) {groups : Groups} (hg : getGroup tgid groups = some s.tg)
    (hr : Run GroupStep (newGroup tgid hash) h s) (hr' : Run GroupStep s h' s') :
    ∃ a, fibersReaddir A (some tgid) groups (fun _ => s'.tg) = .ok (some a) ∧
      (∀ name, fibersLookup A (some tgid) groups (fun _ => s'.tg) name =
        .ok (some (a, a.lookup name))) ∧
      (a.Lists s'.tg.fibers.walk ↔ (s'.tg.fibers.size : ℤ) = s.tg.fidCount ∧
        (s.tg.fidCount = 0 ∨ A.succeeds (s.tg.fidCount.toNat * sizeofPidEntry) = true)) ∧
      (s.pending = [] → ¬ a.Lists s'.tg.fibers.walk) := by
  refine ⟨entryArray A s.tg.fidCount s'.tg.fibers.walk, ?_, fun name => ?_, ?_⟩
  · simp only [fibersReaddir, hg]
  · simp only [fibersLookup, hg]
  · have hnamed : ∀ f ∈ s'.tg.fibers.walk, f.info.name = toString f.fid := fun f hf =>
      ((consistent_of_run hr).run hr').named f (.inl (HashTable.mem_walk.mp hf))
    have hint : isInt s.tg.fidCount := by
      rw [fidCount_of_run hr]
      exact isInt_wrap32 _
    have hiff := lists_iff (A := A) hnamed hint
    rw [HashTable.length_walk] at hiff
    refine ⟨hiff, fun hp hlists => ?_⟩
    have heq := (hiff.mp hlists).1
    have hlt := fidCount_lt hr hp
    have hle := size_le_of_run hr'
    omega

end Runs

/-- Every piece of a call changes its group by some of the steps. -/
theorem run_of_piece {tg : ThreadGroup} {pid : ℤ} {cpu : Cpu} {fr : Frame} {p : Piece}
    (h : piece tg pid cpu fr = some p) (pending : List Fiber) :
    ∃ hist, Run GroupStep ⟨tg, pending⟩ hist ⟨p.tg, pending⟩ := by
  have same : ∃ hist, Run GroupStep ⟨tg, pending⟩ hist ⟨tg, pending⟩ := ⟨[], .start⟩
  cases piece_step h with
  | convertThread _ => exact ⟨_, Run.start.next (.thread pid)⟩
  | convertFiber _ | createFiber _ => exact run_addFiber tg _ cpu pending
  | converted _ | activateCurrent _ => exact ⟨_, Run.start.next (.writeThread pid _ _)⟩
  | lock _ _ | createStack _ | createContext _ | fail _ | activateState _ | activateWrite _
  | activateTime _ | saveRegs _ | saveFpu _ | account _ | clearState _ | unlock _ =>
    exact ⟨_, Run.start.next (.writeFiber _ _ _ fun _ => rfl)⟩
  | _ => exact same

/-! ## One fiber, and a second one under way -/

/-- An allocator of up to 4 MiB. -/
def smallBlocks : Allocator := ⟨fun n => n ≤ 2 ^ 22, fun n h => by
  have h := of_decide_eq_true h
  omega⟩

/-- The group of a process whose first thread is converted. -/
def oneFiberGroup : ThreadGroup := addFiber (newGroup 1 hashZero).tg ⟨1, noFibers⟩ default

/-- The next fiber is numbered in it. -/
def secondNumbered : GroupState :=
  ⟨numberFiber oneFiberGroup, [newFiber oneFiberGroup ⟨1, noFibers⟩ default]⟩

theorem run_oneFiberGroup : ∃ h, Run GroupStep (newGroup 1 hashZero) h ⟨oneFiberGroup, []⟩ :=
  run_addFiber _ _ _ _

theorem run_secondNumbered : ∃ h, Run GroupStep (newGroup 1 hashZero) h secondNumbered := by
  obtain ⟨h, hr⟩ := run_oneFiberGroup
  exact ⟨_, hr.next (.number ⟨1, noFibers⟩ default)⟩

/-- The registry with one group. -/
def registryOf (tg : ThreadGroup) : Groups := (HashTable.init hashZero).add tg

theorem getGroup_registryOf (tg : ThreadGroup) : getGroup tg.tgid (registryOf tg) = some tg := by
  rw [registryOf, getGroup, HashTable.find_add, if_pos rfl]

/-- Read just then, the directory holds the first fiber. -/
theorem fibers_directory_secondNumbered :
    ∃ a, fibersReaddir smallBlocks (some 1) (registryOf secondNumbered.tg)
        (fun _ => secondNumbered.tg) = .ok (some a) ∧
      a.Lists secondNumbered.tg.fibers.walk := by
  obtain ⟨h, hr⟩ := run_secondNumbered
  obtain ⟨a, ha, -, hiff, -⟩ := fibers_directory smallBlocks
    (getGroup_registryOf secondNumbered.tg) hr .start
  exact ⟨a, ha, hiff.mpr (by decide +kernel)⟩

/-- Read before, it was one entry short of it. -/
theorem fibers_directory_short :
    ∃ a, fibersReaddir smallBlocks (some 1) (registryOf oneFiberGroup) (fun _ => oneFiberGroup) =
        .ok (some a) ∧
      oneFiberGroup.fibers.walk.length = 1 ∧ a.bytes = 0 ∧ a.filled = 1 ∧
      ¬ a.Lists oneFiberGroup.fibers.walk := by
  have ha : fibersReaddir smallBlocks (some 1) (registryOf oneFiberGroup) (fun _ => oneFiberGroup) =
      .ok (some (entryArray smallBlocks oneFiberGroup.fidCount oneFiberGroup.fibers.walk)) := by
    have hg : getGroup 1 (registryOf oneFiberGroup) = some oneFiberGroup :=
      getGroup_registryOf oneFiberGroup
    simp only [fibersReaddir, hg]
  refine ⟨_, ha, by decide +kernel, by decide +kernel, by decide +kernel, fun hlists => ?_⟩
  exact absurd hlists.inside.2 (by decide +kernel)

end Fibers
