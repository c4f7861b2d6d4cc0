import Fibers.Calls
import Fibers.Lib.Printf
import Fibers.Lib.SequentialRead

/-!
# Reading a fiber's file

`fibers_read` of `proc.c` formats the record of a fiber into a buffer of `INFO_SIZE` bytes and
copies a piece of it to the reader. `kstrtoul` and the text of a `%p` come from the kernel.

The end-of-file test compares the offset with the length of the text, but each piece ends one
character earlier, so the reads stop one character short of it. `%x` and `%d` consume 32 bits
of the `unsigned long`s `entry_point` and `successful_activations`.

## Main results

- `fibersRead_stops_short` — however a report is split into buffers, its last character is not read
- `report_faithful` — which records and which pairs of records the report tells apart
-/

namespace Fibers

open Printf (Arg Prints prints_literal prints_s prints_int prints_d prints_x prints_lu prints_p)
open SequentialRead (ReadsOut Serves)

/-! ## The report -/

def infoSize : ℕ := 1024

def decimal : ℕ := 10

/-- How the kernel prints a `%p`. -/
structure PointerText where
  text : Word → List Char
  length_le : ∀ w, (text w).length ≤ 64
  printable : ∀ w, ∀ c ∈ text w, c ≠ '\n' ∧ c ≠ '\x00'

def reportFormat : List Char :=
  ["Name (Fiber ID): %s\n",
    "Created by Thread: %d\n",
    "Currently used by Thread: %d\n",
    "Entry point: %x\n",
    "Parameters: %p\n",
    "Activations: %d success, %d failed\n",
    "Last activation time: %lu\n",
    "Total running time: %lu\n\n"].flatMap String.toList

def reportArgs (f : Fiber) : List Arg :=
  [.text f.info.name.toList,
    .int f.info.parent,
    .int f.info.state,
    .word f.info.entryPoint,
    .word f.info.param,
    .word f.info.successfulActivations,
    .int f.info.failedActivations,
    .word f.info.lastActivationTime,
    .word f.info.totalRunningTime]

/-- The text that `snprintf` is given room for. -/
def formatted (p : PointerText) (f : Fiber) : List Char :=
  Printf.format p.text reportFormat (reportArgs f)

/-- The C string in `fiber_data`: `snprintf` cuts the text off before the last byte, and
`strnlen` stops at a NUL. -/
def fiberData (p : PointerText) (f : Fiber) : List Char :=
  ((formatted p f).take (infoSize - 1)).takeWhile (· ≠ '\x00')

/-! ## Reading -/

/-- `fibers_read` from `strnlen` on. `copied` says whether `copy_to_user` succeeds. -/
def readData (data : List Char) (bufSize : Word) (offset : ℕ) (copied : Bool) :
    SequentialRead.Result Char :=
  let dataLenght : ℤ := data.length
  if dataLenght ≤ offset then ⟨0, offset, []⟩
  else
    -- the comparison is unsigned, `read_bytes` an `int`
    let readBytes : ℤ :=
      if bufSize < BitVec.ofInt 64 (dataLenght - offset - 1) then wrap32 bufSize.toNat
      else wrap32 (dataLenght - offset - 1)
    if copied then
      ⟨readBytes, (offset + readBytes).toNat, (data.drop offset).take readBytes.toNat⟩
    else ⟨-1, offset, []⟩

/-- `fibers_read` of the file `name` for the process `tgid`. A name that `kstrtoul` does not take
leaves `read_fid` at 0. -/
def fibersRead (p : PointerText) (kstrtoul : String → ℕ → Option Word) (groups : Groups)
    (tgid : ℤ) (name : String) (bufSize : Word) (offset : ℕ) (copied : Bool) :
    SequentialRead.Result Char :=
  match getGroup tgid groups with
  | none => ⟨-Errno.ESRCH.code, offset, []⟩
  | some tg =>
    match getFiber (wrap32 ((kstrtoul name decimal).getD 0).toNat) tg with
    | none => ⟨-Errno.ESRCH.code, offset, []⟩
    | some f => readData (fiberData p f) bufSize offset copied

/-! ## What a report says -/

/-- The fields of a record that its report is about. -/
structure Fields where
  fid : ℤ
  parent : ℤ
  state : ℤ
  entryPoint : ℕ
  successfulActivations : ℤ
  failedActivations : ℤ
  lastActivationTime : ℕ
  totalRunningTime : ℕ
  deriving DecidableEq

def Fiber.fields (f : Fiber) : Fields where
  fid := f.fid
  parent := f.info.parent
  state := f.info.state
  entryPoint := f.info.entryPoint.toNat
  successfulActivations := f.info.successfulActivations.toNat
  failedActivations := f.info.failedActivations
  lastActivationTime := f.info.lastActivationTime.toNat
  totalRunningTime := f.info.totalRunningTime.toNat

/-- The fields with `entry_point` cut to an `unsigned int` and `successful_activations` to an
`int`. -/
def Fields.cut (d : Fields) : Fields :=
  { d with
    entryPoint := d.entryPoint % 2 ^ 32
    successfulActivations := wrap32 d.successfulActivations }

/-- The lines of a report, the last one empty. -/
def Fields.lines (d : Fields) (param : List Char) : List (List Char) :=
  ["Name (Fiber ID): ".toList ++ Printf.signed d.fid,
    "Created by Thread: ".toList ++ Printf.signed d.parent,
    "Currently used by Thread: ".toList ++ Printf.signed d.state,
    "Entry point: ".toList ++ Nat.toDigits 16 d.entryPoint,
    "Parameters: ".toList ++ param,
    "Activations: ".toList ++ (Printf.signed d.successfulActivations ++
      (" success, ".toList ++ (Printf.signed d.failedActivations ++ " failed".toList))),
    "Last activation time: ".toList ++ Nat.toDigits 10 d.lastActivationTime,
    "Total running time: ".toList ++ Nat.toDigits 10 d.totalRunningTime,
    []]

/-- What follows a label. -/
def after (label : String) (s : List Char) : List Char := s.drop label.toList.length

def word (s : List Char) : List Char := s.takeWhile (· ≠ ' ')

/-- The fields read back from a report, each from its line. -/
def parseReport (s : List Char) : Fields where
  fid := Printf.integer (after "Name (Fiber ID): " (Printf.line 0 s))
  parent := Printf.integer (after "Created by Thread: " (Printf.line 1 s))
  state := Printf.integer (after "Currently used by Thread: " (Printf.line 2 s))
  entryPoint := Printf.numeral 16 (after "Entry point: " (Printf.line 3 s))
  successfulActivations := Printf.integer (word (after "Activations: " (Printf.line 5 s)))
  failedActivations := Printf.integer (word (after " success, "
    ((after "Activations: " (Printf.line 5 s)).dropWhile (· ≠ ' '))))
  lastActivationTime := Printf.numeral 10 (after "Last activation time: " (Printf.line 6 s))
  totalRunningTime := Printf.numeral 10 (after "Total running time: " (Printf.line 7 s))

/-- A record whose fields are of their C types, under the name that `PREPARE_INFO` gives it. -/
structure Fiber.WellTyped (f : Fiber) : Prop where
  fid_nonneg : 0 ≤ f.fid
  fid_int : isInt f.fid
  name_eq : f.info.name = toString f.fid
  parent_int : isInt f.info.parent
  state_int : isInt f.info.state
  failed_int : isInt f.info.failedActivations

theorem cut_fields (f : Fiber) : f.fields.cut =
    { fid := f.fid
      parent := f.info.parent
      state := f.info.state
      entryPoint := f.info.entryPoint.toNat % 2 ^ 32
      successfulActivations := (f.info.successfulActivations.toNat : ℤ).bmod (2 ^ 32)
      failedActivations := f.info.failedActivations
      lastActivationTime := f.info.lastActivationTime.toNat
      totalRunningTime := f.info.totalRunningTime.toNat } := by
  simp only [Fields.cut, Fiber.fields, wrap32]

theorem after_append (label : String) (s : List Char) : after label (label.toList ++ s) = s := by
  simp [after]

theorem toList_name {f : Fiber} (h : f.WellTyped) : f.info.name.toList = Printf.signed f.fid := by
  rw [h.name_eq, Printf.toList_toString]

theorem unlines_eight (l₁ l₂ l₃ l₄ l₅ l₆ l₇ l₈ : List Char) :
    Printf.unlines [l₁, l₂, l₃, l₄, l₅, l₆, l₇, l₈, []] =
      (l₁ ++ ['\n']) ++ ((l₂ ++ ['\n']) ++ ((l₃ ++ ['\n']) ++ ((l₄ ++ ['\n']) ++
        ((l₅ ++ ['\n']) ++ ((l₆ ++ ['\n']) ++ ((l₇ ++ ['\n']) ++
          ((l₈ ++ ['\n']) ++ ['\n']))))))) := by
  simp [Printf.unlines]

/-- The text of a well-typed record is a function of its cut fields and its parameter. -/
theorem formatted_eq (p : PointerText) {f : Fiber} (h : f.WellTyped) :
    formatted p f = Printf.unlines (f.fields.cut.lines (p.text f.info.param)) := by
  have hname : Prints p.text "Name (Fiber ID): %s\n".toList [.text f.info.name.toList]
      (("Name (Fiber ID): ".toList ++ f.info.name.toList) ++ ['\n']) :=
    (prints_s _).labelled "Name (Fiber ID): " (by decide)
  have hparent : Prints p.text "Created by Thread: %d\n".toList [.int f.info.parent]
      (("Created by Thread: ".toList ++ Printf.signed f.info.parent) ++ ['\n']) :=
    (prints_int h.parent_int.1 h.parent_int.2).labelled "Created by Thread: " (by decide)
  have hstate : Prints p.text "Currently used by Thread: %d\n".toList [.int f.info.state]
      (("Currently used by Thread: ".toList ++ Printf.signed f.info.state) ++ ['\n']) :=
    (prints_int h.state_int.1 h.state_int.2).labelled "Currently used by Thread: " (by decide)
  have hentry : Prints p.text "Entry point: %x\n".toList [.word f.info.entryPoint]
      (("Entry point: ".toList ++
        Nat.toDigits 16 (f.info.entryPoint.setWidth 32).toNat) ++ ['\n']) :=
    (prints_x _).labelled "Entry point: " (by decide)
  have hparam : Prints p.text "Parameters: %p\n".toList [.word f.info.param]
      (("Parameters: ".toList ++ p.text f.info.param) ++ ['\n']) :=
    (prints_p _).labelled "Parameters: " (by decide)
  have hactivations : Prints p.text "Activations: %d success, %d failed\n".toList
      [.word f.info.successfulActivations, .int f.info.failedActivations]
      (("Activations: ".toList ++
        (Printf.signed (f.info.successfulActivations.setWidth 32).toInt ++
          (" success, ".toList ++ (Printf.signed f.info.failedActivations ++
            " failed".toList)))) ++ ['\n']) :=
    ((prints_d _).append ((prints_literal (l := " success, ".toList) (by decide)).append
      ((prints_int h.failed_int.1 h.failed_int.2).append
        (prints_literal (l := " failed".toList) (by decide))))).labelled "Activations: " (by decide)
  have hlast : Prints p.text "Last activation time: %lu\n".toList
      [.word f.info.lastActivationTime]
      (("Last activation time: ".toList ++
        Nat.toDigits 10 f.info.lastActivationTime.toNat) ++ ['\n']) :=
    (prints_lu _).labelled "Last activation time: " (by decide)
  have htotal : Prints p.text "Total running time: %lu\n\n".toList
      [.word f.info.totalRunningTime]
      ((("Total running time: ".toList ++
        Nat.toDigits 10 f.info.totalRunningTime.toNat) ++ ['\n']) ++ ['\n']) :=
    ((prints_lu _).labelled "Total running time: " (by decide)).append
      (prints_literal (by decide))
  have hend : Prints p.text [] [] [] := prints_literal (List.not_mem_nil)
  have hall : formatted p f = _ := (hname.append (hparent.append (hstate.append (hentry.append
    (hparam.append (hactivations.append (hlast.append (htotal.append hend)))))))).format_eq
  rw [hall, toList_name h, BitVec.toNat_setWidth, BitVec.toInt_setWidth, List.append_nil]
  rw [cut_fields, Fields.lines, unlines_eight]

/-! ## Reading the fields back -/

/-- Text that stays on its line and inside its string. -/
def Printable (s : List Char) : Prop := ∀ c ∈ s, c ≠ '\n' ∧ c ≠ '\x00'

theorem Printable.append {s t : List Char} (hs : Printable s) (ht : Printable t) :
    Printable (s ++ t) :=
  fun c hc => (List.mem_append.mp hc).elim (hs c) (ht c)

/-- The labels are tested character by character. -/
theorem printable_of_all {s : List Char} (h : s.all (fun c => c != '\n' && c != '\x00') = true) :
    Printable s := by
  intro c hc
  have hboth := List.all_eq_true.mp h c hc
  rw [Bool.and_eq_true, bne_iff_ne, bne_iff_ne] at hboth
  exact hboth

theorem printable_signed (z : ℤ) : Printable (Printf.signed z) := by
  intro c hc
  have h := (Printf.isNumeric_of_mem_signed hc).not_space
  exact ⟨h.1, h.2.2⟩

theorem printable_toDigits {b : ℕ} (hb : 1 < b) (hb' : b ≤ 16) (n : ℕ) :
    Printable (Nat.toDigits b n) := by
  intro c hc
  have h := (Printf.isNumeric_of_mem_toDigits hb hb' hc).not_space
  exact ⟨h.1, h.2.2⟩

section Lines

variable (d : Fields) {param : List Char}

theorem printable_lines (hp : Printable param) : ∀ l ∈ d.lines param, Printable l := by
  have decimal : ∀ n, Printable (Nat.toDigits 10 n) :=
    printable_toDigits (by decide) (by decide)
  have label : ∀ {l : String} {s}, l.toList.all (fun c => c != '\n' && c != '\x00') = true →
      Printable s → Printable (l.toList ++ s) := fun hl hs => (printable_of_all hl).append hs
  simp only [Fields.lines, List.forall_mem_cons]
  refine ⟨label (by decide) (printable_signed _), label (by decide) (printable_signed _),
    label (by decide) (printable_signed _),
    label (by decide) (printable_toDigits (by decide) (by decide) _), label (by decide) hp,
    label (by decide) ((printable_signed _).append (label (by decide)
      ((printable_signed _).append ?_))),
    label (by decide) (decimal _), label (by decide) (decimal _), ?_, ?_⟩
  · exact printable_of_all (s := " failed".toList) (by decide)
  · exact fun c hc => absurd hc List.not_mem_nil
  · exact fun l hl => absurd hl List.not_mem_nil

theorem line_lines (hp : Printable param) {n : ℕ} (hn : n < (d.lines param).length) :
    Printf.line n (Printf.unlines (d.lines param)) = (d.lines param)[n] :=
  Printf.line_unlines (fun l hl hc => (printable_lines d hp l hl _ hc).1 rfl) hn

theorem signed_ne_space (z : ℤ) : ∀ c ∈ Printf.signed z, decide (c ≠ ' ') = true :=
  fun _ hc => decide_eq_true (Printf.isNumeric_of_mem_signed hc).not_space.2.1

theorem word_signed (z : ℤ) (s : List Char) :
    word (Printf.signed z ++ ' ' :: s) = Printf.signed z := by
  rw [word, List.takeWhile_append_of_pos (signed_ne_space z)]
  simp

theorem dropWhile_signed (z : ℤ) (s : List Char) :
    (Printf.signed z ++ ' ' :: s).dropWhile (· ≠ ' ') = ' ' :: s := by
  rw [List.dropWhile_append_of_pos (signed_ne_space z)]
  simp

theorem parse_activations (a b : ℤ) : ∀ s, s = "Activations: ".toList ++ (Printf.signed a ++
      (" success, ".toList ++ (Printf.signed b ++ " failed".toList))) →
    Printf.integer (word (after "Activations: " s)) = a ∧
      Printf.integer (word (after " success, "
        ((after "Activations: " s).dropWhile (· ≠ ' ')))) = b := by
  rintro s rfl
  have hsuccess : " success, ".toList ++ (Printf.signed b ++ " failed".toList) =
      ' ' :: ("success, ".toList ++ (Printf.signed b ++ " failed".toList)) := rfl
  have hfailed : " failed".toList = ' ' :: "failed".toList := rfl
  rw [after_append, hsuccess, word_signed, dropWhile_signed, ← hsuccess, after_append, hfailed,
    word_signed, Printf.integer_signed, Printf.integer_signed]
  exact ⟨rfl, rfl⟩

theorem parse_lines (hp : Printable param) :
    parseReport (Printf.unlines (d.lines param)) = d := by
  have hline : ∀ n (hn : n < 9), Printf.line n (Printf.unlines (d.lines param)) =
      (d.lines param).get ⟨n, hn⟩ := fun n hn => line_lines d hp hn
  have h₀ : Printf.line 0 (Printf.unlines (d.lines param)) =
      "Name (Fiber ID): ".toList ++ Printf.signed d.fid := hline 0 (by decide)
  have h₁ : Printf.line 1 (Printf.unlines (d.lines param)) =
      "Created by Thread: ".toList ++ Printf.signed d.parent := hline 1 (by decide)
  have h₂ : Printf.line 2 (Printf.unlines (d.lines param)) =
      "Currently used by Thread: ".toList ++ Printf.signed d.state := hline 2 (by decide)
  have h₃ : Printf.line 3 (Printf.unlines (d.lines param)) =
      "Entry point: ".toList ++ Nat.toDigits 16 d.entryPoint := hline 3 (by decide)
  have h₆ : Printf.line 6 (Printf.unlines (d.lines param)) =
      "Last activation time: ".toList ++ Nat.toDigits 10 d.lastActivationTime :=
    hline 6 (by decide)
  have h₇ : Printf.line 7 (Printf.unlines (d.lines param)) =
      "Total running time: ".toList ++ Nat.toDigits 10 d.totalRunningTime := hline 7 (by decide)
  obtain ⟨hsuccessful, hfailed⟩ := parse_activations d.successfulActivations
    d.failedActivations _ (hline 5 (by decide))
  have hdecimal : ∀ n, Printf.numeral 10 (Nat.toDigits 10 n) = n :=
    Printf.numeral_toDigits (by decide) (by decide)
  rw [parseReport, hsuccessful, hfailed, h₀, h₁, h₂, h₃, h₆, h₇]
  simp only [after_append, Printf.integer_signed, hdecimal,
    Printf.numeral_toDigits (b := 16) (by decide) (by decide)]

theorem length_lines : (Printf.unlines (d.lines param)).length =
    (Printf.signed d.fid).length + (Printf.signed d.parent).length +
      (Printf.signed d.state).length + (Nat.toDigits 16 d.entryPoint).length + param.length +
      (Printf.signed d.successfulActivations).length + (Printf.signed d.failedActivations).length +
      (Nat.toDigits 10 d.lastActivationTime).length +
      (Nat.toDigits 10 d.totalRunningTime).length + 168 := by
  rw [Fields.lines, unlines_eight]
  simp only [List.length_append, String.length_toList, List.length_cons, List.length_nil]
  have labels : "Name (Fiber ID): ".length + "Created by Thread: ".length +
      "Currently used by Thread: ".length + "Entry point: ".length + "Parameters: ".length +
      "Activations: ".length + " success, ".length + " failed".length +
      "Last activation time: ".length + "Total running time: ".length = 159 := by decide
  omega

end Lines

/-- A new record is well typed while the counter does not wrap. -/
theorem wellTyped_newFiber {tg : ThreadGroup} {t : Thread} (cpu : Cpu)
    (hfid : 0 ≤ atomicIncReturn tg.fidCount) (ht : isInt t.pid) :
    (newFiber tg t cpu).WellTyped where
  fid_nonneg := hfid
  fid_int := isInt_wrap32 _
  name_eq := rfl
  parent_int := ht
  state_int := isInt_zero
  failed_int := isInt_zero

theorem natAbs_lt_of_isInt {z : ℤ} (h : isInt z) : z.natAbs < 10 ^ 10 := by
  have h₁ := h.1
  have h₂ := h.2
  omega

/-- The text of a well-typed record is short of the room for it. -/
theorem formatted_lt (p : PointerText) {f : Fiber} (h : f.WellTyped) :
    (formatted p f).length < infoSize := by
  have int : ∀ {z}, isInt z → (Printf.signed z).length ≤ 11 :=
    fun hz => Printf.length_signed_le (by decide) (natAbs_lt_of_isInt hz)
  have long : ∀ w : Word, (Nat.toDigits 10 w.toNat).length ≤ 20 := fun w =>
    Printf.length_toDigits_le (by decide) (by decide)
      (w.isLt.trans (by decide : 2 ^ 64 < 10 ^ 20))
  have hex : (Nat.toDigits 16 (f.info.entryPoint.toNat % 2 ^ 32)).length ≤ 8 :=
    Printf.length_toDigits_le (by decide) (by decide) (Nat.mod_lt _ (by decide))
  have hfid := int h.fid_int
  have hparent := int h.parent_int
  have hstate := int h.state_int
  have hfailed := int h.failed_int
  have hsuccessful := int (isInt_wrap32 f.info.successfulActivations.toNat)
  have hparam := p.length_le f.info.param
  have hlast := long f.info.lastActivationTime
  have htotal := long f.info.totalRunningTime
  rw [formatted_eq p h, length_lines, cut_fields]
  unfold wrap32 at hsuccessful
  dsimp only [infoSize]
  omega

theorem fiberData_eq_formatted (p : PointerText) {f : Fiber} (h : f.WellTyped) :
    fiberData p f = formatted p f := by
  have hlen : (formatted p f).length ≤ infoSize - 1 := Nat.le_pred_of_lt (formatted_lt p h)
  rw [fiberData, List.take_of_length_le hlen, List.takeWhile_eq_self_iff]
  intro c hc
  rw [formatted_eq p h] at hc
  obtain rfl | ⟨l, hl, hcl⟩ := Printf.mem_unlines hc
  · decide
  · exact decide_eq_true (printable_lines _ (p.printable _) l hl c hcl).2

theorem parse_fiberData (p : PointerText) {f : Fiber} (h : f.WellTyped) :
    parseReport (fiberData p f) = f.fields.cut := by
  rw [fiberData_eq_formatted p h, formatted_eq p h, parse_lines _ (p.printable _)]

/-- What a report leaves of a record. -/
theorem fiberData_eq_iff (p : PointerText) {f g : Fiber} (hf : f.WellTyped) (hg : g.WellTyped) :
    fiberData p f = fiberData p g ↔
      f.fields.cut = g.fields.cut ∧ p.text f.info.param = p.text g.info.param := by
  constructor
  · intro h
    have hcut : f.fields.cut = g.fields.cut := by
      rw [← parse_fiberData p hf, h, parse_fiberData p hg]
    refine ⟨hcut, ?_⟩
    rw [fiberData_eq_formatted p hf, fiberData_eq_formatted p hg, formatted_eq p hf,
      formatted_eq p hg] at h
    have hline : "Parameters: ".toList ++ p.text f.info.param =
        "Parameters: ".toList ++ p.text g.info.param :=
      (line_lines f.fields.cut (n := 4) (p.printable _) (show 4 < 9 by decide)).symm.trans
        ((congrArg (Printf.line 4) h).trans
          (line_lines g.fields.cut (n := 4) (p.printable _) (show 4 < 9 by decide)))
    exact List.append_cancel_left hline
  · rintro ⟨hcut, hparam⟩
    rw [fiberData_eq_formatted p hf, fiberData_eq_formatted p hg, formatted_eq p hf,
      formatted_eq p hg, hcut, hparam]

theorem cut_eq_iff (f : Fiber) : f.fields.cut = f.fields ↔
    f.info.entryPoint.toNat < 2 ^ 32 ∧ f.info.successfulActivations.toNat < 2 ^ 31 := by
  constructor
  · intro h
    simp only [Fields.cut, Fiber.fields, Fields.mk.injEq] at h
    obtain ⟨-, -, -, hentry, hsuccessful, -⟩ := h
    have hint := (isInt_wrap32 f.info.successfulActivations.toNat).2
    exact ⟨by omega, by omega⟩
  · rintro ⟨hentry, hsuccessful⟩
    have hwrap : wrap32 f.info.successfulActivations.toNat =
        f.info.successfulActivations.toNat := wrap32_of_range (by omega) (by omega)
    simp only [Fields.cut, Fiber.fields, Nat.mod_eq_of_lt hentry, hwrap]

/-- Every report is whole. Its lines are the record's fields just when `entry_point` is an
`unsigned int` and `successful_activations` an `int`, and two records with different fields have
the same report just when they agree up to those cuts and in the text of `param`. -/
theorem report_faithful (p : PointerText) (f : Fiber) (hf : f.WellTyped) :
    (formatted p f).length < infoSize ∧ fiberData p f = formatted p f ∧
    (parseReport (fiberData p f) = f.fields ↔
      f.info.entryPoint.toNat < 2 ^ 32 ∧ f.info.successfulActivations.toNat < 2 ^ 31) ∧
    ∀ g : Fiber, g.WellTyped → f.fields ≠ g.fields →
      (fiberData p f ≠ fiberData p g ↔
        f.fields.cut ≠ g.fields.cut ∨ p.text f.info.param ≠ p.text g.info.param) := by
  refine ⟨formatted_lt p hf, fiberData_eq_formatted p hf, ?_, fun g hg _ => ?_⟩
  · rw [parse_fiberData p hf]
    exact cut_eq_iff f
  · rw [ne_eq, fiberData_eq_iff p hf hg]
    tauto

/-- A pointer as 16 hexadecimal digits. -/
def hexText (w : Word) : List Char :=
  List.replicate (16 - (Nat.toDigits 16 w.toNat).length) '0' ++ Nat.toDigits 16 w.toNat

theorem length_hexText_le (w : Word) : (hexText w).length ≤ 64 := by
  have hlen : (Nat.toDigits 16 w.toNat).length ≤ 16 :=
    Printf.length_toDigits_le (by decide) (by decide) w.isLt
  rw [hexText, List.length_append, List.length_replicate]
  omega

theorem printable_hexText (w : Word) : Printable (hexText w) := by
  refine Printable.append (fun c hc => ?_) (printable_toDigits (by decide) (by decide) _)
  rw [List.eq_of_mem_replicate hc]
  decide

def hexPointer : PointerText := ⟨hexText, length_hexText_le, printable_hexText⟩

/-- The first fiber of a process that was at the address `entry` when it was converted. -/
def fiberAt (entry : Word) : Fiber :=
  newFiber ⟨1, noFibers, .init hashZero, .init hashZero⟩ ⟨1, noFibers⟩
    { (default : Cpu) with regs := { (default : PtRegs) with ip := entry } }

theorem wellTyped_fiberAt (entry : Word) : (fiberAt entry).WellTyped :=
  wellTyped_newFiber _ (by decide) ⟨by decide, by decide⟩

theorem report_faithful_fiberAt :
    (formatted hexPointer (fiberAt 0x400000)).length < infoSize ∧
    fiberData hexPointer (fiberAt 0x400000) = formatted hexPointer (fiberAt 0x400000) ∧
    (parseReport (fiberData hexPointer (fiberAt 0x400000)) = (fiberAt 0x400000).fields ↔
      (fiberAt 0x400000).info.entryPoint.toNat < 2 ^ 32 ∧
        (fiberAt 0x400000).info.successfulActivations.toNat < 2 ^ 31) ∧
    ∀ g : Fiber, g.WellTyped → (fiberAt 0x400000).fields ≠ g.fields →
      (fiberData hexPointer (fiberAt 0x400000) ≠ fiberData hexPointer g ↔
        (fiberAt 0x400000).fields.cut ≠ g.fields.cut ∨
          hexPointer.text (fiberAt 0x400000).info.param ≠ hexPointer.text g.info.param) :=
  report_faithful hexPointer (fiberAt 0x400000) (wellTyped_fiberAt 0x400000)

/-- Two entry points 4 GiB apart give one report. -/
theorem report_not_faithful :
    (fiberAt 0x400000).WellTyped ∧ (fiberAt 0x100400000).WellTyped ∧
    (fiberAt 0x100400000).fields ≠ (fiberAt 0x400000).fields ∧
    fiberData hexPointer (fiberAt 0x100400000) = fiberData hexPointer (fiberAt 0x400000) ∧
    parseReport (fiberData hexPointer (fiberAt 0x100400000)) ≠ (fiberAt 0x100400000).fields := by
  have hlow := wellTyped_fiberAt 0x400000
  have hhigh := wellTyped_fiberAt 0x100400000
  refine ⟨hlow, hhigh, by decide, ?_, ?_⟩
  · exact (fiberData_eq_iff hexPointer hhigh hlow).mpr ⟨by decide, rfl⟩
  · rw [parse_fiberData hexPointer hhigh, ne_eq, cut_eq_iff]
    decide

/-! ## Pieces -/

theorem wrap32_toNat {n : ℕ} (h : n < infoSize) : (wrap32 n).toNat = n ∧ wrap32 n = n := by
  have hw : wrap32 n = n := wrap32_of_range (by omega) (by unfold infoSize at h; omega)
  exact ⟨by rw [hw]; rfl, hw⟩

/-- Every successful read ends at most one character before the end of the text. -/
theorem readData_serves {data : List Char} (h₀ : data ≠ []) (h : data.length < infoSize) :
    Serves (fun b o => readData data b o true) BitVec.toNat data (data.length - 1) := by
  intro b o ho
  have hpos : 0 < data.length := List.length_pos_of_ne_nil h₀
  have hleft : (data.length : ℤ) - o - 1 = ((data.length - 1 - o : ℕ) : ℤ) := by omega
  have hsmall : data.length - 1 - o < 2 ^ 64 := by unfold infoSize at h; omega
  have hread : (if b < BitVec.ofInt 64 ((data.length - 1 - o : ℕ) : ℤ) then wrap32 b.toNat
      else wrap32 ((data.length - 1 - o : ℕ) : ℤ)) =
      ((min b.toNat (data.length - 1 - o) : ℕ) : ℤ) := by
    have hofNat : (BitVec.ofInt 64 ((data.length - 1 - o : ℕ) : ℤ)).toNat =
        data.length - 1 - o := by
      rw [BitVec.ofInt_natCast, BitVec.toNat_ofNat, Nat.mod_eq_of_lt hsmall]
    have hlt : b < BitVec.ofInt 64 ((data.length - 1 - o : ℕ) : ℤ) ↔
        b.toNat < data.length - 1 - o := by
      rw [BitVec.lt_def, hofNat]
    simp only [hlt]
    split
    · next hroom => rw [(wrap32_toNat (by omega)).2, min_eq_left hroom.le]
    · next hge => rw [(wrap32_toNat (by omega)).2, min_eq_right (by omega)]
  have hin : ¬ (data.length : ℤ) ≤ o := by omega
  simp only [readData, if_neg hin, hleft, hread, if_true]
  congr 1

/-! ## The last character -/

section StopsShort

variable {p : PointerText} {kstrtoul : String → ℕ → Option Word} {groups : Groups} {tgid : ℤ}
  {name : String} {tg : ThreadGroup} {f : Fiber}

theorem fibersRead_eq (hg : getGroup tgid groups = some tg)
    (hf : getFiber (wrap32 ((kstrtoul name decimal).getD 0).toNat) tg = some f) :
    fibersRead p kstrtoul groups tgid name = readData (fiberData p f) := by
  funext b o c
  simp only [fibersRead, hg, hf]

theorem fiberData_ne_nil (p : PointerText) (f : Fiber) : fiberData p f ≠ [] := by
  obtain ⟨fmt, hfmt⟩ : ∃ fmt, reportFormat = ['N'] ++ fmt := ⟨_, rfl⟩
  have hhead : formatted p f = ['N'] ++ Printf.format p.text fmt (reportArgs f) := by
    rw [formatted, hfmt]
    exact prints_literal (by decide) fmt (reportArgs f)
  rw [fiberData, hhead]
  simp [infoSize]

theorem length_fiberData_lt (p : PointerText) (f : Fiber) :
    (fiberData p f).length < infoSize := by
  have htake := (List.takeWhile_prefix (fun c => decide (c ≠ '\x00'))
    (l := (formatted p f).take (infoSize - 1))).length_le
  rw [List.length_take] at htake
  exact lt_of_le_of_lt (htake.trans (min_le_left _ _)) (by decide)

theorem readsOut_dropLast (hg : getGroup tgid groups = some tg)
    (hf : getFiber (wrap32 ((kstrtoul name decimal).getD 0).toNat) tg = some f)
    {buffers : ℕ → Word} (hb : ∀ k, 0 < buffers k) :
    ReadsOut (fun b o => fibersRead p kstrtoul groups tgid name b o true) buffers BitVec.toNat
      (fiberData p f).dropLast := by
  rw [fibersRead_eq hg hf, List.dropLast_eq_take]
  exact (readData_serves (fiberData_ne_nil p f) (length_fiberData_lt p f)).readsOut
    (Nat.sub_le _ _) fun k => BitVec.lt_def.mp (hb k)

theorem dropLast_fiberData_ne (p : PointerText) (f : Fiber) :
    (fiberData p f).dropLast ≠ fiberData p f := by
  intro h
  have hpos : 0 < (fiberData p f).length := List.length_pos_of_ne_nil (fiberData_ne_nil p f)
  have hlen := congrArg List.length h
  rw [List.length_dropLast] at hlen
  omega

/-- However a report is split into buffers, the reads yield it without its last character. -/
theorem fibersRead_stops_short (hg : getGroup tgid groups = some tg)
    (hf : getFiber (wrap32 ((kstrtoul name decimal).getD 0).toNat) tg = some f)
    (buffers : ℕ → Word) (hb : ∀ k, 0 < buffers k) :
    ReadsOut (fun b o => fibersRead p kstrtoul groups tgid name b o true) buffers BitVec.toNat
        (fiberData p f).dropLast ∧
      ¬ ReadsOut (fun b o => fibersRead p kstrtoul groups tgid name b o true) buffers
        BitVec.toNat (fiberData p f) :=
  ⟨readsOut_dropLast hg hf hb,
    fun hwhole => dropLast_fiberData_ne p f ((readsOut_dropLast hg hf hb).unique hwhole)⟩

end StopsShort

/-! ## A process with one fiber -/

/-- `kstrtoul` on a text of digits. -/
def parseUnsigned (s : String) (base : ℕ) : Option Word :=
  if s ≠ "" ∧ s.toList.all Char.isDigit ∧ Printf.numeral base s.toList < 2 ^ 64 then
    some (BitVec.ofNat 64 (Printf.numeral base s.toList))
  else none

theorem oneFiber_lookup : ∃ tg f, getGroup 1 oneFiber = some tg ∧
    getFiber (wrap32 ((parseUnsigned "0" decimal).getD 0).toNat) tg = some f := by
  have h : ((getGroup 1 oneFiber).bind
      (getFiber (wrap32 ((parseUnsigned "0" decimal).getD 0).toNat))).isSome = true := by
    decide +kernel
  obtain ⟨f, hf⟩ := Option.isSome_iff_exists.mp h
  obtain ⟨tg, hg, hf⟩ := Option.bind_eq_some_iff.mp hf
  exact ⟨tg, f, hg, hf⟩

/-- The first fiber of a process, read into buffers of a page. -/
theorem fibersRead_stops_short_oneFiber : ∃ tg f, getGroup 1 oneFiber = some tg ∧
    (ReadsOut (fun b o => fibersRead hexPointer parseUnsigned oneFiber 1 "0" b o true)
        (fun _ => 4096) BitVec.toNat (fiberData hexPointer f).dropLast ∧
      ¬ ReadsOut (fun b o => fibersRead hexPointer parseUnsigned oneFiber 1 "0" b o true)
        (fun _ => 4096) BitVec.toNat (fiberData hexPointer f)) := by
  obtain ⟨tg, f, hg, hf⟩ := oneFiber_lookup
  exact ⟨tg, f, hg, fibersRead_stops_short hg hf (fun _ => 4096) (fun _ => by decide)⟩

/-- Reading it until the first return of 0 does not give its report. -/
theorem fibersRead_not_whole : ∃ tg f, getGroup 1 oneFiber = some tg ∧ getFiber 0 tg = some f ∧
    ¬ ReadsOut (fun b o => fibersRead hexPointer parseUnsigned oneFiber 1 "0" b o true)
      (fun _ => 4096) BitVec.toNat (fiberData hexPointer f) := by
  obtain ⟨tg, f, hg, hf⟩ := oneFiber_lookup
  have hzero : wrap32 ((parseUnsigned "0" decimal).getD 0).toNat = 0 := by decide +kernel
  exact ⟨tg, f, hg, hzero ▸ hf, fun hwhole => dropLast_fiberData_ne hexPointer f
    ((readsOut_dropLast hg hf fun _ => by decide).unique hwhole)⟩

end Fibers
