import Mathlib.Data.BitVec
import Mathlib.Data.List.TakeWhile
import Mathlib.Data.Nat.Digits.Lemmas

/-!
# Formatted output

The conversions `%s`, `%d`, `%x`, `%lu` and `%p` of a `printf`, each reading one argument slot of
64 bits at the width of the conversion, and what reads their output back: numerals in base 10
and 16, and the lines of a text. How a pointer is printed is a parameter.

## Main results

- `Printf.numeral_toDigits`, `Printf.integer_signed` — a printed number is read back
- `Printf.Prints.append`, `Printf.prints_literal` — a format is printed piece by piece
- `Printf.line_unlines` — the lines of a text are those it was made of
-/

namespace Printf

/-! ## Numerals -/

/-- The value of a digit in a base up to 16. -/
def digit (c : Char) : ℕ := if c.toNat < 'a'.toNat then c.toNat - '0'.toNat else c.toNat - 'a'.toNat + 10

/-- The number that a numeral stands for. -/
def numeral (b : ℕ) (s : List Char) : ℕ := s.foldl (fun n c => b * n + digit c) 0

/-- A signed number in base 10. -/
def signed (z : ℤ) : List Char :=
  if z < 0 then '-' :: Nat.toDigits 10 z.natAbs else Nat.toDigits 10 z.natAbs

/-- The number that a signed numeral stands for. -/
def integer (s : List Char) : ℤ :=
  if s.head? = some '-' then -(numeral 10 s.tail : ℤ) else numeral 10 s

/-- The characters of printed numbers. -/
def isNumeric (c : Char) : Prop := c = '-' ∨ ∃ k < 16, c = Nat.digitChar k

theorem digit_digitChar {n : ℕ} (h : n < 16) : digit n.digitChar = n := by
  interval_cases n <;> rfl

theorem digitChar_ne_minus {n : ℕ} (h : n < 16) : n.digitChar ≠ '-' := by
  interval_cases n <;> decide

theorem isNumeric.not_space {c : Char} (h : isNumeric c) : c ≠ '\n' ∧ c ≠ ' ' ∧ c ≠ '\x00' := by
  obtain rfl | ⟨k, hk, rfl⟩ := h
  · decide
  · interval_cases k <;> decide

theorem numeral_append (b : ℕ) (s t : List Char) :
    numeral b (s ++ t) = t.foldl (fun n c => b * n + digit c) (numeral b s) := by
  simp [numeral]

theorem numeral_toDigits {b : ℕ} (hb : 1 < b) (hb' : b ≤ 16) (n : ℕ) :
    numeral b (Nat.toDigits b n) = n := by
  induction n using Nat.strongRecOn with
  | ind n ih =>
    rw [Nat.toDigits_eq_if hb]
    split
    · next hlt => simp [numeral, digit_digitChar (hlt.trans_le hb')]
    · next hge =>
      have hmod : n % b < 16 := (Nat.mod_lt n (by omega)).trans_le hb'
      rw [numeral_append, ih (n / b) (Nat.div_lt_self (by omega) hb)]
      simp [digit_digitChar hmod, Nat.div_add_mod]

theorem exists_digitChar_of_mem_toDigits {b : ℕ} (hb : 1 < b) {n : ℕ} {c : Char}
    (h : c ∈ Nat.toDigits b n) : ∃ k < b, c = Nat.digitChar k := by
  induction n using Nat.strongRecOn with
  | ind n ih =>
    rw [Nat.toDigits_eq_if hb] at h
    split at h
    · next hlt => exact ⟨n, hlt, List.mem_singleton.mp h⟩
    · next hge =>
      rcases List.mem_append.mp h with h | h
      · exact ih (n / b) (Nat.div_lt_self (by omega) hb) h
      · exact ⟨n % b, Nat.mod_lt n (by omega), List.mem_singleton.mp h⟩

theorem isNumeric_of_mem_toDigits {b : ℕ} (hb : 1 < b) (hb' : b ≤ 16) {n : ℕ} {c : Char}
    (h : c ∈ Nat.toDigits b n) : isNumeric c := by
  obtain ⟨k, hk, rfl⟩ := exists_digitChar_of_mem_toDigits hb h
  exact .inr ⟨k, hk.trans_le hb', rfl⟩

theorem isNumeric_of_mem_signed {z : ℤ} {c : Char} (h : c ∈ signed z) : isNumeric c := by
  unfold signed at h
  split at h
  · obtain rfl | h := List.mem_cons.mp h
    · exact .inl rfl
    · exact isNumeric_of_mem_toDigits (by decide) (by decide) h
  · exact isNumeric_of_mem_toDigits (by decide) (by decide) h

theorem integer_signed (z : ℤ) : integer (signed z) = z := by
  unfold signed integer
  split
  · next hneg =>
    simp only [List.head?_cons, if_true, List.tail_cons, numeral_toDigits (b := 10)
      (by decide) (by decide)]
    omega
  · next hpos =>
    have hhead : (Nat.toDigits 10 z.natAbs).head? ≠ some '-' := by
      intro h
      obtain ⟨k, hk, hc⟩ :=
        exists_digitChar_of_mem_toDigits (b := 10) (by decide) (List.mem_of_mem_head? h)
      exact digitChar_ne_minus (by omega) hc.symm
    rw [if_neg hhead, numeral_toDigits (by decide) (by decide)]
    omega

theorem toList_toString (z : ℤ) : (toString z).toList = signed z := by
  cases z with
  | ofNat n =>
    rw [signed, if_neg (by simp)]
    show (toString n).toList = Nat.toDigits 10 n
    simp
  | negSucc n =>
    rw [signed, if_pos (by simp)]
    show ("-" ++ (n + 1).repr).toList = '-' :: Nat.toDigits 10 (n + 1)
    simp

theorem toString_injective {y z : ℤ} (h : toString y = toString z) : y = z := by
  rw [← integer_signed y, ← toList_toString, h, toList_toString, integer_signed]

theorem length_toDigits_le {b k n : ℕ} (hb : 1 < b) (hk : 0 < k) (h : n < b ^ k) :
    (Nat.toDigits b n).length ≤ k :=
  (Nat.length_toDigits_le_iff hb hk).mpr h

theorem length_signed_le {k : ℕ} {z : ℤ} (hk : 0 < k) (h : z.natAbs < 10 ^ k) :
    (signed z).length ≤ k + 1 := by
  have hlen := length_toDigits_le (b := 10) (by decide) hk h
  unfold signed
  split
  · simpa using hlen
  · omega

/-! ## Formats -/

/-- An argument of a `printf`: a C string, or a slot with a number or a pointer. -/
inductive Arg
  | text (s : List Char)
  | word (w : BitVec 64)

/-- An `int` in an argument slot. -/
def Arg.int (z : ℤ) : Arg := .word (BitVec.ofInt 64 z)

/-- What `printf` writes, with pointers printed by `ptr`. -/
def format (ptr : BitVec 64 → List Char) : List Char → List Arg → List Char
  | '%' :: 's' :: fmt, .text s :: args => s ++ format ptr fmt args
  | '%' :: 'd' :: fmt, .word w :: args => signed (w.setWidth 32).toInt ++ format ptr fmt args
  | '%' :: 'x' :: fmt, .word w :: args =>
    Nat.toDigits 16 (w.setWidth 32).toNat ++ format ptr fmt args
  | '%' :: 'l' :: 'u' :: fmt, .word w :: args => Nat.toDigits 10 w.toNat ++ format ptr fmt args
  | '%' :: 'p' :: fmt, .word w :: args => ptr w ++ format ptr fmt args
  | c :: fmt, args => c :: format ptr fmt args
  | [], _ => []

/-- A piece of a format prints the arguments `as` as `out`, whatever follows it. -/
def Prints (ptr : BitVec 64 → List Char) (c : List Char) (as : List Arg) (out : List Char) : Prop :=
  ∀ fmt args, format ptr (c ++ fmt) (as ++ args) = out ++ format ptr fmt args

section Prints

variable {ptr : BitVec 64 → List Char}

theorem Prints.append {c c' : List Char} {as as' : List Arg} {out out' : List Char}
    (h : Prints ptr c as out) (h' : Prints ptr c' as' out') :
    Prints ptr (c ++ c') (as ++ as') (out ++ out') := by
  intro fmt args
  rw [List.append_assoc, List.append_assoc, h, h', List.append_assoc]

theorem Prints.format_eq {c : List Char} {as : List Arg} {out : List Char}
    (h : Prints ptr c as out) : format ptr c as = out := by
  have h' := h [] []
  rw [List.append_nil, List.append_nil] at h'
  rw [h', format, List.append_nil]

theorem prints_literal {l : List Char} (h : '%' ∉ l) : Prints ptr l [] l := by
  intro fmt args
  induction l with
  | nil => rfl
  | cons c l ih =>
    have hc : c ≠ '%' := fun he => h (he ▸ List.mem_cons_self)
    have hcons : format ptr (c :: (l ++ fmt)) args = c :: format ptr (l ++ fmt) args := by
      rw [format] <;> simp [hc]
    exact hcons.trans (congrArg _ (ih fun hm => h (List.mem_cons_of_mem c hm)))

/-- One conversion on a line with a label. -/
theorem Prints.labelled {c : List Char} {as : List Arg} {out : List Char} (label : String)
    (hl : '%' ∉ label.toList) (h : Prints ptr c as out) :
    Prints ptr (label.toList ++ (c ++ ['\n'])) as ((label.toList ++ out) ++ ['\n']) := by
  have hend : Prints ptr ['\n'] [] ['\n'] := prints_literal (by decide)
  have h' := ((prints_literal hl).append h).append hend
  rwa [List.append_assoc, List.nil_append, List.append_nil] at h'

theorem prints_s (s : List Char) : Prints ptr "%s".toList [.text s] s := by
  intro fmt args
  show format ptr ('%' :: 's' :: fmt) (.text s :: args) = _
  simp [format]

variable (w : BitVec 64)

theorem prints_d : Prints ptr "%d".toList [.word w] (signed (w.setWidth 32).toInt) := by
  intro fmt args
  show format ptr ('%' :: 'd' :: fmt) (.word w :: args) = _
  simp [format]

theorem prints_x : Prints ptr "%x".toList [.word w] (Nat.toDigits 16 (w.setWidth 32).toNat) := by
  intro fmt args
  show format ptr ('%' :: 'x' :: fmt) (.word w :: args) = _
  simp [format]

theorem prints_lu : Prints ptr "%lu".toList [.word w] (Nat.toDigits 10 w.toNat) := by
  intro fmt args
  show format ptr ('%' :: 'l' :: 'u' :: fmt) (.word w :: args) = _
  simp [format]

theorem prints_p : Prints ptr "%p".toList [.word w] (ptr w) := by
  intro fmt args
  show format ptr ('%' :: 'p' :: fmt) (.word w :: args) = _
  simp [format]

end Prints

/-- The low half of a slot holds the `int` that was passed in it. -/
theorem toInt_setWidth_ofInt {z : ℤ} (h₁ : -2 ^ 31 ≤ z) (h₂ : z < 2 ^ 31) :
    ((BitVec.ofInt 64 z).setWidth 32).toInt = z := by
  rw [BitVec.toInt_setWidth, BitVec.toNat_ofInt, Int.bmod_def]
  omega

theorem prints_int {ptr : BitVec 64 → List Char} {z : ℤ} (h₁ : -2 ^ 31 ≤ z) (h₂ : z < 2 ^ 31) :
    Prints ptr "%d".toList [.int z] (signed z) := by
  have h : Prints ptr _ _ _ := prints_d (BitVec.ofInt 64 z)
  rwa [toInt_setWidth_ofInt h₁ h₂] at h

/-! ## Lines -/

/-- Line `n` of a text, without its end. -/
def line : ℕ → List Char → List Char
  | 0, s => s.takeWhile (· ≠ '\n')
  | n + 1, s => line n (s.dropWhile (· ≠ '\n')).tail

section Line

variable {l s : List Char}

theorem not_newline (h : '\n' ∉ l) : ∀ c ∈ l, (fun c => decide (c ≠ '\n')) c = true :=
  fun _ hc => decide_eq_true (ne_of_mem_of_not_mem hc h)

theorem line_zero (h : '\n' ∉ l) : line 0 (l ++ '\n' :: s) = l := by
  rw [line, List.takeWhile_append_of_pos (not_newline h)]
  simp

theorem line_succ (n : ℕ) (h : '\n' ∉ l) : line (n + 1) (l ++ '\n' :: s) = line n s := by
  rw [line, List.dropWhile_append_of_pos (not_newline h)]
  simp

end Line

/-- The text made of some lines. -/
def unlines (ls : List (List Char)) : List Char := ls.flatMap (· ++ ['\n'])

theorem unlines_cons (l : List Char) (ls : List (List Char)) :
    unlines (l :: ls) = l ++ '\n' :: unlines ls := by
  simp [unlines]

theorem line_unlines {ls : List (List Char)} (h : ∀ l ∈ ls, '\n' ∉ l) {n : ℕ}
    (hn : n < ls.length) : line n (unlines ls) = ls[n] := by
  induction ls generalizing n with
  | nil => exact absurd hn (Nat.not_lt_zero n)
  | cons l ls ih =>
    have hl : '\n' ∉ l := h l List.mem_cons_self
    rw [unlines_cons]
    cases n with
    | zero => exact line_zero hl
    | succ n =>
      rw [line_succ n hl]
      exact ih (fun k hk => h k (List.mem_cons_of_mem l hk)) (by simpa using hn)

theorem mem_unlines {ls : List (List Char)} {c : Char} (h : c ∈ unlines ls) :
    c = '\n' ∨ ∃ l ∈ ls, c ∈ l := by
  obtain ⟨l, hl, hc⟩ := List.mem_flatMap.mp h
  obtain hc | hc := List.mem_append.mp hc
  · exact .inr ⟨l, hl, hc⟩
  · exact .inl (List.mem_singleton.mp hc)

end Printf
