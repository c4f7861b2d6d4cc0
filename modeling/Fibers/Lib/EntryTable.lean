import Mathlib.Data.List.Range
import Mathlib.Data.Int.Order.Basic
import Mathlib.Tactic.Common

/-!
# Walking a table of entries

Two loops over a table that is given by a pointer to its first entry and a length: `scan` looks
for an entry and reports which ones it examined, `fill` lists the entries from a position on
until the table or the room for them is at its end.

## Main results

- `EntryTable.scan_first` — a scan examines its first entry, whatever it finds
- `EntryTable.scan_found` — the first hit is found
- `EntryTable.fill_eq` — which entries are listed
-/

namespace EntryTable

/-! ## Scanning -/

/-- The indices examined from `base` on, at most `n` of them and none after a hit, and the hit. -/
def scan (hit : ℤ → Bool) (base : ℤ) : ℕ → List ℤ × Option ℤ
  | 0 => ([], none)
  | n + 1 =>
    if hit base then ([base], some base)
    else ((base :: (scan hit (base + 1) n).1), (scan hit (base + 1) n).2)

variable {hit : ℤ → Bool} {base : ℤ} {n : ℕ}

@[simp] theorem scan_zero : scan hit base 0 = ([], none) := rfl

theorem scan_first (h : 0 < n) : base ∈ (scan hit base n).1 := by
  cases n with
  | zero => exact absurd h (lt_irrefl 0)
  | succ n =>
    unfold scan
    split
    · exact List.mem_singleton.mpr rfl
    · exact List.mem_cons_self

theorem scan_one : scan hit base 1 = ([base], if hit base then some base else none) := by
  unfold scan
  split <;> simp

/-- The first hit in the table is found. -/
theorem scan_found {i : ℕ} (hi : i < n) (hhit : hit (base + i) = true)
    (hfirst : ∀ j < i, hit (base + (j : ℕ)) = false) : (scan hit base n).2 = some (base + i) := by
  induction i generalizing base n with
  | zero =>
    obtain ⟨n, rfl⟩ := Nat.exists_eq_add_of_lt hi
    have hbase : hit base = true := by simpa using hhit
    rw [Nat.zero_add, scan, if_pos hbase]
    simp
  | succ i ih =>
    obtain ⟨n, rfl⟩ : ∃ k, n = k + 1 := ⟨n - 1, by omega⟩
    have hbase : hit base = false := by simpa using hfirst 0 (Nat.succ_pos i)
    have hshift : ∀ j : ℕ, base + 1 + (j : ℤ) = base + ((j + 1 : ℕ) : ℤ) := by
      intro j
      omega
    rw [scan, hbase]
    show (scan hit (base + 1) n).2 = _
    rw [← hshift i]
    apply ih (Nat.lt_of_succ_lt_succ hi)
    · rw [hshift i]
      exact hhit
    · intro j hj
      rw [hshift j]
      exact hfirst (j + 1) (Nat.succ_lt_succ hj)

/-! ## Listing -/

/-- The items from position `pos` to `last`, as many as there is room for. -/
def fill {α : Type*} (item : ℕ → α) (last : ℕ) : ℕ → ℕ → List α
  | _, 0 => []
  | pos, room + 1 => if pos < last then item pos :: fill item last (pos + 1) room else []

theorem fill_eq {α : Type*} (item : ℕ → α) (last pos room : ℕ) :
    fill item last pos room = (List.range' pos (min room (last - pos))).map item := by
  induction room generalizing pos with
  | zero => simp [fill]
  | succ room ih =>
    unfold fill
    split
    · next hlt =>
      have hmin : min (room + 1) (last - pos) = min room (last - (pos + 1)) + 1 := by omega
      rw [ih, hmin, List.range'_succ, List.map_cons]
    · next hge =>
      have hmin : min (room + 1) (last - pos) = 0 := by omega
      rw [hmin]
      rfl

end EntryTable
