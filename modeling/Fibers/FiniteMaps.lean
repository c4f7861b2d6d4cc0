import Fibers.Execution

/-!
# The registry is a set of finite maps

In every reachable configuration the table of groups, and the two tables of each group,
are finite maps: at most one record under each key, and a lookup returns that record if
there is one. The fids of a group with `k` fibers are `0, …, k - 1`.

Nothing is assumed of the hash function, so all keys may share a bucket.
-/

namespace Fibers

/-- A table with distinct keys, and a lookup that is exact for it. -/
structure IsFiniteMap {α : Type} {key : α → ℤ} (T : HashTable Bucket key)
    (get : ℤ → Option α) : Prop where
  at_most_one : ∀ k, T.keys.count k ≤ 1
  get_eq_some : ∀ k r, get k = some r ↔ T.Mem r ∧ key r = k
  get_eq_none : ∀ k, get k = none ↔ ∀ r, T.Mem r → key r ≠ k

theorem isFiniteMap_of_unique {α : Type} {key : α → ℤ} {T : HashTable Bucket key}
    (h : T.Unique) : IsFiniteMap T T.find where
  at_most_one := by
    intro k
    rw [HashTable.count_keys]
    exact h k
  get_eq_some := fun _ _ => h.find_eq_some_iff
  get_eq_none := fun _ => HashTable.find_eq_none_iff

/-- The tables of one group, and its numbering. -/
structure GroupMaps (tg : ThreadGroup) : Prop where
  threads : IsFiniteMap tg.threads (fun pid => getThread pid tg)
  fibers : IsFiniteMap tg.fibers (fun fid => getFiber fid tg)
  fids : tg.fibers.keys = (Multiset.range tg.fibers.size).map Int.ofNat
  count : tg.fidCount = tg.fibers.size - 1

theorem Numbered.groupMaps {tg : ThreadGroup} (h : Numbered tg) : GroupMaps tg where
  threads := isFiniteMap_of_unique h.threads_unique
  fibers := isFiniteMap_of_unique h.fibers_unique
  fids := h.fids
  count := h.count

/-- The whole registry. -/
structure FiniteMaps (groups : Groups) : Prop where
  table : IsFiniteMap groups (fun tgid => getGroup tgid groups)
  group : ∀ tg, groups.Mem tg → GroupMaps tg

theorem Inv.finiteMaps {s : Cfg} (hi : Inv s) : FiniteMaps s.groups where
  table := isFiniteMap_of_unique hi.unique
  group := by
    intro tg hm
    have hg : (s.view tg.tgid).tg = some tg := hi.unique.find_eq_some_iff.mpr ⟨hm, rfl⟩
    exact (((hi.views tg.tgid).grouped tg hg).numbered).groupMaps

/-- In every run of pieces, whole calls and cleanups, in any order, the registry is a set of
finite maps. -/
theorem registry_finiteMaps {hash : ℤ → Bucket} {cpu : Task → Cpu} {h : History} {s : Cfg}
    (hr : Run (Step fun _ => True) (Cfg.initial hash cpu) h s) : FiniteMaps s.groups :=
  (inv_of_run hr).finiteMaps

/-- Two threads of one process convert at the same time, all records in one bucket. -/
def racingConverts : List Action :=
  [.call ⟨1, 1⟩ .convert, .call ⟨1, 2⟩ .convert, .tick ⟨1, 2⟩, .tick ⟨1, 1⟩, .tick ⟨1, 1⟩,
    .tick ⟨1, 2⟩, .tick ⟨1, 2⟩, .tick ⟨1, 1⟩]

theorem registry_finiteMaps_racingConverts :
    ∃ h s, execute [] (Cfg.initial (fun _ => 0) default) racingConverts = some (h, s) ∧
      (getGroup 1 s.groups).map (fun tg => tg.fidCount) = some 1 ∧ FiniteMaps s.groups := by
  obtain ⟨h, s, he, hc⟩ := exists_execute (Cfg.initial (fun _ => 0) default) racingConverts
    (fun _ s => (getGroup 1 s.groups).map (fun tg => tg.fidCount) = some 1) (by decide +kernel)
  refine ⟨h, s, he, of_decide_eq_true hc,
    registry_finiteMaps (run_of_execute_initial racingConverts ?_ ?_ he)⟩
  · simp [racingConverts]
  · decide

end Fibers
