import Mathlib.Data.List.Basic

/-!
# Noninterference of a domain

A deterministic system whose actions belong to domains. If the actions of the other domains
do not change what one domain sees, and its own actions act on nothing but that, then deleting
all other actions from an execution changes neither its outputs nor what it sees at the end.

## Main results

- `Separated.purge` — the domain's part of an execution is an execution of its own
-/

namespace Purge

variable {σ α ο δ ν : Type*}

/-- The actions one after the other, with the output of each. -/
def exec (step : σ → α → Option (σ × ο)) : σ → List α → Option (σ × List (α × ο))
  | s, [] => some (s, [])
  | s, a :: as =>
    (step s a).bind fun (s', o) => (exec step s' as).map fun (s'', out) => (s'', (a, o) :: out)

/-- What one domain sees of the states is changed by its own actions alone, and these depend on
nothing else. -/
structure Separated (step : σ → α → Option (σ × ο)) (inv : σ → Prop) (view : σ → ν)
    (own : α → Bool) : Prop where
  inv_step : ∀ {s a s' o}, inv s → step s a = some (s', o) → inv s'
  respects : ∀ {s a s' o}, inv s → own a = false → step s a = some (s', o) → view s' = view s
  consistent : ∀ {s t a s' o}, inv s → inv t → view s = view t → own a = true →
    step s a = some (s', o) → ∃ t', step t a = some (t', o) ∧ view s' = view t'

namespace Separated

variable {step : σ → α → Option (σ × ο)} {inv : σ → Prop} {view : σ → ν} {own : α → Bool}

theorem purge (h : Separated step inv view own) {s t s' : σ} {acts : List α} {out : List (α × ο)}
    (hs : inv s) (ht : inv t) (hv : view s = view t) (he : exec step s acts = some (s', out)) :
    ∃ t', exec step t (acts.filter own) = some (t', out.filter (fun x => own x.1)) ∧
      view s' = view t' := by
  induction acts generalizing s t out with
  | nil =>
    cases he
    exact ⟨t, rfl, hv⟩
  | cons a as ih =>
    obtain ⟨⟨s₁, o⟩, hstep, hrest⟩ := Option.bind_eq_some_iff.mp he
    obtain ⟨⟨s₂, out'⟩, hexec, heq⟩ := Option.map_eq_some_iff.mp hrest
    cases heq
    have hs₁ := h.inv_step hs hstep
    cases ha : own a with
    | false =>
      have hv₁ : view s₁ = view t := (h.respects hs ha hstep).trans hv
      obtain ⟨t', hpurged, hview⟩ := ih hs₁ ht hv₁ hexec
      exact ⟨t', by simpa [ha] using hpurged, hview⟩
    | true =>
      obtain ⟨t₁, hstep', hv₁⟩ := h.consistent hs ht hv ha hstep
      obtain ⟨t', hpurged, hview⟩ := ih hs₁ (h.inv_step ht hstep') hv₁ hexec
      exact ⟨t', by simp [ha, exec, hstep', hpurged], hview⟩

end Separated

/-- A step function that is defined everywhere executes every list of actions. -/
theorem exec_isSome {step : σ → α → Option (σ × ο)} (h : ∀ s a, (step s a).isSome = true) (s : σ)
    (acts : List α) : ∃ s' out, exec step s acts = some (s', out) := by
  induction acts generalizing s with
  | nil => exact ⟨s, [], rfl⟩
  | cons a as ih =>
    obtain ⟨⟨s₁, o⟩, hstep⟩ := Option.isSome_iff_exists.mp (h s a)
    obtain ⟨s', out, hexec⟩ := ih s₁
    exact ⟨s', (a, o) :: out, by simp [exec, hstep, hexec]⟩

end Purge
