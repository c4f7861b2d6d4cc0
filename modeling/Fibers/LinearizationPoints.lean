import Fibers.Invariant
import Fibers.MachineRefinement

/-!
# When a call takes effect

A switch that is taken apart into pieces happens, for its process, at a single moment: when its
thread changes its current fiber, or in the piece in which it fails. Converts, creates and the end
of a process are single steps and happen there.

While a switch is under way its thread holds the lock of the fiber that it leaves or of the one that
it enters, so another thread can be refused a fiber that nobody is on. That is an effect of its own.

## Main definitions

- `takesEffect` — what an entry of a history does to the machines
- `World.Takes` — an effect as a step of the machines
-/

namespace Fibers

/-! ## When a call takes effect -/

/-- What happens to the machines at one moment. -/
inductive Effect
  | user (t : Task) (cpu : Cpu)
  | serve (t : Task) (req : Request)
  /-- a switch is turned away from a parked fiber -/
  | refuse (t : Task) (next : ℤ)
  | release (tgid : ℤ)

/-- The fiber that a switch is to reach and has neither reached nor been turned away from. -/
def Frame.seeks : Frame → Option ℤ
  | .switchThread next => some next
  | .switchTarget next => some next
  | .trylock _ f => some f
  | .check _ f => some f
  | .switchOld f => some f
  | .activateState _ f => some f
  | .activateRead _ f => some f
  | .activateWrite _ f _ => some f
  | .activateTime _ f => some f
  | .activateCurrent _ f => some f
  | _ => none

/-- A thread tries the lock of a fiber that no thread is on. -/
def GroupView.TriesParked (v : GroupView) (pid fid : ℤ) : Prop :=
  v.frame pid = .trylock .switch fid ∧ ∀ q, v.current q ≠ some fid

open Classical in
/-- The effect of a step of the group: a switch takes effect in the piece after which it no longer
seeks its fiber. -/
noncomputable def GroupView.effect (v : GroupView) (a : Action) (v' : GroupView) : Option Effect :=
  match a with
  | .user t cpu => some (.user t cpu)
  | .call _ _ => none
  | .tick t =>
    match (v.frame t.pid).seeks, (v'.frame t.pid).seeks with
    | some next, none =>
      if v.TriesParked t.pid next then some (.refuse t next)
      else some (.serve t (.switchToFiber next))
    | _, _ => none
  | .convert t _ => some (.serve t .convertThreadToFiber)
  | .create t _ a => some (.serve t (.createFiber a))
  | .cleanup tgid => some (.release tgid)

/-- The effect of an entry of a history. -/
noncomputable def takesEffect (e : Entry Cfg Action) : Option Effect :=
  (e.pre.view e.act.tgid).effect e.act (e.post.view e.act.tgid)

section Effects

variable {v v' : GroupView} {tgid pid next : ℤ}

theorem not_triesParked (h : v.frame pid ≠ .trylock .switch next) : ¬ v.TriesParked pid next :=
  fun hn => h hn.1

theorem effect_silent
    (h : (v.frame pid).seeks = none ∨ (v'.frame pid).seeks = (v.frame pid).seeks) :
    v.effect (.tick ⟨tgid, pid⟩) v' = none := by
  simp only [GroupView.effect]
  cases hs : (v.frame pid).seeks with
  | none => rfl
  | some next =>
    rcases h with h | h
    · cases hs.symm.trans h
    · rw [h, hs]

theorem effect_serve (hs : (v.frame pid).seeks = some next) (he : (v'.frame pid).seeks = none)
    (hn : ¬ v.TriesParked pid next) :
    v.effect (.tick ⟨tgid, pid⟩) v' = some (.serve ⟨tgid, pid⟩ (.switchToFiber next)) := by
  simp only [GroupView.effect, hs, he, if_neg hn]

theorem effect_refuse (hs : (v.frame pid).seeks = some next) (he : (v'.frame pid).seeks = none)
    (hn : v.TriesParked pid next) :
    v.effect (.tick ⟨tgid, pid⟩) v' = some (.refuse ⟨tgid, pid⟩ next) := by
  simp only [GroupView.effect, hs, he, if_pos hn]

end Effects

/-! ## Effects on the machines -/

/-- The process that an effect is about. -/
def Effect.tgid : Effect → ℤ
  | .user t _ => t.tgid
  | .serve t _ => t.tgid
  | .refuse t _ => t.tgid
  | .release tgid => tgid

namespace World

noncomputable def effect (w : World) : Effect → World
  | .user t cpu => { w with cpu := Function.update w.cpu t cpu }
  | .serve t req =>
    w.after t ((w.machine t.tgid).serve t.pid (w.cpu t) (w.mem t.tgid) req)
  | .refuse t _ =>
    { w with cpu := Function.update w.cpu t ((w.cpu t).setReturn (.error .EAGAIN)) }
  | .release tgid => { w with machine := Function.update w.machine tgid .empty }

/-- A switch can be refused although its target is parked. -/
def Allows (w : World) : Effect → Prop
  | .refuse t next =>
    ((w.machine t.tgid).on t.pid).isSome = true ∧
      ∃ st c, (w.machine t.tgid).strand next = some st ∧ st.parked = some c
  | _ => True

/-- An effect that the world allows leads from one world to the other. -/
def Takes (w : World) (e : Effect) (w' : World) : Prop := w.Allows e ∧ w' = w.effect e

variable {w : World} {e : Effect} {tgid : ℤ}

theorem machine_effect_of_ne (h : e.tgid ≠ tgid) : (w.effect e).machine tgid = w.machine tgid := by
  cases e with
  | user t cpu => rfl
  | serve t req => exact Function.update_of_ne (Ne.symm h) _ _
  | refuse t next => rfl
  | release k => exact Function.update_of_ne (Ne.symm h) _ _

theorem cpu_effect_of_ne (h : e.tgid ≠ tgid) :
    (fun pid => (w.effect e).cpu ⟨tgid, pid⟩) = fun pid => w.cpu ⟨tgid, pid⟩ := by
  cases e with
  | user t cpu => exact update_task_of_ne _ _ h
  | serve t req => exact update_task_of_ne _ _ h
  | refuse t next => exact update_task_of_ne _ _ h
  | release k => rfl

end World

end Fibers
