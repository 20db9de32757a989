/-
Every start routine is run once or never.

* `Place` — an object is in the queue or in the hands of one thread;
* `View.Ok` — the life of a call, from its arguments to the end of its start routine;
* **`pthread_create_once`** — if no wait fails, a start routine is run once if the call
  returns 0 and never if it returns an error;
* **`freed_in_queue`** — otherwise an object is freed in the queue and run afterwards.
-/
import LinuxSgx.Pthread.Create

open Runs Function Option

namespace Pthread

open Pthreads

variable {within : UInt64 → Bool} {s s' : Pthreads} {c r : ℕ}

/-! ### The life of an object -/

/-- Who has an object. -/
inductive Place where
  | none
  | queue
  | creator (c : ℕ)
  | runner (r : ℕ)
  deriving DecidableEq

/-- What matters of the place. -/
inductive Held where
  | none
  | queue
  | creator
  | popped
  | started
  | running
  deriving DecidableEq

/-- What matters of where a call is. -/
inductive Phase where
  | idle
  | insert
  | waiting
  | finish
  | ok
  | error
  deriving DecidableEq

def RunPc.held : RunPc → Held
  | .idle => .none
  | .popped _ => .popped
  | .started _ => .started
  | .woken _ => .started
  | .running _ => .running

/-- The object a thread has taken out of the queue. -/
def RunPc.object : RunPc → Option ℕ
  | .idle => none
  | .popped c => some c
  | .started c => some c
  | .woken c => some c
  | .running c => some c

def CreatePc.phase : CreatePc → Phase
  | .idle => .idle
  | .insert => .insert
  | .finish => .finish
  | .returned .ok => .ok
  | .returned _ => .error
  | _ => .waiting

/-- The object of another call that a creator has taken out of the queue. -/
def CreatePc.target : CreatePc → Option ℕ
  | .reject target _ => some target
  | _ => none

def Pthreads.held (s : Pthreads) : Place → Held
  | .none => .none
  | .queue => .queue
  | .creator _ => .creator
  | .runner r => (s.runner r).held

/-- All that matters of one call. -/
structure View where
  phase : Phase
  held : Held
  state : State
  live : Bool
  ran : List (UInt64 × UInt64)
  request : UInt64 × UInt64

def Pthreads.view (s : Pthreads) (p : Place) (c : ℕ) : View :=
  ⟨(s.call c).phase, s.held p, (s.thread c).state, s.live c, s.ran c, s.request c⟩

/-- Where a call can be in its life. -/
inductive View.Ok : View → Prop
  | idle {state request} : Ok ⟨.idle, .none, state, false, [], request⟩
  | insert {request} : Ok ⟨.insert, .none, .preparing, true, [], request⟩
  | pending {held request} (h : held = .queue ∨ held = .creator ∨ held = .popped) :
      Ok ⟨.waiting, held, .preparing, true, [], request⟩
  | started {phase request} (h : phase = .waiting ∨ phase = .finish ∨ phase = .ok) :
      Ok ⟨phase, .started, .execution, true, [], request⟩
  | running {phase request} (h : phase = .waiting ∨ phase = .finish ∨ phase = .ok) :
      Ok ⟨phase, .running, .execution, true, [request], request⟩
  | exited {phase request} (h : phase = .waiting ∨ phase = .finish ∨ phase = .ok) :
      Ok ⟨phase, .none, .wakedup, true, [request], request⟩
  | rejected {phase state request} (h : phase = .waiting ∨ phase = .finish)
      (hstate : state.isError = true) : Ok ⟨phase, .none, state, true, [], request⟩
  | failed {state request} : Ok ⟨.error, .none, state, false, [], request⟩

section View

variable {v : View}

/-- Before its object is in the queue, a call has nothing run, and nobody has its object. -/
theorem View.Ok.early (h : v.Ok) (hphase : v.phase = .idle ∨ v.phase = .insert) :
    v.held = .none ∧ v.ran = [] ∧ (v.phase = .idle → v.live = false) ∧
      (v.phase = .insert → View.Ok { v with phase := .waiting, held := .queue }) := by
  cases h with
  | idle => exact ⟨rfl, rfl, fun _ => rfl, nofun⟩
  | insert => exact ⟨rfl, rfl, fun hidle => (nomatch hidle), fun _ => .pending (.inl rfl)⟩
  | started h | running h | exited h => rcases h with rfl | rfl | rfl <;> simp at hphase
  | rejected h => rcases h with rfl | rfl <;> simp at hphase
  | _ => simp at hphase

/-- The object is taken out of the queue. -/
theorem View.Ok.take {held : Held} (h : v.Ok) (hqueue : v.held = .queue)
    (hheld : held = .creator ∨ held = .popped) : View.Ok { v with held := held } := by
  cases h with
  | pending _ => exact .pending (.inr hheld)
  | _ => cases hqueue

/-- The object is rejected by the creator that has it. -/
theorem View.Ok.reject {e : State} (h : v.Ok) (hheld : v.held = .creator)
    (hstate : e.isError = true) : View.Ok { v with held := .none, state := e } := by
  cases h with
  | pending _ => exact .rejected (.inl rfl) hstate
  | _ => cases hheld

/-- The object is freed by its own creator. -/
theorem View.Ok.free (h : v.Ok) (hheld : v.held = .queue) :
    View.Ok { v with phase := .error, held := .none, live := false } := by
  cases h with
  | pending _ => exact .failed
  | _ => cases hheld

theorem View.Ok.start (h : v.Ok) (hheld : v.held = .popped) :
    View.Ok { v with held := .started, state := .execution } := by
  cases h with
  | pending _ => exact .started (.inl rfl)
  | _ => cases hheld

theorem View.Ok.exec (h : v.Ok) (hheld : v.held = .started) :
    v.live = true ∧ View.Ok { v with held := .running, ran := v.request :: v.ran } := by
  cases h with
  | pending h => rcases h with rfl | rfl | rfl <;> cases hheld
  | started h => exact ⟨rfl, .running h⟩
  | _ => cases hheld

theorem View.Ok.exit (h : v.Ok) (hheld : v.held = .running) :
    View.Ok { v with held := .none, state := .wakedup } := by
  cases h with
  | pending h => rcases h with rfl | rfl | rfl <;> cases hheld
  | running h => exact .exited h
  | _ => cases hheld

/-- Once the state has changed, the call may finish. -/
theorem View.Ok.finish (h : v.Ok) (hphase : v.phase = .waiting) (hstate : v.state ≠ .preparing) :
    View.Ok { v with phase := .finish } := by
  cases h with
  | pending _ => exact absurd rfl hstate
  | started _ => exact .started (.inr (.inl rfl))
  | running _ => exact .running (.inr (.inl rfl))
  | exited _ => exact .exited (.inr (.inl rfl))
  | rejected _ he => exact .rejected (.inr rfl) he
  | _ => cases hphase

/-- At the end the object has an error and is freed, or it has been started. -/
theorem View.Ok.of_finish (h : v.Ok) (hphase : v.phase = .finish) :
    if v.state.isError = true then View.Ok { v with phase := .error, live := false }
    else View.Ok { v with phase := .ok } := by
  cases h with
  | started _ => exact .started (.inr (.inr rfl))
  | running _ => exact .running (.inr (.inr rfl))
  | exited _ => exact .exited (.inr (.inr rfl))
  | rejected _ he =>
    rw [if_pos he]
    exact .failed
  | _ => cases hphase

end View

/-- The queue consists of `q`, and `place` says who has an object. -/
structure Placed (s : Pthreads) (q : List ℕ) (place : ℕ → Place) : Prop where
  holds : Fifo.Holds s.next s.queue q
  queue : ∀ c, c ∈ q ↔ place c = .queue
  creator : ∀ c t, (s.call c).target = some t ↔ place t = .creator c
  runner : ∀ r c, (s.runner r).object = some c ↔ place c = .runner r

/-- Every call is somewhere in its life. -/
structure Inv (s : Pthreads) (q : List ℕ) (place : ℕ → Place) : Prop where
  placed : Placed s q place
  ok : ∀ c, (s.view (place c) c).Ok
  new : ∀ c, s.fresh ≤ c ↔ s.call c = .idle
  given : ∀ c, s.live c = true → ((s.thread c).startRoutine, (s.thread c).arg) = s.request c

theorem inv_init : Inv init [] fun _ => .none where
  placed := by
    refine ⟨Fifo.holds_empty, fun c => ?_, fun c t => ?_, fun r c => ?_⟩
    · simp
    · simp [init, CreatePc.target]
    · simp [init, RunPc.object]
  ok c := .idle
  new c := by simp [init]
  given c h := by cases h

/-! ### Places -/

section Placed

variable {q : List ℕ} {place : ℕ → Place}

/-- A change of one place says nothing about a place that is neither the old nor the new one. -/
theorem update_place {c c' : ℕ} {p w : Place} (hp : p ≠ w) (hc : place c ≠ w) :
    update place c p c' = w ↔ place c' = w := by
  by_cases he : c' = c
  · subst he
    simp [hp, hc]
  · rw [update_of_ne he]

/-- A call goes on with no other object in its hands. -/
theorem Placed.setCall {p : CreatePc} (h : Placed s q place) (hold : (s.call c).target = none)
    (hnew : p.target = none) : Placed (s.setCall c p) q place := by
  refine ⟨h.holds, h.queue, fun c' t => ?_, h.runner⟩
  rw [← h.creator]
  by_cases hc : c' = c
  · subst hc
    simp [hold, hnew]
  · rw [setCall_of_ne _ hc]

theorem Placed.eq_none (h : Placed s q place) (hc : s.held (place c) = .none) :
    place c = .none := by
  cases hp : place c with
  | none => rfl
  | queue | creator =>
    rw [hp] at hc
    cases hc
  | runner r =>
    have hobject := (h.runner r c).mpr hp
    rw [hp] at hc
    cases hr : s.runner r with
    | idle =>
      rw [hr] at hobject
      cases hobject
    | _ =>
      rw [held, hr] at hc
      cases hc

/-- The first object of the queue is taken out. -/
theorem Placed.getHeader (h : Placed s (c :: q) place) :
    ∃ queue, s.getHeader = ({ s with queue := queue }, some c) ∧
      Placed { s with queue := queue } q (update place c .none) := by
  obtain ⟨queue, hremove, hq⟩ := Fifo.removeHead_spec h.holds
  have hnd := List.nodup_cons.mp h.holds.nodup
  have hplace := (h.queue c).mp List.mem_cons_self
  refine ⟨queue, ?_, hq, fun c' => ?_, fun c' t => ?_, fun r c' => ?_⟩
  · rw [Pthreads.getHeader, hremove, h.holds.first_eq]
    rfl
  · by_cases hc : c' = c
    · subst hc
      simp [hnd.1]
    · rw [update_of_ne hc, ← h.queue, List.mem_cons, or_iff_right hc]
  · rw [h.creator, update_place (by simp) (by simp [hplace])]
  · rw [h.runner, update_place (by simp) (by simp [hplace])]

theorem Placed.getHeader_nil (h : Placed s [] place) : s.getHeader = (s, none) := by
  have hfirst : s.queue.first = none := h.holds.first_eq_none.mpr rfl
  rw [Pthreads.getHeader, Fifo.removeHead, hfirst]
  rfl

/-- A free object is put into the queue. -/
theorem Placed.insertTail (h : Placed s q place) (hc : place c = .none) :
    ∃ s', s.insertTail c = some s' ∧ Placed s' (q ++ [c]) (update place c .queue) ∧
      s' = { s with next := s'.next, queue := s'.queue } := by
  have hnot : c ∉ q := fun hm => by
    rw [h.queue, hc] at hm
    cases hm
  obtain ⟨next, queue, hinsert, hq, -⟩ := Fifo.insertTail_spec h.holds hnot
  refine ⟨{ s with next := next, queue := queue }, ?_, ⟨hq, fun c' => ?_, fun c' t => ?_,
    fun r c' => ?_⟩, rfl⟩
  · rw [Pthreads.insertTail, hinsert]
    rfl
  · rw [List.mem_append, List.mem_singleton, h.queue]
    by_cases he : c' = c
    · subst he
      simp
    · rw [update_of_ne he, or_iff_left he]
  · rw [h.creator, update_place (by simp) (by simp [hc])]
  · rw [h.runner, update_place (by simp) (by simp [hc])]

/-- A creator has taken the object of another call. -/
theorem Placed.target {t : ℕ} {ret : OcallResult} (h : Placed s q place) (ht : place t = .none)
    (hc : (s.call c).target = none) :
    Placed (s.setCall c (.reject t ret)) q (update place t (.creator c)) := by
  refine ⟨h.holds, fun c' => ?_, fun c' t' => ?_, fun r c' => ?_⟩
  · rw [update_place (by simp) (by simp [ht])]
    exact h.queue c'
  · by_cases he : c' = c
    · subst he
      have hnot : place t' ≠ .creator c' := fun hp => by
        rw [← h.creator, hc] at hp
        cases hp
      by_cases ht' : t' = t
      · subst ht'
        simp [CreatePc.target]
      · simp [CreatePc.target, ht', hnot, Ne.symm ht']
    · rw [setCall_of_ne _ he, h.creator,
        update_place (by simp [Ne.symm he]) (by simp [ht])]
  · rw [update_place (by simp) (by simp [ht])]
    exact h.runner r c'

/-- A creator lets it go. -/
theorem Placed.untarget {t : ℕ} {p : CreatePc} (h : Placed s q place)
    (hc : (s.call c).target = some t) (hpc : p.target = none) :
    Placed (s.setCall c p) q (update place t .none) := by
  have ht : place t = .creator c := (h.creator c t).mp hc
  refine ⟨h.holds, fun c' => ?_, fun c' t' => ?_, fun r c' => ?_⟩
  · rw [update_place (by simp) (by simp [ht])]
    exact h.queue c'
  · by_cases he : c' = c
    · subst he
      by_cases ht' : t' = t
      · subst ht'
        simp [hpc]
      · have hnot : place t' ≠ .creator c' := fun hp => by
          rw [← h.creator, hc] at hp
          exact ht' (Option.some.inj hp).symm
        simp [hpc, ht', hnot]
    · rw [setCall_of_ne _ he, h.creator,
        update_place (by simp) (by simp [ht, Ne.symm he])]
  · rw [update_place (by simp) (by simp [ht])]
    exact h.runner r c'

/-- A thread has taken an object. -/
theorem Placed.setRunner {pc : RunPc} (h : Placed s q place) (hc : place c = .none)
    (hr : (s.runner r).object = none) (hpc : pc.object = some c) :
    Placed (s.setRunner r pc) q (update place c (.runner r)) := by
  refine ⟨h.holds, fun c' => ?_, fun c' t' => ?_, fun r' c' => ?_⟩
  · rw [update_place (by simp) (by simp [hc])]
    exact h.queue c'
  · rw [update_place (by simp) (by simp [hc])]
    exact h.creator c' t'
  · by_cases he : r' = r
    · subst he
      have hnot : place c' ≠ .runner r' := fun hp => by
        rw [← h.runner, hr] at hp
        cases hp
      by_cases hc' : c' = c
      · subst hc'
        simp [hpc]
      · simp [hpc, hc', hnot, Ne.symm hc']
    · rw [setRunner_of_ne _ he, h.runner,
        update_place (by simp [Ne.symm he]) (by simp [hc])]

theorem Placed.release {p : RunPc} (h : Placed s q place) (hr : (s.runner r).object = some c)
    (hpc : p.object = none) : Placed (s.setRunner r p) q (update place c .none) := by
  have hc : place c = .runner r := (h.runner r c).mp hr
  refine ⟨h.holds, fun c' => ?_, fun c' t' => ?_, fun r' c' => ?_⟩
  · rw [update_place (by simp) (by simp [hc])]
    exact h.queue c'
  · rw [update_place (by simp) (by simp [hc])]
    exact h.creator c' t'
  · by_cases he : r' = r
    · subst he
      by_cases hc' : c' = c
      · subst hc'
        simp [hpc]
      · have hnot : place c' ≠ .runner r' := fun hp => by
          rw [← h.runner, hr] at hp
          exact hc' (Option.some.inj hp).symm
        simp [hpc, hc', hnot]
    · rw [setRunner_of_ne _ he, h.runner,
        update_place (by simp) (by simp [hc, Ne.symm he])]

/-- A thread goes on with the same object. -/
theorem Placed.keepRunner {p : RunPc} (h : Placed s q place)
    (hpc : p.object = (s.runner r).object) : Placed (s.setRunner r p) q place := by
  refine ⟨h.holds, h.queue, h.creator, fun r' c' => ?_⟩
  rw [← h.runner]
  by_cases hr : r' = r
  · subst hr
    rw [setRunner_self, hpc]
  · rw [setRunner_of_ne _ hr]

end Placed

/-! ### The steps -/

section Steps

variable {q : List ℕ} {place : ℕ → Place}

variable {pc : CreatePc} {c' : ℕ}

theorem view_setCall_of_ne (hc : c' ≠ c) (p : Place) :
    (s.setCall c pc).view p c' = s.view p c' := by
  rw [view, setCall_of_ne _ hc]
  rfl

/-- The invariant, but for the call `c`. -/
structure InvBut (c : ℕ) (s : Pthreads) (q : List ℕ) (place : ℕ → Place) : Prop where
  placed : Placed s q place
  ok : ∀ c', c' ≠ c → (s.view (place c') c').Ok
  new : ∀ c, s.fresh ≤ c ↔ s.call c = .idle
  given : ∀ c, s.live c = true → ((s.thread c).startRoutine, (s.thread c).arg) = s.request c

theorem Inv.but (h : Inv s q place) (c : ℕ) : InvBut c s q place :=
  ⟨h.placed, fun c' _ => h.ok c', h.new, h.given⟩

/-- The call `c` goes on in its life, and the others are where they were. -/
theorem InvBut.move {q' : List ℕ} {place' : ℕ → Place} (h : InvBut c s q place)
    (hplaced : Placed s' q' place') (hself : (s'.view (place' c) c).Ok)
    (hother : ∀ c', c' ≠ c → s'.view (place' c') c' = s.view (place c') c')
    (hnew : ∀ c, s'.fresh ≤ c ↔ s'.call c = .idle)
    (hgiven : ∀ c, s'.live c = true →
      ((s'.thread c).startRoutine, (s'.thread c).arg) = s'.request c) : Inv s' q' place' := by
  refine ⟨hplaced, fun c' => ?_, hnew, hgiven⟩
  by_cases hc : c' = c
  · rw [hc]
    exact hself
  · rw [hother c' hc]
    exact h.ok c' hc

theorem new_setCall (hnew : ∀ c, s.fresh ≤ c ↔ s.call c = .idle)
    (hidle : s.call c ≠ .idle ∧ pc ≠ .idle) (c' : ℕ) :
    s.fresh ≤ c' ↔ (s.setCall c pc).call c' = .idle := by
  rw [hnew]
  by_cases hc : c' = c
  · subst hc
    rw [setCall_self]
    exact iff_of_false hidle.1 hidle.2
  · rw [setCall_of_ne _ hc]

/-- A call goes on, and only its phase matters. -/
theorem Inv.setCall (h : Inv s q place) (hold : (s.call c).target = none) (hnew : pc.target = none)
    (hidle : s.call c ≠ .idle ∧ pc ≠ .idle)
    (hok : View.Ok { s.view (place c) c with phase := pc.phase }) :
    Inv (s.setCall c pc) q place := by
  refine (h.but c).move (h.placed.setCall hold hnew) ?_ (fun c' hc => view_setCall_of_ne hc _)
    (new_setCall h.new hidle) h.given
  rw [view, setCall_self]
  exact hok

/-- A call goes on waiting. -/
theorem Inv.setWaiting (h : Inv s q place) (hold : (s.call c).target = none)
    (hnew : pc.target = none) (hphase : (s.call c).phase = .waiting) (hpc : pc.phase = .waiting) :
    Inv (s.setCall c pc) q place := by
  refine h.setCall hold hnew ⟨fun hi => ?_, fun hi => ?_⟩ ?_
  · rw [hi] at hphase
    cases hphase
  · rw [hi] at hpc
    cases hpc
  · rw [hpc, ← hphase]
    exact h.ok c

variable {ret : OcallResult}

theorem Inv.createOcall (h : Inv s q place) (hs : step within (.createOcall c ret) s = some s') :
    Inv s' q place := by
  obtain ⟨hc, hs⟩ := ite_none_right_eq_some.mp hs
  cases hs
  refine h.setWaiting (by rw [hc]; rfl) ?_ (by rw [hc]; rfl) ?_
  · split <;> rfl
  · split <;> rfl

theorem Inv.wakeup (h : Inv s q place) (hs : step within (.wakeup c) s = some s') :
    Inv s' q place := by
  cases hc : s.call c with
  | wakeup t =>
    rw [step, hc] at hs
    cases hs
    exact h.setWaiting (by rw [hc]; rfl) rfl (by rw [hc]; rfl) rfl
  | _ =>
    rw [step, hc] at hs
    cases hs

theorem Inv.wait (h : Inv s q place) (hs : step within (.wait c true) s = some s') :
    Inv s' q place := by
  obtain ⟨hc, hs⟩ := ite_none_right_eq_some.mp hs
  cases hs
  exact h.setWaiting (by rw [hc]; rfl) rfl (by rw [hc]; rfl) rfl

theorem Inv.check (h : Inv s q place) (hs : step within (.check c) s = some s') :
    Inv s' q place := by
  obtain ⟨hc, hs⟩ := ite_none_right_eq_some.mp hs
  cases hs
  have hphase : (s.call c).phase = .waiting := by
    rw [hc]
    rfl
  by_cases hstate : (s.thread c).state = .preparing
  · rw [if_pos hstate]
    exact h.setWaiting (by rw [hc]; rfl) rfl hphase rfl
  · rw [if_neg hstate]
    refine h.setCall (by rw [hc]; rfl) rfl ?_ ((h.ok c).finish hphase hstate)
    rw [hc]
    exact ⟨nofun, nofun⟩

/-- The first call in the queue is waiting, and its object is taken out. -/
theorem Inv.getHeader (h : Inv s (c :: q) place) :
    ∃ queue, s.getHeader = ({ s with queue := queue }, some c) ∧
      InvBut c { s with queue := queue } q (update place c .none) ∧ place c = .queue := by
  obtain ⟨queue, hget, hplaced⟩ := h.placed.getHeader
  refine ⟨queue, hget, ⟨hplaced, fun c' hne => ?_, h.new, h.given⟩,
    (h.placed.queue c).mp List.mem_cons_self⟩
  rw [update_of_ne hne]
  exact h.ok c'

/-- An object is freed, and its creator returns an error. -/
theorem InvBut.fail {e : Result} (h : InvBut c s q place)
    (hok : View.Ok { s.view (place c) c with phase := .error, live := false })
    (hidle : s.call c ≠ .idle) (htarget : (s.call c).target = none) (he : e ≠ .ok) :
    Inv (s.fail c e) q place := by
  have hreturned : (CreatePc.returned e).phase = .error := by
    cases e with
    | ok => exact absurd rfl he
    | _ => rfl
  have hplaced := h.placed.setCall (c := c) (p := .returned e) htarget rfl
  refine h.move { hplaced with } ?_ (fun c' hc => ?_)
    (new_setCall h.new ⟨hidle, nofun⟩) (fun c' hlive => h.given c' ?_)
  · have hview : (s.fail c e).view (place c) c
        = { s.view (place c) c with phase := .error, live := false } := by
      rw [← hreturned]
      simp [view, Pthreads.fail, Pthreads.setCall]
      rfl
    rw [hview]
    exact hok
  · simp [view, Pthreads.fail, hc, Pthreads.setCall]
    rfl
  · by_cases hc : c' = c
    · subst hc
      simp [Pthreads.fail] at hlive
    · simpa [Pthreads.fail, hc] using hlive

theorem Inv.finish (h : Inv s q place) (hs : step within (.finish c) s = some s') :
    Inv s' q place := by
  obtain ⟨hc, hs⟩ := ite_none_right_eq_some.mp hs
  cases hs
  have hok := (h.ok c).of_finish (by rw [view, hc]; rfl)
  have htarget : (s.call c).target = none := by
    rw [hc]
    rfl
  have hidle : s.call c ≠ .idle := by
    rw [hc]
    exact nofun
  rw [Pthreads.finish]
  by_cases herr : (s.thread c).state.isError = true
  · rw [if_pos herr]
    rw [view, if_pos herr] at hok
    refine (h.but c).fail hok hidle htarget ?_
    split <;> exact nofun
  · rw [if_neg herr]
    rw [view, if_neg herr] at hok
    exact h.setCall htarget rfl ⟨hidle, nofun⟩ hok

/-- The object of another call is taken by a creator. -/
theorem InvBut.target {t : ℕ} (h : InvBut t s q place) (hplace : place t = .none)
    (hc : s.call c = .cancel ret) (hne : t ≠ c)
    (hok : View.Ok { s.view (place t) t with held := .creator }) :
    Inv (s.setCall c (.reject t ret)) q (update place t (.creator c)) := by
  refine h.move (h.placed.target hplace (by rw [hc]; rfl)) ?_ (fun c' he => ?_)
    (new_setCall h.new ⟨by rw [hc]; exact nofun, nofun⟩) h.given
  · rw [update_self, view_setCall_of_ne hne]
    exact hok
  · rw [update_of_ne he]
    by_cases hcc : c' = c
    · subst hcc
      rw [view, setCall_self, view, hc]
      rfl
    · rw [view_setCall_of_ne hcc]

theorem Inv.cancel (h : Inv s q place) (hs : step within (.cancel c) s = some s') :
    ∃ q' place', Inv s' q' place' := by
  cases hc : s.call c with
  | cancel ret =>
    rw [step, hc] at hs
    cases hs
    have htarget : (s.call c).target = none := by
      rw [hc]
      rfl
    rw [Pthreads.cancel]
    cases q with
    | nil =>
      rw [h.placed.getHeader_nil]
      exact ⟨[], place, h.setWaiting htarget rfl (by rw [hc]; rfl) rfl⟩
    | cons t q =>
      obtain ⟨queue, hget, hbut, ht⟩ := h.getHeader
      have hheld : (s.view (place t) t).held = .queue := by
        rw [view, ht]
        rfl
      rw [hget]
      by_cases he : t = c
      · -- its own object
        subst he
        refine ⟨q, update place t .none, ?_⟩
        show Inv (if t = t then _ else _) _ _
        rw [if_pos rfl]
        refine hbut.fail ?_ ?_ htarget ?_
        · rw [update_self]
          exact (h.ok t).free hheld
        · show s.call t ≠ _
          rw [hc]
          exact nofun
        · cases ret <;> exact nofun
      · refine ⟨q, update (update place t .none) t (.creator c), ?_⟩
        show Inv (if t = c then _ else _) _ _
        rw [if_neg he]
        exact hbut.target (update_self ..) hc he ((h.ok t).take hheld (.inl rfl))
  | _ =>
    rw [step, hc] at hs
    cases hs

/-- The state of one object changes. -/
theorem view_setState_of_ne {state : State} (hc : c' ≠ c) (p : Place) :
    (s.setState c state).view p c' = s.view p c' := by
  rw [view, setState_of_ne _ hc]
  rfl

theorem view_setRunner {pc : RunPc} (p : Place) (hp : p ≠ .runner r) :
    (s.setRunner r pc).view p c = s.view p c := by
  have hheld : (s.setRunner r pc).held p = s.held p := by
    cases p with
    | runner r' =>
      have hne : r' ≠ r := fun he => hp (congrArg Place.runner he)
      rw [held, setRunner_of_ne _ hne]
      rfl
    | _ => rfl
  rw [view, hheld]
  rfl

/-- The arguments of an object do not change with its state. -/
theorem given_setState {state : State} (h : Inv s q place) (hlive : s.live c' = true) :
    (((s.setState c state).thread c').startRoutine, ((s.setState c state).thread c').arg)
      = s.request c' := by
  have hgiven := h.given c' hlive
  by_cases hc : c' = c
  · subst hc
    simpa [setState] using hgiven
  · rw [setState_of_ne _ hc]
    exact hgiven

theorem Inv.reject (h : Inv s q place) (hs : step within (.reject c) s = some s') :
    ∃ place', Inv s' q place' := by
  cases hc : s.call c with
  | reject t ret =>
    rw [step, hc] at hs
    cases hs
    have htarget : (s.call c).target = some t := by
      rw [hc]
      rfl
    have hplace : place t = .creator c := (h.placed.creator c t).mp htarget
    have hplaced := h.placed.untarget (p := .wakeup t) htarget rfl
    -- the creator itself goes on waiting
    have hphase : ∀ c', (((s.setState t (stateOf ret)).setCall c (.wakeup t)).call c').phase
        = (s.call c').phase := by
      intro c'
      by_cases he : c' = c
      · subst he
        rw [setCall_self, hc]
        rfl
      · rw [setCall_of_ne _ he]
        rfl
    refine ⟨update place t .none, (h.but t).move { hplaced with } ?_ (fun c' he => ?_)
      (new_setCall (s := s.setState t _) h.new ⟨?_, nofun⟩)
      (fun c' hl => given_setState h hl)⟩
    · have hok := (h.ok t).reject (e := stateOf ret) (by rw [view, hplace]; rfl) (by cases ret <;> rfl)
      rw [update_self, view, hphase]
      show View.Ok ⟨_, .none, ((s.setState t _).thread t).state, _, _, _⟩
      rw [setState_self]
      exact hok
    · rw [update_of_ne he, view, hphase]
      show (⟨_, _, ((s.setState t _).thread c').state, _, _, _⟩ : View) = _
      rw [setState_of_ne _ he]
      rfl
    · show s.call c ≠ _
      rw [hc]
      exact nofun
  | _ =>
    rw [step, hc] at hs
    cases hs

theorem Inv.insert (h : Inv s q place) (hs : step within (.insert c) s = some s') :
    ∃ q' place', Inv s' q' place' := by
  obtain ⟨hc, hs⟩ := ite_none_right_eq_some.mp hs
  obtain ⟨s₁, hs₁, rfl⟩ := map_eq_some_iff.mp hs
  have hphase : (s.view (place c) c).phase = .insert := by
    rw [view, hc]
    rfl
  obtain ⟨hheld, -, -, hok⟩ := (h.ok c).early (.inr hphase)
  obtain ⟨s₂, hs₂, hplaced, heq⟩ := h.placed.insertTail (h.placed.eq_none hheld)
  rw [hs₁] at hs₂
  cases hs₂
  have hcall : s₁.call = s.call := by rw [heq]
  refine ⟨_, _, (h.but c).move (hplaced.setCall (by rw [hcall, hc]; rfl) rfl) ?_ (fun c' he => ?_)
    (new_setCall (s := s₁) (by rw [heq]; exact h.new) ⟨?_, nofun⟩) (by rw [heq]; exact h.given)⟩
  · rw [update_self, view, setCall_self, heq]
    exact hok hphase
  · rw [update_of_ne he, view_setCall_of_ne he, heq]
    rfl
  · rw [hcall, hc]
    exact nofun

/-- A new call; its object is allocated or not. -/
theorem Inv.newCall {thread : ℕ → Thread} {live : ℕ → Bool} {request : UInt64 × UInt64}
    (h : Inv s q place) (hthread : ∀ c, c ≠ s.fresh → thread c = s.thread c)
    (hlive : ∀ c, c ≠ s.fresh → live c = s.live c) (hidle : pc ≠ .idle) (htarget : pc.target = none)
    (hok : View.Ok ⟨pc.phase, .none, (thread s.fresh).state, live s.fresh, [], request⟩)
    (hgiven : live s.fresh = true →
      ((thread s.fresh).startRoutine, (thread s.fresh).arg) = request) :
    Inv { s.setCall s.fresh pc with
      fresh := s.fresh + 1
      request := update s.request s.fresh request
      thread := thread
      live := live } q place := by
  have hnew : s.call s.fresh = .idle := (h.new s.fresh).mp le_rfl
  obtain ⟨hheld, hran, -⟩ := (h.ok s.fresh).early (.inl (by rw [view, hnew]; rfl))
  have hplace := h.placed.eq_none hheld
  have hplaced := h.placed.setCall (p := pc) (c := s.fresh) (by rw [hnew]; rfl) htarget
  refine (h.but s.fresh).move { hplaced with } ?_
    (fun c hc => ?_) (fun c => ?_) (fun c hl => ?_)
  · rw [hplace]
    show View.Ok ⟨((s.setCall s.fresh pc).call s.fresh).phase, .none, _, _, s.ran s.fresh,
      update s.request s.fresh request s.fresh⟩
    rw [setCall_self, update_self, show s.ran s.fresh = [] from hran]
    exact hok
  · show (⟨((s.setCall s.fresh pc).call c).phase, s.held (place c), (thread c).state, live c,
      s.ran c, update s.request s.fresh request c⟩ : View) = _
    rw [setCall_of_ne _ hc, update_of_ne hc, hthread c hc, hlive c hc]
    rfl
  · show s.fresh + 1 ≤ c ↔ (s.setCall s.fresh pc).call c = .idle
    by_cases hc : c = s.fresh
    · subst hc
      rw [setCall_self]
      exact iff_of_false (Nat.not_succ_le_self _) hidle
    · rw [setCall_of_ne _ hc, ← h.new c]
      omega
  · show ((thread c).startRoutine, (thread c).arg) = update s.request s.fresh request c
    by_cases hc : c = s.fresh
    · subst hc
      rw [update_self]
      exact hgiven hl
    · rw [update_of_ne hc, hthread c hc]
      exact h.given c ((hlive c hc).symm.trans hl)

theorem Inv.create {threadp malloc : Bool} {routine arg : UInt64} (h : Inv s q place)
    (hs : step within (.create threadp routine arg malloc) s = some s') : Inv s' q place := by
  cases hs
  have hnew : s.call s.fresh = .idle := (h.new s.fresh).mp le_rfl
  have hphase : (s.view (place s.fresh) s.fresh).phase = .idle := by
    rw [view, hnew]
    rfl
  have hdead : s.live s.fresh = false := ((h.ok s.fresh).early (.inl hphase)).2.2.1 hphase
  have hrefused : ∀ e : Result, e ≠ .ok →
      View.Ok ⟨(CreatePc.returned e).phase, .none, (s.thread s.fresh).state, s.live s.fresh, [],
        (routine, arg)⟩ := by
    intro e he
    rw [hdead]
    cases e with
    | ok => exact absurd rfl he
    | _ => exact .failed
  rw [Pthreads.create]
  split
  · cases malloc with
    | true =>
      refine h.newCall (fun c hc => update_of_ne hc _ _)
        (fun c hc => update_of_ne hc _ _) nofun rfl ?_ fun _ => ?_
      · rw [update_self, update_self]
        exact .insert
      · rw [update_self]
    | false =>
      refine h.newCall (fun c _ => rfl) (fun c _ => rfl) nofun rfl
        (hrefused .enomem nofun) fun hl => ?_
      rw [hdead] at hl
      cases hl
  · refine h.newCall (fun c _ => rfl) (fun c _ => rfl) nofun rfl
      (hrefused .einval nofun) fun hl => ?_
    rw [hdead] at hl
    cases hl

theorem Inv.enter (h : Inv s q place) (hs : step within (.enter r) s = some s') :
    ∃ q' place', Inv s' q' place' := by
  obtain ⟨hr, hs⟩ := ite_none_right_eq_some.mp hs
  cases hs
  rw [Pthreads.enter]
  cases q with
  | nil =>
    rw [h.placed.getHeader_nil]
    exact ⟨[], place, h⟩
  | cons c q =>
    obtain ⟨queue, hget, hbut, hplace⟩ := h.getHeader
    rw [hget]
    refine ⟨q, _, hbut.move (hbut.placed.setRunner (update_self ..) (by rw [hr]; rfl) rfl)
      ?_ (fun c' hc => ?_) hbut.new hbut.given⟩
    · rw [update_self]
      show View.Ok ⟨_, ((s.setRunner r (.popped c)).runner r).held, _, _, _, _⟩
      rw [setRunner_self]
      exact (h.ok c).take (by rw [view, hplace]; rfl) (.inr rfl)
    · rw [update_of_ne hc, view_setRunner]
      intro hp
      rw [update_of_ne hc, ← h.placed.runner, hr] at hp
      cases hp

/-- A thread has no other object than its own. -/
theorem Inv.place_ne (h : Inv s q place) (hr : (s.runner r).object = some c) (hc : c' ≠ c) :
    place c' ≠ .runner r := by
  intro hp
  rw [← h.placed.runner, hr] at hp
  exact hc (Option.some.inj hp).symm

/-- The object of a thread and the view of its call. -/
theorem Inv.runs {pc : RunPc} (h : Inv s q place) (hr : s.runner r = pc) (hc : pc.object = some c) :
    place c = .runner r ∧ (s.view (place c) c).held = pc.held := by
  have hplace : place c = .runner r := (h.placed.runner r c).mp (by rw [hr, hc])
  rw [view, hplace, held, hr]
  exact ⟨rfl, rfl⟩

theorem Inv.start (h : Inv s q place) (hs : step within (.start r) s = some s') :
    Inv s' q place := by
  cases hr : s.runner r with
  | popped c =>
    rw [step, hr] at hs
    cases hs
    obtain ⟨hplace, hheld⟩ := h.runs hr rfl
    have hplaced := h.placed.keepRunner (p := .started c) (r := r) (by rw [hr]; rfl)
    refine (h.but c).move { hplaced with } ?_
      (fun c' hc => ?_) h.new (fun c' hl => given_setState h hl)
    · have hok := (h.ok c).start hheld
      rw [hplace] at hok ⊢
      show View.Ok ⟨_, ((Pthreads.setRunner _ r _).runner r).held, ((s.setState c _).thread c).state,
        _, _, _⟩
      rw [setRunner_self, setState_self]
      exact hok
    · rw [view_setRunner _ (h.place_ne (by rw [hr]; rfl) hc), view_setState_of_ne hc]
  | _ =>
    rw [step, hr] at hs
    cases hs

theorem Inv.wakeCreator (h : Inv s q place) (hs : step within (.wakeCreator r) s = some s') :
    Inv s' q place := by
  cases hr : s.runner r with
  | started c =>
    rw [step, hr] at hs
    cases hs
    have hok := h.ok c
    refine (h.but c).move (h.placed.keepRunner (by rw [hr]; rfl)) ?_ (fun c' hc => ?_) h.new h.given
    · rw [(h.runs hr rfl).1, view, held, hr] at hok
      rw [(h.runs hr rfl).1, view, held, setRunner_self]
      exact hok
    · exact view_setRunner _ (h.place_ne (by rw [hr]; rfl) hc)
  | _ =>
    rw [step, hr] at hs
    cases hs

theorem Inv.exec (h : Inv s q place) (hs : step within (.exec r) s = some s') :
    Inv s' q place := by
  cases hr : s.runner r with
  | woken c =>
    rw [step, hr] at hs
    cases hs
    obtain ⟨hplace, hheld⟩ := h.runs hr rfl
    have hplaced := h.placed.keepRunner (p := .running c) (r := r) (by rw [hr]; rfl)
    refine (h.but c).move { hplaced with } ?_
      (fun c' hc => ?_) h.new h.given
    · obtain ⟨hlive, hok⟩ := (h.ok c).exec hheld
      rw [hplace] at hok ⊢
      show View.Ok ⟨_, ((Pthreads.setRunner _ r _).runner r).held, _, _,
        update s.ran c (_ :: s.ran c) c, _⟩
      rw [setRunner_self, update_self, h.given c hlive]
      exact hok
    · rw [view_setRunner _ (h.place_ne (by rw [hr]; rfl) hc)]
      show (⟨_, _, _, _, update s.ran c _ c', _⟩ : View) = _
      rw [update_of_ne hc]
      rfl
  | _ =>
    rw [step, hr] at hs
    cases hs

theorem Inv.exit (h : Inv s q place) (hs : step within (.exit r) s = some s') :
    ∃ place', Inv s' q place' := by
  cases hr : s.runner r with
  | running c =>
    rw [step, hr] at hs
    cases hs
    have hobject : (s.runner r).object = some c := by
      rw [hr]
      rfl
    have hplaced := h.placed.release (p := .idle) hobject rfl
    refine ⟨update place c .none, (h.but c).move { hplaced with } ?_ (fun c' hc => ?_) h.new (fun c' hl => given_setState h hl)⟩
    · have hok := (h.ok c).exit (h.runs hr rfl).2
      rw [update_self]
      show View.Ok ⟨_, .none, ((s.setState c .wakedup).thread c).state, _, _, _⟩
      rw [setState_self]
      exact hok
    · rw [update_of_ne hc, view_setRunner _ (h.place_ne hobject hc),
        view_setState_of_ne hc]
  | _ =>
    rw [step, hr] at hs
    cases hs

/-- One step keeps the invariant. -/
theorem Inv.step {a : Action} (h : Inv s q place)
    (hs : only WaitSucceeds (step within) a s = some s') : ∃ q' place', Inv s' q' place' := by
  obtain ⟨hok, hs⟩ := only_eq_some.mp hs
  cases a with
  | create threadp routine arg malloc => exact ⟨q, place, h.create hs⟩
  | insert c => exact h.insert hs
  | createOcall c ret => exact ⟨q, place, h.createOcall hs⟩
  | cancel c => exact h.cancel hs
  | reject c => exact ⟨q, h.reject hs⟩
  | wakeup c => exact ⟨q, place, h.wakeup hs⟩
  | wait c ok =>
    cases (show ok = true from hok)
    exact ⟨q, place, h.wait hs⟩
  | check c => exact ⟨q, place, h.check hs⟩
  | finish c => exact ⟨q, place, h.finish hs⟩
  | enter r => exact h.enter hs
  | start r => exact ⟨q, place, h.start hs⟩
  | wakeCreator r => exact ⟨q, place, h.wakeCreator hs⟩
  | exec r => exact ⟨q, place, h.exec hs⟩
  | exit r => exact ⟨q, h.exit hs⟩

end Steps

theorem exists_inv_of_run {actions : List Action}
    (hrun : run (only WaitSucceeds (step within)) actions init = some s) :
    ∃ q place, Inv s q place := by
  refine invariant_of_run (I := fun s => ∃ q place, Inv s q place) ?_ hrun ⟨[], _, inv_init⟩
  rintro a s s' ⟨q, place, h⟩ hs
  exact h.step hs

/-- A call that has returned 0 has been run or is about to be, by one thread. -/
theorem View.Ok.of_ok {v : View} (h : v.Ok) (hphase : v.phase = .ok) :
    v.ran = [v.request] ∨ v.ran = [] ∧ v.held = .started := by
  cases h with
  | started _ => exact .inr ⟨rfl, rfl⟩
  | running | exited => exact .inl rfl
  | rejected h => rcases h with rfl | rfl <;> cases hphase
  | _ => cases hphase

theorem View.Ok.of_error {v : View} (h : v.Ok) (hphase : v.phase = .error) : v.ran = [] := by
  cases h with
  | running h | exited h => rcases h with rfl | rfl | rfl <;> cases hphase
  | _ => rfl

theorem View.Ok.of_dead {v : View} (h : v.Ok) (hlive : v.live = false) : v.held = .none := by
  cases h with
  | idle | failed => rfl
  | _ => cases hlive

/-- **Start routines.**  In every run in which the waits succeed: a call that has returned 0 has
its start routine run once with its argument, or a thread is about to run it; a call that has
returned an error has it never run; and a freed object is not in the work queue and no
thread has it. -/
theorem pthread_create_once {actions : List Action}
    (hrun : run (only WaitSucceeds (step within)) actions init = some s) (c : ℕ) :
    (s.call c = .returned .ok → s.ran c = [s.request c] ∨
      s.ran c = [] ∧ ∃ r, s.runner r = .started c ∨ s.runner r = .woken c) ∧
    (∀ e, e ≠ .ok → s.call c = .returned e → s.ran c = []) ∧
    ∃ q, Fifo.Holds s.next s.queue q ∧
      (s.live c = false → c ∉ q ∧ ∀ r, (s.runner r).object ≠ some c) := by
  obtain ⟨q, place, h⟩ := exists_inv_of_run hrun
  refine ⟨fun hc => ?_, fun e he hc => ?_, q, h.placed.holds, fun hlive => ?_⟩
  · rcases (h.ok c).of_ok (by rw [view, hc]; rfl) with hran | ⟨hran, hheld⟩
    · exact .inl hran
    · refine .inr ⟨hran, ?_⟩
      -- only a thread can have started it
      cases hp : place c with
      | runner r =>
        have hobject := (h.placed.runner r c).mpr hp
        rw [view, hp, held] at hheld
        refine ⟨r, ?_⟩
        cases hr : s.runner r with
        | started c' =>
          rw [hr] at hobject
          exact .inl (congrArg RunPc.started (Option.some.inj hobject))
        | woken c' =>
          rw [hr] at hobject
          exact .inr (congrArg RunPc.woken (Option.some.inj hobject))
        | _ =>
          rw [hr] at hheld
          cases hheld
      | _ =>
        rw [view, hp] at hheld
        cases hheld
  · refine (h.ok c).of_error ?_
    rw [view, hc]
    cases e with
    | ok => exact absurd rfl he
    | _ => rfl
  · have hplace := h.placed.eq_none ((h.ok c).of_dead hlive)
    constructor
    · rw [h.placed.queue, hplace]
      exact nofun
    · intro r
      rw [Ne, h.placed.runner, hplace]
      exact nofun

/-- Two creators; the request of the second one fails, and it takes the object of the first one
out of the queue. -/
def crossedCalls : List Action :=
  [.create true 0x1000 0 true, .create true 0x2000 0x3000 true, .insert 0, .insert 1,
    .createOcall 0 .success, .createOcall 1 .outOfTcs, .cancel 1, .reject 1, .wakeup 1,
    .wait 0 true, .check 0, .finish 0, .enter 5, .start 5, .wakeCreator 5, .wait 1 true, .check 1,
    .finish 1, .exec 5]

theorem pthread_create_once_crossedCalls :
    ∃ s, run (only WaitSucceeds (step fun _ => true)) crossedCalls init = some s ∧
      s.call 0 = .returned .eagain ∧ s.ran 0 = [] ∧
      s.call 1 = .returned .ok ∧ s.ran 1 = [(0x2000, 0x3000)] := by
  obtain ⟨s, hs⟩ := isSome_iff_exists.mp
    (by decide : (run (only WaitSucceeds (step fun _ => true)) crossedCalls init).isSome = true)
  have hend : (run (only WaitSucceeds (step fun _ => true)) crossedCalls init).map
      (fun s => (s.call 0, s.call 1, s.ran 1))
        = some (.returned .eagain, .returned .ok, [(0x2000, 0x3000)]) := by decide
  rw [hs, map_some, some_inj, Prod.mk.injEq, Prod.mk.injEq] at hend
  obtain ⟨h0, h1, hran⟩ := hend
  exact ⟨s, hs, h0, (pthread_create_once hs 0).2.1 .eagain nofun h0, h1, hran⟩

-- the rejected call may free its object before `creater_td` is read from it
example : (run (only WaitSucceeds (step fun _ => true))
    (crossedCalls.take 8 ++ [.wait 0 true, .check 0, .finish 0]) init).map
      (fun s => (s.call 1, s.live 0)) = some (.wakeup 0, false) := by decide

/-- A wait fails while the object is in the queue. -/
def failingWait : List Action :=
  [.create true 0x1000 0 true, .insert 0, .createOcall 0 .success, .wait 0 false, .enter 5, .start 5,
    .wakeCreator 5, .exec 5]

/-- **A freed object in the queue.**  The call has returned an error, and its start routine is
run. -/
theorem freed_in_queue :
    ∃ s s', run (step fun _ => true) (failingWait.take 4) init = some s ∧
      s.call 0 = .returned .einval ∧ s.live 0 = false ∧ s.queue.first = some 0 ∧
      run (step fun _ => true) failingWait init = some s' ∧
      s'.call 0 = .returned .einval ∧ s'.live 0 = false ∧ s'.ran 0 = [(0x1000, 0)] := by
  obtain ⟨s, hs⟩ := isSome_iff_exists.mp
    (by decide : (run (step fun _ => true) (failingWait.take 4) init).isSome = true)
  obtain ⟨s', hs'⟩ := isSome_iff_exists.mp
    (by decide : (run (step fun _ => true) failingWait init).isSome = true)
  have hqueue : (run (step fun _ => true) (failingWait.take 4) init).map
      (fun s => (s.call 0, s.live 0, s.queue.first))
        = some (.returned .einval, false, some 0) := by decide
  have hend : (run (step fun _ => true) failingWait init).map
      (fun s => (s.call 0, s.live 0, s.ran 0))
        = some (.returned .einval, false, [(0x1000, 0)]) := by decide
  rw [hs, map_some, some_inj, Prod.mk.injEq, Prod.mk.injEq] at hqueue
  rw [hs', map_some, some_inj, Prod.mk.injEq, Prod.mk.injEq] at hend
  exact ⟨s, s', hs, hqueue.1, hqueue.2.1, hqueue.2.2, hs', hend.1, hend.2.1, hend.2.2⟩

end Pthread
