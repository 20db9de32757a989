/-
Reading messages from a socket (`NonBlockingUnixCommunicationSocket.cpp`, `SocketTransporter.cpp`).

`readRaw` tries to read everything at once, waits for events, reads what has come in chunks, and
starts again.  The answers of the kernel are the actions here, in any order.

* `State`, `Action`, `step` — the loop, with the bytes of the stream that it has taken;
* `Careful` — the first try of a later round finds nothing if something was read before;
* **`messages_exact`** — then a buffer holds the next bytes of the stream, and a message is the one
  that was sent;
* **`overwritten`** — otherwise the try puts its bytes at the start of the buffer.
-/
import LinuxSgx.Lib.Runs
import Mathlib.Data.Int.Basic

open Runs

namespace Aesm.Socket

/-- An event of `epoll_wait`, of the socket or of the pipe for cancellation. -/
structure Event where
  hup : Bool
  err : Bool
  readable : Bool
  pipe : Bool

/-- In front of the `epoll_ctl` at the start or at the end, of the read of everything, of
`epoll_wait`, of the next event, of a read of `partialRead` with `got` bytes so far, or returned
with or without the buffer. -/
inductive Pc where
  | start
  | direct
  | wait
  | events
  | chunk (got : ℕ)
  | last
  | done (ok : Bool)
  deriving DecidableEq

/-- `total` is `total_read`.  `pos` and `outside` are not in the code: how much of the stream was
taken, and if something was written outside of the buffer. -/
structure State where
  pc : Pc
  total : ℤ
  error : Bool
  cancelled : Bool
  closed : Bool
  buf : ℕ → UInt8
  pos : ℕ
  outside : Bool

/-- The answers: of `epoll_ctl`, of `read` (`interrupted` with time left; without, it is `fail`) and
of `epoll_wait` after interruptions; the next event, or none, for which `CheckForTimeout` is called
again. -/
inductive Action where
  | modify (ok : Bool)
  | read (n : ℕ)
  | again
  | interrupted
  | fail
  | wait (ok : Bool)
  | event (e : Event)
  | leave (timeout : Bool)

def State.init : State := ⟨.start, 0, false, false, false, fun _ => 0, 0, false⟩

section

variable (length : ℕ) (stream : ℕ → UInt8) (s : State)

/-- The next `n` bytes are stored at an offset. -/
def State.store (offset n : ℕ) : State :=
  { s with
    buf := fun i => if offset ≤ i ∧ i < offset + n then stream (s.pos + (i - offset)) else s.buf i
    pos := s.pos + n
    outside := s.outside || decide (length < offset + n) }

/-- `partialRead` has returned. -/
def State.added (step : ℤ) : State :=
  { s with
    pc := .events
    error := s.error || decide (step = -1 ∨ step = 0 ∧ s.total ≠ length)
    total := s.total + step }

/-- The body of the loop over the events. -/
def State.handle (e : Event) : State :=
  if e.err || !e.readable then { s with closed := e.hup, error := true }
  else if e.pipe then { s with closed := e.hup, cancelled := true }
  else if s.total < length then { s with closed := e.hup, pc := .chunk 0 }
  else State.added length { s with closed := e.hup } 0

/-- `readRaw`, from one answer to the next.  `partialRead` asks for 512 bytes at most. -/
def step (a : Action) (s : State) : Option State :=
  match s.pc, a with
  | .start, .modify ok => some { s with pc := if ok then .direct else .done false }
  | .direct, .read n =>
    if n ≤ length then
      some { s.store length stream 0 n with
        total := s.total + n
        pc := if s.total + n = length then .last else .wait }
    else none
  | .direct, .again => some { s with pc := .wait }
  | .direct, .interrupted => some { s with pc := if s.total < length then .direct else .last }
  | .direct, .fail => some { s with error := true, pc := .wait }
  | .wait, .wait ok => some { s with error := s.error || !ok, pc := .events }
  | .events, .event e =>
    if s.error || s.cancelled || s.closed then none else some (s.handle length e)
  | .events, .leave timeout =>
    some { s with pc :=
      if s.total ≠ length ∧ (s.error || s.cancelled || timeout) then .done false
      else if s.total < length then .direct else .last }
  | .chunk got, .read n =>
    if n ≤ length - s.total - got ∧ n ≤ 512 then
      let t := s.store length stream (s.total.toNat + got) n
      some (if n = 0 ∨ s.total + got + n = length then t.added length (got + n)
        else { t with pc := .chunk (got + n) })
    else none
  | .chunk got, .again => some (s.added length got)
  | .chunk _, .interrupted => some s
  | .chunk _, .fail => some (s.added length (-1))
  | .last, .modify ok => some { s with pc := .done ok }
  | _, _ => none

end

/-- The read of everything finds nothing after something was read. -/
def Careful (s : State) : Action → Prop
  | .read n => s.pc = .direct → n = 0 ∨ s.pos = 0
  | _ => True

instance (s : State) (a : Action) : Decidable (Careful s a) := by
  cases a <;> unfold Careful <;> infer_instance

variable {length n : ℕ} {stream : ℕ → UInt8} {s s' : State}

/-- Nothing is lost or displaced, unless the buffer will not be returned. -/
structure Inv (length : ℕ) (stream : ℕ → UInt8) (s : State) : Prop where
  inside : s.outside = false
  cells : ∀ i < s.pos, s.buf i = stream i
  bounded : s.pos ≤ length
  counted : match s.pc with
    | .chunk got => 0 ≤ s.total ∧ s.total + got = s.pos
    | .events => s.total = s.pos ∨ s.error = true ∧ s.total < length
    | .last => s.pos = length
    | .done ok => ok = true → s.pos = length
    | _ => s.total = s.pos

/-- Bytes that are stored behind the others, or none at the start. -/
theorem Inv.store (h : Inv length stream s) (offset : ℕ) (hoff : offset = s.pos ∨ offset + n = 0)
    (hn : s.pos + n ≤ length) : (s.store length stream offset n).outside = false ∧
      ∀ i < s.pos + n, (s.store length stream offset n).buf i = stream i := by
  have hle : offset + n ≤ length := by omega
  refine ⟨by simp [State.store, h.inside, hle], fun i hi => ?_⟩
  simp only [State.store]
  split_ifs with hnew
  · congr 1
    omega
  · exact h.cells i (by omega)

/-- **The step lemma.** -/
theorem Inv.step {a : Action} (h : Inv length stream s) (hcareful : Careful s a)
    (hstep : Socket.step length stream a s = some s') : Inv length stream s' := by
  obtain ⟨hin, hcells, hb, hcount⟩ := id h
  unfold Socket.step at hstep
  split at hstep
  all_goals try rename_i hpc; rw [hpc] at hcount
  -- the direct read: what it stores at the start is the next piece only if nothing was read before
  case h_2 n =>
    obtain ⟨hn, hstep⟩ := Option.ite_none_right_eq_some.mp hstep
    cases hstep
    have hfirst : n = 0 ∨ s.pos = 0 := hcareful hpc
    have hfits : s.pos + n ≤ length := by omega
    obtain ⟨hin', hcells'⟩ := h.store 0 (by omega) hfits
    refine ⟨hin', hcells', hfits, ?_⟩
    dsimp only
    split_ifs
    · show s.pos + n = length
      omega
    · show s.total + n = (s.pos + n : ℕ)
      omega
  -- an event: after an error the loop has been left, so the count is right
  case h_7 e =>
    obtain ⟨hgo, hstep⟩ := Option.ite_none_left_eq_some.mp hstep
    cases hstep
    simp only [Bool.or_eq_true, not_or] at hgo
    have hpos : s.total = s.pos := hcount.resolve_right fun hlost => hgo.1.1 hlost.1
    rw [State.handle]
    split_ifs
    · exact ⟨hin, hcells, hb, by simp [hpc, hpos]⟩
    · exact ⟨hin, hcells, hb, by simp [hpc, hpos]⟩
    · exact ⟨hin, hcells, hb, by simp [hpos]⟩
    · exact ⟨hin, hcells, hb, .inl (by simp [State.added, hpos])⟩
  -- leaving the loop of events: with a wrong count there was an error, and no buffer is returned
  case h_8 timeout =>
    cases hstep
    refine ⟨hin, hcells, hb, ?_⟩
    dsimp only
    rcases hcount with hpos | ⟨herror, hless⟩
    · split_ifs
      · exact nofun
      · exact hpos
      · show s.pos = length
        omega
    · rw [if_pos ⟨by omega, by simp [herror]⟩]
      exact nofun
  -- a read of `partialRead`: it stores behind what is there
  case h_9 got n =>
    obtain ⟨⟨hn, -⟩, hstep⟩ := Option.ite_none_right_eq_some.mp hstep
    cases hstep
    obtain ⟨hnonneg, hpos⟩ : 0 ≤ s.total ∧ s.total + got = s.pos := hcount
    have hfits : s.pos + n ≤ length := by omega
    obtain ⟨hin', hcells'⟩ := h.store (s.total.toNat + got) (by omega) hfits
    split_ifs
    · refine ⟨hin', hcells', hfits, .inl ?_⟩
      show s.total + (got + n) = (s.pos + n : ℕ)
      omega
    · refine ⟨hin', hcells', hfits, hnonneg, ?_⟩
      show s.total + (got + n : ℕ) = (s.pos + n : ℕ)
      omega
  case h_1 ok =>
    cases hstep
    cases ok with
    | true => exact ⟨hin, hcells, hb, hcount⟩
    | false => exact ⟨hin, hcells, hb, nofun⟩
  case h_4 =>
    cases hstep
    refine ⟨hin, hcells, hb, ?_⟩
    dsimp only
    split_ifs
    · exact hcount
    · show s.pos = length
      omega
  case h_10 got =>
    cases hstep
    exact ⟨hin, hcells, hb, .inl hcount.2⟩
  -- a failed read of `partialRead` takes one from the count and sets the error
  case h_12 got =>
    cases hstep
    refine ⟨hin, hcells, hb, .inr ⟨?_, ?_⟩⟩
    · simp [State.added]
    · show s.total + -1 < length
      omega
  case h_6 ok =>
    cases hstep
    exact ⟨hin, hcells, hb, .inl hcount⟩
  case h_3 | h_5 =>
    cases hstep
    exact ⟨hin, hcells, hb, hcount⟩
  case h_11 =>
    cases hstep
    exact h
  case h_13 ok =>
    cases hstep
    exact ⟨hin, hcells, hb, fun _ => hcount⟩
  case h_14 => cases hstep

theorem inv_of_run {l : List Action}
    (hrun : run (only Careful (Socket.step length stream)) l .init = some s) :
    Inv length stream s := by
  refine invariant_of_run (fun a s s' h hstep => ?_) hrun
    ⟨rfl, fun i hi => absurd hi i.not_lt_zero, length.zero_le, rfl⟩
  obtain ⟨hcareful, hstep⟩ := only_eq_some.mp hstep
  exact h.step hcareful hstep

/-! ### Messages -/

/-- The buffer that a call has returned, or `NULL`, and how far the stream was read. -/
def State.returned (length : ℕ) (s : State) : Option (Option (List UInt8) × ℕ) :=
  match s.pc with
  | .done ok => some (if ok then some ((List.range length).map s.buf) else none, s.pos)
  | _ => none

/-- The size field of a message. -/
def sizeField (l : List UInt8) : ℕ := l.foldr (fun b n => b.toNat + 256 * n) 0

/-- `SocketTransporter::receiveMessage`: the size and the data, which may be `NULL`.  `system` makes
the steps of `readRaw`, with the answers `l` for the size and `l'` for the data. -/
def receiveMessage (system : ℕ → (ℕ → UInt8) → Action → State → Option State)
    (stream : ℕ → UInt8) (l l' : List Action) : Option (ℕ × Option (List UInt8)) :=
  ((run (system 4 stream) l .init).bind (State.returned 4)).bind fun
  | (none, _) => some (0, none)
  | (some field, pos) =>
    let size := sizeField field
    ((run (system size fun i => stream (pos + i)) l' .init).bind (State.returned size)).map fun r =>
      (size, r.1)

theorem Inv.returned {l : List UInt8} {pos : ℕ} (h : Inv length stream s)
    (hreturned : s.returned length = some (some l, pos)) :
    pos = length ∧ l = (List.range length).map stream := by
  have hcount := h.counted
  unfold State.returned at hreturned
  split at hreturned
  · rename_i ok hpc
    rw [hpc] at hcount
    cases ok with
    | false => cases hreturned
    | true =>
      cases hreturned
      refine ⟨hcount rfl, List.map_congr_left fun i hi => h.cells i ?_⟩
      rw [hcount rfl]
      exact List.mem_range.mp hi
  · cases hreturned

/-- **Exact messages.**  In a careful run nothing is written outside of the buffer, and if it is
returned it holds the next bytes of the stream, and these were taken.  So a message whose data
is there has the size and the data that were sent. -/
theorem messages_exact (stream : ℕ → UInt8) :
    (∀ length l s, run (only Careful (step length stream)) l .init = some s →
      s.outside = false ∧ ∀ buf pos, s.returned length = some (some buf, pos) →
        pos = length ∧ buf = (List.range length).map stream) ∧
    ∀ l l' size data, receiveMessage (fun n stream => only Careful (step n stream)) stream l l' =
        some (size, some data) →
      size = sizeField ((List.range 4).map stream) ∧
        data = (List.range size).map fun i => stream (4 + i) := by
  refine ⟨fun length l s hrun => ?_, fun l l' size data hmessage => ?_⟩
  · exact ⟨(inv_of_run hrun).inside, fun buf pos => (inv_of_run hrun).returned⟩
  · obtain ⟨⟨_ | field, pos⟩, hfirst, hrest⟩ := Option.bind_eq_some_iff.mp hmessage
    · cases hrest
    · obtain ⟨s, hrun, hreturned⟩ := Option.bind_eq_some_iff.mp hfirst
      obtain ⟨rfl, rfl⟩ := (inv_of_run hrun).returned hreturned
      obtain ⟨⟨r, pos'⟩, hsecond, heq⟩ := Option.map_eq_some_iff.mp hrest
      obtain ⟨s', hrun', hreturned'⟩ := Option.bind_eq_some_iff.mp hsecond
      cases heq
      exact ⟨rfl, ((inv_of_run hrun').returned hreturned').2⟩

/-- A message of three bytes. -/
def threeBytes (i : ℕ) : UInt8 := [3, 0, 0, 0, 7, 8, 9].getD i 0

/-- The size comes in three pieces: one byte at once, one with an event, and two with an event of the
next round, whose first try finds nothing. -/
def sizeAnswers : List Action :=
  [.modify true, .read 1, .wait true, .event ⟨false, false, true, false⟩, .read 1, .again,
    .leave false, .again, .wait true, .event ⟨false, false, true, false⟩, .read 2, .leave false,
    .modify true]

def dataAnswers : List Action :=
  [.modify true, .read 2, .wait true, .event ⟨false, false, true, false⟩, .read 1, .leave false,
    .modify true]

theorem messages_exact_threeBytes :
    ∃ data, receiveMessage (fun n stream => only Careful (step n stream)) threeBytes sizeAnswers
        dataAnswers = some (3, some data) ∧
      data = (List.range 3).map fun i => threeBytes (4 + i) := by
  have hmessage : receiveMessage (fun n stream => only Careful (step n stream)) threeBytes sizeAnswers
      dataAnswers = some (3, some [7, 8, 9]) := by decide
  exact ⟨_, hmessage, ((messages_exact threeBytes).2 _ _ _ _ hmessage).2⟩

/-- Of four bytes one comes at once, one with the event and two in the next round, which puts
them at the start. -/
theorem overwritten : ∃ s, run (step 4 fun i => UInt8.ofNat (i + 1)) [.modify true, .read 1,
    .wait true, .event ⟨false, false, true, false⟩, .read 1, .again, .leave false, .read 2,
    .modify true] .init = some s ∧ s.returned 4 = some (some [3, 4, 0, 0], 4) :=
  ⟨_, rfl, rfl⟩

end Aesm.Socket
