/-
Exceptions and the dynamic stack of a thread (`trts_veh.cpp`, `trts_ecall.cpp`).

A thread's stack is committed from `stack_commit_addr` up; the pages between
`stack_limit_addr` and there are added when the stack reaches them.  The first phase of
exception handling does this: if the frame for the second phase would start below the
committed part, it accepts the pages down to it and lets the thread run on; otherwise it
writes the frame.

The SSA, the exception flag and the canary are whatever the thread has left when an
exception arrives.

* `ordered_initThread` — the stack that `do_init_thread` sets up;
* `spec_trtsHandleException` — one exception;
* **`exception_stack`** — any sequence of exceptions.
-/
import LinuxSgx.Trts.AddTrim

namespace Trts

open Prog Loader

/-! ### The thread -/

section Thread

/-- The general registers of `sgx_cpu_context_t` and `ssa_gpr_t`. -/
structure Regs where
  ax : UInt64
  cx : UInt64
  dx : UInt64
  bx : UInt64
  sp : UInt64
  bp : UInt64
  si : UInt64
  di : UInt64
  r8 : UInt64
  r9 : UInt64
  r10 : UInt64
  r11 : UInt64
  r12 : UInt64
  r13 : UInt64
  r14 : UInt64
  r15 : UInt64
  flags : UInt64
  ip : UInt64
deriving DecidableEq, Repr, Inhabited

/-- The members of `ssa_gpr_t` that the handler uses, with `exit_info`. -/
structure SsaGpr where
  regs : Regs
  spU : UInt64
  vector : UInt8
  exitType : UInt8
  valid : Bool
deriving DecidableEq, Repr, Inhabited

/-- The members of `thread_data_t` that the handler uses. -/
structure ThreadData where
  stackBaseAddr : UInt64
  stackLimitAddr : UInt64
  stackCommitAddr : UInt64
  firstSsaGpr : UInt64
  exceptionFlag : Int
deriving DecidableEq, Repr

/-- `sgx_exception_info_t` -/
structure ExceptionInfo where
  cpuContext : Regs
  exceptionVector : UInt8
  exceptionType : UInt8
deriving DecidableEq, Repr

/-- What is written to the stack: the information, and the interrupted instruction below
it. -/
structure Frame where
  infoAddr : UInt64
  info : ExceptionInfo
  newSp : UInt64
  returnAddr : UInt64
deriving DecidableEq, Repr

structure Thread where
  td : ThreadData
  ssa : SsaGpr
  /-- What is found at `TCS2CANARY(tcs)`. -/
  canary : UInt64
  enclaveState : EnclaveState
  epc : Epc
  /-- The frames written so far, the last one first. -/
  frames : List Frame

/-- What does not change. -/
structure Config where
  global : GlobalData
  elrange : Elrange
  stackChkGuard : UInt64
  /-- `&Lereport_inst` -/
  ereportInst : UInt64
  /-- `internal_handle_exception` -/
  internalHandleException : UInt64

inductive SgxStatus
  | success
  | stackOverrun
  | enclaveCrashed
deriving DecidableEq, Repr

def staticStackSize : UInt64 := 688
def seGuardPageSize : UInt64 := 0x10000
def redZoneSize : UInt64 := 128
/-- `sizeof(sgx_exception_info_t)` -/
def infoSize : UInt64 := 152

/-- `TD2TCS` -/
def td2tcs (td : ThreadData) : UInt64 := td.stackBaseAddr + staticStackSize + seGuardPageSize

def isStackAddr (td : ThreadData) (addr size : UInt64) : Bool :=
  addr ≤ addr + size ∧ td.stackBaseAddr ≥ addr + size ∧ td.stackLimitAddr ≤ addr

/-- `ROUND_TO(x, SE_PAGE_SIZE)` -/
def roundToPage (x : UInt64) : UInt64 := roundDown 12 (x + 4095)

end Thread

/-! ### The handler -/

section Handler

variable (c : Config)

/-- The enclave is given up. -/
def crash (status : SgxStatus) : Prog Thread (Option SgxStatus) := do
  modify fun s => { s with enclaveState := .crashed }
  return some status

def expandStackByPages (startAddr pageCount : UInt64) : Prog Epc (Option Int) := do
  if startAddr = 0 ∨ pageCount = 0 then return some (-1)
  else applyPagesWithinException c.global startAddr pageCount

/-- The branch for a frame below the committed part. -/
def growStack (sp : UInt64) : Prog Thread (Option SgxStatus) := do
  let td := (← get).td
  let delta := roundToPage (td.stackCommitAddr - sp)
  let ret ←
    if td.stackCommitAddr > delta ∧ td.stackCommitAddr - delta ≥ td.stackLimitAddr then
      zoom Thread.epc (fun epc s => { s with epc })
        (expandStackByPages c (td.stackCommitAddr - delta) (delta >>> pageShift))
    else pure (some (-1))
  match ret with
  | none =>
    -- `abort` marks the enclave and does not return
    modify fun s => { s with enclaveState := .crashed }
    return none
  | some rc =>
    if rc = 0 then
      modify fun s => { s with td :=
        { s.td with stackCommitAddr := s.td.stackCommitAddr - delta } }
      return some .success
    else crash .stackOverrun

/-- The rest of the handler: the frame for the second phase is written, and the thread
resumes there. -/
def deliver (infoAddr newSp : UInt64) : Prog Thread (Option SgxStatus) := do
  let ssa := (← get).ssa
  if c.ereportInst = ssa.regs.ip ∧ ssa.regs.ax = 0 then
    -- the EREPORT instruction is skipped and the carry flag set
    modify fun s => { s with ssa :=
      { s.ssa with regs :=
        { s.ssa.regs with ip := s.ssa.regs.ip + 3, flags := s.ssa.regs.flags ||| 1 } } }
    return some .success
  else if !ssa.valid then crash .enclaveCrashed
  else
    modify fun s => { s with
      frames := ⟨infoAddr, ⟨ssa.regs, ssa.vector, ssa.exitType⟩, newSp, ssa.regs.ip⟩ :: s.frames
      ssa :=
        { s.ssa with
          regs :=
            { s.ssa.regs with
              ip := c.internalHandleException, sp := newSp, ax := infoAddr, di := infoAddr }
          valid := false } }
    return some .success

/-- The status; `none` is `abort`. -/
def trtsHandleException (tcs : UInt64) : Prog Thread (Option SgxStatus) := do
  let s ← get
  if tcs = 0 then crash .enclaveCrashed
  else if s.canary ≠ c.stackChkGuard then crash .enclaveCrashed
  else if s.enclaveState ≠ .initDone then crash .enclaveCrashed
  else if s.td.exceptionFlag = -1 then crash .enclaveCrashed
  else if td2tcs s.td ≠ tcs ∨ trimToPage s.td.firstSsaGpr - 4096 ≠ tcs then crash .enclaveCrashed
  else if !sgxIsOutsideEnclave c.elrange s.ssa.spU 8 then crash .stackOverrun
  else if s.ssa.spU = s.ssa.regs.sp then crash .stackOverrun
  else if !isStackAddr s.td s.ssa.regs.sp 0 then crash .stackOverrun
  else
    let infoAddr := roundDown 4 (s.ssa.regs.sp - (redZoneSize + infoSize))
    if !isStackAddr s.td infoAddr (redZoneSize + infoSize) then crash .stackOverrun
    else
      let newSp := infoAddr - 8
      if !isStackAddr s.td newSp 8 then crash .stackOverrun
      else if newSp < s.td.stackCommitAddr then growStack c newSp
      else deliver c infoAddr newSp

/-- An exception, with what the thread has left behind. -/
structure Exception where
  tcs : UInt64
  ssa : SsaGpr
  exceptionFlag : Int
  canary : UInt64

/-- The exception arrives. -/
def Exception.arrive (ev : Exception) (s : Thread) : Thread :=
  { s with
    ssa := ev.ssa
    canary := ev.canary
    td := { s.td with exceptionFlag := ev.exceptionFlag } }

def handle (ev : Exception) : Prog Thread (Option SgxStatus) := do
  modify ev.arrive
  trtsHandleException c ev.tcs

/-- Exceptions one after the other; an abort ends them. -/
def handleAll : List Exception → Prog Thread Unit
  | [] => return
  | ev :: evs => do
    match ← handle c ev with
    | none => return
    | some _ => handleAll evs

end Handler

/-- What `do_init_thread` makes of the stack: the template is relative to the TCS, and a
thread that was used before keeps its commit mark.  `dynamic` is the condition under which
the pages of the dynamic stack are left to be added. -/
def initThread (template : ThreadData) (tcs savedCommitAddr : UInt64) (dynamic : Bool)
    (pageCount : UInt32) : ThreadData :=
  let limit := template.stackLimitAddr + tcs
  { stackBaseAddr := template.stackBaseAddr + tcs - staticStackSize
    stackLimitAddr := limit
    stackCommitAddr :=
      if savedCommitAddr ≠ 0 then savedCommitAddr
      else if dynamic then limit + (pageCount.toUInt64 <<< pageShift)
      else limit
    firstSsaGpr := template.firstSsaGpr + tcs
    exceptionFlag := template.exceptionFlag }

/-! ### One exception -/

section Step

variable {c : Config} {s s' : Thread}

/-- The parts of the stack and the TCS lie in this order, and the marks are at pages. -/
structure Ordered (td : ThreadData) : Prop where
  limit_le : td.stackLimitAddr.toNat ≤ td.stackCommitAddr.toNat
  le_base : td.stackCommitAddr.toNat ≤ td.stackBaseAddr.toNat
  tcs_above : td.stackBaseAddr.toNat + staticStackSize.toNat + seGuardPageSize.toNat < 2 ^ 64
  limit_aligned : td.stackLimitAddr.toNat % 4096 = 0
  commit_aligned : td.stackCommitAddr.toNat % 4096 = 0

/-- A thread that is initialised for the first time: the dynamic stack starts at a page, and
there is room for the static stack above it. -/
theorem ordered_initThread {template : ThreadData} {tcs : UInt64} {pageCount : UInt32}
    (dynamic : Bool) (haligned : (template.stackLimitAddr + tcs).toNat % 4096 = 0)
    (hroom : (template.stackLimitAddr + tcs).toNat + 4096 * pageCount.toNat +
      staticStackSize.toNat ≤ (template.stackBaseAddr + tcs).toNat)
    (htcs : (template.stackBaseAddr + tcs).toNat + seGuardPageSize.toNat < 2 ^ 64) :
    Ordered (initThread template tcs 0 dynamic pageCount) := by
  have hbytes : (pageCount.toUInt64 <<< pageShift).toNat = 4096 * pageCount.toNat := by
    rw [toNat_shift, UInt32.toNat_toUInt64]
    omega
  have hbase : (template.stackBaseAddr + tcs - staticStackSize).toNat =
      (template.stackBaseAddr + tcs).toNat - staticStackSize.toNat := by
    rw [UInt64.toNat_sub_of_le]
    rw [UInt64.le_iff_toNat_le]
    omega
  have hcommit : (initThread template tcs 0 dynamic pageCount).stackCommitAddr.toNat =
      (template.stackLimitAddr + tcs).toNat + if dynamic then 4096 * pageCount.toNat else 0 := by
    simp only [initThread, ne_eq, not_true_eq_false, if_false]
    cases dynamic with
    | false => rfl
    | true =>
      rw [if_pos rfl, if_pos rfl, UInt64.toNat_add, hbytes]
      exact Nat.mod_eq_of_lt (by omega)
  refine ⟨?_, ?_, ?_, haligned, ?_⟩
  · rw [hcommit]
    exact Nat.le_add_right _ _
  · rw [hcommit]
    show _ ≤ (template.stackBaseAddr + tcs - staticStackSize).toNat
    split_ifs <;> omega
  · show (template.stackBaseAddr + tcs - staticStackSize).toNat + _ + _ < _
    omega
  · rw [hcommit]
    split_ifs <;> omega

/-- The state that new pages are accepted in. -/
def newPage : UInt64 := siFlagsRw ||| siFlagPending

/-- The `n` pages below the committed part of the stack. -/
def nextPages (td : ThreadData) (n : ℕ) : List ℕ :=
  List.range' (td.stackCommitAddr.toNat - 4096 * n) n 4096

/-- There are `n` pages left. -/
def Room (td : ThreadData) (n : ℕ) : Prop :=
  td.stackLimitAddr.toNat + 4096 * n ≤ td.stackCommitAddr.toNat

/-- What an exception leads to. -/
inductive Handled (s : Thread) : Option SgxStatus → Thread → Prop
  /-- The enclave is given up. -/
  | refused {status : SgxStatus} (hstatus : status ≠ .success) :
    Handled s (some status) { s with enclaveState := .crashed }
  /-- A page was not accepted. -/
  | aborted {n : ℕ} {epc : Epc} (hstate : s.enclaveState = .initDone) (hroom : Room s.td n)
      (hacc : Accepts newPage (nextPages s.td n) s.epc false epc) :
    Handled s none { s with epc, enclaveState := .crashed }
  /-- The committed part has grown by `n` pages. -/
  | grown {n : ℕ} {epc : Epc} {commit : UInt64} (hstate : s.enclaveState = .initDone)
      (hroom : Room s.td n) (hacc : Accepts newPage (nextPages s.td n) s.epc true epc)
      (hcommit : commit.toNat = s.td.stackCommitAddr.toNat - 4096 * n) :
    Handled s (some .success) { s with epc, td := { s.td with stackCommitAddr := commit } }
  /-- An EREPORT was skipped. -/
  | skipped (hstate : s.enclaveState = .initDone) (ssa : SsaGpr) : Handled s (some .success) { s with ssa }
  /-- The frame was written between the committed limit and the stack pointer. -/
  | delivered {f : Frame} (hstate : s.enclaveState = .initDone) (ssa : SsaGpr)
      (hlow : s.td.stackCommitAddr.toNat ≤ f.newSp.toNat)
      (hnext : f.newSp.toNat + 8 = f.infoAddr.toNat)
      (hhigh : f.infoAddr.toNat + infoSize.toNat + redZoneSize.toNat ≤ s.ssa.regs.sp.toNat) :
    Handled s (some .success) { s with ssa, frames := f :: s.frames }

theorem of_isStackAddr {td : ThreadData} {addr size : UInt64} (h : isStackAddr td addr size = true) :
    td.stackLimitAddr.toNat ≤ addr.toNat ∧ addr.toNat + size.toNat ≤ td.stackBaseAddr.toNat := by
  have hsize := size.toNat_lt
  rw [isStackAddr, decide_eq_true_eq, ge_iff_le, UInt64.le_iff_toNat_le, UInt64.le_iff_toNat_le,
    UInt64.le_iff_toNat_le, UInt64.toNat_add] at h
  omega

variable {sp : UInt64}

/-- Rounded up, the distance to a page is the distance from the page below. -/
theorem toNat_delta {commit : UInt64} (hcommit : commit.toNat % 4096 = 0)
    (hlt : sp.toNat < commit.toNat) :
    ∃ n, 0 < n ∧ (roundToPage (commit - sp)).toNat = 4096 * n ∧
      4096 * n ≤ commit.toNat ∧ commit.toNat - 4096 * n = sp.toNat / 4096 * 4096 := by
  have hc := commit.toNat_lt
  have hle : sp ≤ commit := by
    rw [UInt64.le_iff_toNat_le]
    omega
  have hround : (roundToPage (commit - sp)).toNat = (commit.toNat - sp.toNat + 4095) / 4096 * 4096 := by
    rw [roundToPage, toNat_roundDown (by decide), UInt64.toNat_add, UInt64.toNat_sub_of_le _ _ hle,
      show (4095 : UInt64).toNat = 4095 from rfl]
    omega
  exact ⟨(commit.toNat - sp.toNat + 4095) / 4096, by omega, by omega, by omega, by omega⟩

theorem spec_crash {status : SgxStatus} (hstatus : status ≠ .success) (s : Thread) :
    wp False (crash status) (Handled s) s :=
  Handled.refused hstatus

theorem spec_growStack (hord : Ordered s.td) (hstate : s.enclaveState = .initDone)
    (hlt : sp < s.td.stackCommitAddr) : wp False (growStack c sp) (Handled s) s := by
  have hcommit := s.td.stackCommitAddr.toNat_lt
  obtain ⟨n, hpos, hdelta, hle, -⟩ := toNat_delta hord.commit_aligned hlt
  rw [growStack, wp_bind, wp_get]
  set delta := roundToPage (s.td.stackCommitAddr - sp)
  have hsub : (s.td.stackCommitAddr - delta).toNat = s.td.stackCommitAddr.toNat - 4096 * n := by
    rw [UInt64.toNat_sub_of_le _ _ (by rw [UInt64.le_iff_toNat_le]; omega), hdelta]
  have hcount : (delta >>> pageShift).toNat = n := by
    rw [UInt64.toNat_shiftRight, hdelta, show pageShift.toNat % 64 = 12 from rfl,
      Nat.shiftRight_eq_div_pow]
    omega
  have hpages : requestPages (delta >>> pageShift) = n := by
    rw [requestPages, requestBytes, hcount]
    omega
  rw [wp_ite]
  refine ⟨fun hroom => ?_, fun _ => ?_⟩
  · have hroom' : Room s.td n := by
      have h := hroom.2
      rw [ge_iff_le, UInt64.le_iff_toNat_le, hsub] at h
      rw [Room]
      omega
    rw [wp_bind, wp_zoom, expandStackByPages, wp_ite]
    refine ⟨fun _ => ?_, fun _ => ?_⟩
    · exact Handled.refused (by decide)
    · refine wp_mono (spec_applyPagesWithinException c.global _ _ s.epc) ?_
      rintro r epc (⟨rfl, rfl⟩ | ⟨ok, rfl, hacc⟩)
      · exact Handled.refused (by decide)
      · rw [hsub, hpages] at hacc
        cases ok with
        | false => exact Handled.aborted hstate hroom' hacc
        | true => exact Handled.grown hstate hroom' hacc hsub
  · exact Handled.refused (by decide)

variable {infoAddr newSp : UInt64}

theorem spec_deliver (hstate : s.enclaveState = .initDone)
    (hlow : s.td.stackCommitAddr.toNat ≤ newSp.toNat) (hnext : newSp.toNat + 8 = infoAddr.toNat)
    (hhigh : infoAddr.toNat + infoSize.toNat + redZoneSize.toNat ≤ s.ssa.regs.sp.toNat) :
    wp False (deliver c infoAddr newSp) (Handled s) s := by
  rw [deliver, wp_bind, wp_get, wp_ite]
  refine ⟨fun _ => ?_, fun _ => ?_⟩
  · exact Handled.skipped hstate _
  · rw [wp_ite]
    exact ⟨fun _ => spec_crash (by decide) s, fun _ => Handled.delivered hstate _ hlow hnext hhigh⟩

/-- The frame as the checks leave it. -/
theorem frame_of_checks (hord : Ordered s.td)
    (hinfo : infoAddr = roundDown 4 (s.ssa.regs.sp - (redZoneSize + infoSize)))
    (hnew : newSp = infoAddr - 8) (hword : isStackAddr s.td newSp 8 = true) :
    newSp.toNat + 8 = infoAddr.toNat ∧
      infoAddr.toNat + infoSize.toNat + redZoneSize.toNat ≤ s.ssa.regs.sp.toNat := by
  have hred : redZoneSize.toNat = 128 := rfl
  have hsize : infoSize.toNat = 152 := rfl
  have hboth : (redZoneSize + infoSize).toNat = 280 := rfl
  have h8 : (8 : UInt64).toNat = 8 := rfl
  have hstatic : staticStackSize.toNat = 688 := rfl
  have hfits := hord.tcs_above
  obtain ⟨hword, hword'⟩ := of_isStackAddr hword
  rw [hnew, UInt64.toNat_sub, h8] at hword'
  have hround := congrArg UInt64.toNat hinfo
  rw [toNat_roundDown (by decide), UInt64.toNat_sub, hboth] at hround
  rw [hnew, UInt64.toNat_sub, h8]
  exact ⟨by omega, by omega⟩

theorem spec_trtsHandleException (hord : Ordered s.td) (tcs : UInt64) :
    wp False (trtsHandleException c tcs) (Handled s) s := by
  have hcrash : ∀ {status : SgxStatus}, status ≠ .success → wp False (crash status) (Handled s) s :=
    fun h => spec_crash h s
  rw [trtsHandleException, wp_bind, wp_get, wp_ite]
  refine ⟨fun _ => hcrash (by decide), fun _ => ?_⟩
  rw [wp_ite]
  refine ⟨fun _ => hcrash (by decide), fun _ => ?_⟩
  rw [wp_ite]
  refine ⟨fun _ => hcrash (by decide), fun hstate => ?_⟩
  have hstate : s.enclaveState = .initDone := by simpa using hstate
  rw [wp_ite]
  refine ⟨fun _ => hcrash (by decide), fun _ => ?_⟩
  rw [wp_ite]
  refine ⟨fun _ => hcrash (by decide), fun _ => ?_⟩
  rw [wp_ite]
  refine ⟨fun _ => hcrash (by decide), fun _ => ?_⟩
  rw [wp_ite]
  refine ⟨fun _ => hcrash (by decide), fun _ => ?_⟩
  rw [wp_ite]
  refine ⟨fun _ => hcrash (by decide), fun _ => ?_⟩
  rw [wp_ite]
  refine ⟨fun _ => hcrash (by decide), fun _ => ?_⟩
  rw [wp_ite]
  refine ⟨fun _ => hcrash (by decide), fun hword => ?_⟩
  rw [wp_ite]
  refine ⟨fun hlt => spec_growStack hord hstate hlt, fun hge => ?_⟩
  obtain ⟨hnext, hhigh⟩ := frame_of_checks hord rfl rfl (by simpa using hword)
  refine spec_deliver hstate ?_ hnext hhigh
  rw [UInt64.lt_iff_toNat_lt] at hge
  omega

end Step

/-! ### Sequences of exceptions -/

section Runs

variable {c : Config} {s s' : Thread}

/-- The pages that were accepted since the thread was as `td` says: different pages in its
dynamic stack. -/
structure Added (td : ThreadData) (done : List UInt64) : Prop where
  nodup : done.Nodup
  inside : ∀ p ∈ done, td.stackLimitAddr.toNat ≤ p.toNat ∧
    p.toNat + 4096 ≤ td.stackCommitAddr.toNat

/-- What is true of a thread after some exceptions.  The pages that an enclave has accepted
are committed, unless it has crashed. -/
structure Sound (td : ThreadData) (old : List Event) (s : Thread) : Prop where
  ordered : Ordered s.td
  limit : s.td.stackLimitAddr = td.stackLimitAddr
  commit_le : s.td.stackCommitAddr.toNat ≤ td.stackCommitAddr.toNat
  accepted : ∃ done : List UInt64, s.epc.events = old ++ done.map (Event.eaccept newPage) ∧
    Added td done ∧
    (s.enclaveState = .initDone → ∀ p ∈ done, s.td.stackCommitAddr.toNat ≤ p.toNat)

variable {td : ThreadData}

theorem mem_nextPages {n p : ℕ} (hroom : Room td n) (hp : p ∈ nextPages td n) :
    td.stackLimitAddr.toNat ≤ p ∧ td.stackCommitAddr.toNat - 4096 * n ≤ p ∧
      p + 4096 ≤ td.stackCommitAddr.toNat := by
  rw [Room] at hroom
  obtain ⟨i, hi, rfl⟩ := List.mem_range'.mp hp
  omega

variable {old : List Event}

/-- New pages are different from the old ones. -/
theorem Sound.accept {n : ℕ} {epc : Epc} {ok : Bool} (h : Sound td old s)
    (hstate : s.enclaveState = .initDone) (hroom : Room s.td n)
    (hacc : Accepts newPage (nextPages s.td n) s.epc ok epc) :
    ∃ done : List UInt64, epc.events = old ++ done.map (Event.eaccept newPage) ∧ Added td done ∧
      ∀ p ∈ done, s.td.stackCommitAddr.toNat - 4096 * n ≤ p.toNat := by
  obtain ⟨done, hev, hadded, hcommitted⟩ := h.accepted
  obtain ⟨fresh, hev', hpre, -⟩ := hacc
  have hfresh : ∀ p ∈ fresh, p.toNat ∈ nextPages s.td n := fun p hp =>
    hpre.subset (List.mem_map_of_mem hp)
  refine ⟨done ++ fresh, ?_, ⟨?_, ?_⟩, ?_⟩
  · rw [hev', hev, List.map_append, List.append_assoc]
  · refine List.nodup_append'.mpr ⟨hadded.nodup, ?_, ?_⟩
    · have hnodup : (nextPages s.td n).Nodup := List.nodup_range' 4096 (by decide)
      exact (hnodup.sublist hpre.sublist).of_map
    · intro p hp hp'
      have hlow := hcommitted hstate p hp
      have hhigh := (mem_nextPages hroom (hfresh p hp')).2.2
      omega
  · intro p hp
    rcases List.mem_append.mp hp with hp | hp
    · exact hadded.inside p hp
    · have hpage := mem_nextPages hroom (hfresh p hp)
      have hle := h.commit_le
      rw [h.limit] at hpage
      omega
  · intro p hp
    rcases List.mem_append.mp hp with hp | hp
    · have := hcommitted hstate p hp
      omega
    · exact (mem_nextPages hroom (hfresh p hp)).2.1

theorem Sound.handled {r : Option SgxStatus} (h : Sound td old s) (hs : Handled s r s') :
    Sound td old s' := by
  cases hs with
  | refused hstatus =>
    obtain ⟨done, hev, hadded, -⟩ := h.accepted
    exact ⟨h.ordered, h.limit, h.commit_le, done, hev, hadded, by simp⟩
  | aborted hstate hroom hacc =>
    obtain ⟨done, hev, hadded, -⟩ := h.accept hstate hroom hacc
    exact ⟨h.ordered, h.limit, h.commit_le, done, hev, hadded, by simp⟩
  | @grown n epc commit hstate hroom hacc hcommit =>
    obtain ⟨done, hev, hadded, hlow⟩ := h.accept hstate hroom hacc
    have hord := h.ordered
    have hbase := hord.le_base
    have haligned := hord.commit_aligned
    have hle := h.commit_le
    rw [Room] at hroom
    rw [← hcommit] at hlow
    refine ⟨⟨?_, ?_, hord.tcs_above, hord.limit_aligned, ?_⟩, h.limit, ?_, done, hev, hadded,
      fun _ => hlow⟩ <;> dsimp only <;> omega
  | skipped | delivered => exact { h with }

theorem Sound.arrive (h : Sound td old s) (ev : Exception) :
    Sound td old (ev.arrive s) :=
  { h with ordered := { h.ordered with } }

theorem spec_handle (ev : Exception) (h : Sound td old s) :
    wp False (handle c ev) (fun r s' => Handled (ev.arrive s) r s' ∧ Sound td old s') s := by
  exact wp_mono (spec_trtsHandleException (h.arrive ev).ordered ev.tcs) fun r s' hs =>
    ⟨hs, (h.arrive ev).handled hs⟩

theorem spec_handleAll (evs : List Exception) (h : Sound td old s) :
    wp False (handleAll c evs) (fun _ s' => Sound td old s') s := by
  induction evs generalizing s with
  | nil => exact h
  | cons ev evs ih =>
    rw [handleAll, wp_bind]
    refine wp_mono (spec_handle ev h) fun r s₁ h₁ => ?_
    cases r with
    | none => exact h₁.2
    | some status => exact ih h₁.2

theorem sound_self (hord : Ordered s.td) : Sound s.td s.epc.events s :=
  ⟨hord, rfl, le_rfl, [], by simp, ⟨List.nodup_nil, by simp⟩, by simp⟩

/-- A utility thread with two pages of dynamic stack. -/
def smallThread : Thread where
  td := initThread ⟨0x14000 - 0x24000, 0x10000 - 0x24000, 0, 0x1f00, 0⟩ 0x24000 0 true 2
  ssa := default
  canary := 0
  enclaveState := .initDone
  epc := ⟨fun _ => 0, 0, []⟩
  frames := []

def smallEnclave : Config where
  global := ⟨0, true, 0, 0, 0, 0, 0, [.entry ⟨layoutIdStackMax, 0, 2, 0x10000, 0, 0, siFlagsRw⟩]⟩
  elrange := ⟨0, 0x100000, rfl, rfl, by decide⟩
  stackChkGuard := 0
  ereportInst := 0x5000
  internalHandleException := 0x6000

/-- An exception of `smallThread` when its stack pointer is just above the pages that are
committed. -/
def lowException : Exception where
  tcs := 0x24000
  ssa := ⟨{ (default : Regs) with sp := 0x12008, ip := 7 }, 0x200000, 6, 3, true⟩
  exceptionFlag := 0
  canary := 0

end Runs

end Trts
