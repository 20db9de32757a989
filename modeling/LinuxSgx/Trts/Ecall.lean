/-
The first ECALL (`trts_ecall.cpp`, `trts_nsp.cpp`, `init_enclave.cpp`).

The first ECALL finishes the initialisation of an enclave under `g_ife_lock`: it lists the
static threads in `g_tcs_node`, restores the protection of the pages and runs the global
constructors; other ECALLs wait.  Only three functions access the lock, the flag
`g_is_first_ecall` and the list, and all of them are modelled: `trts_ecall`,
`do_ecall_add_thread` and `do_uninit_enclave`.  Calls of them are interleaved in any order.
An access to shared data is a step, and so is a change of the list.  What the calls get
from outside (random numbers, memory, statuses of the functions they call) is arbitrary.

* `Good` — the lock is held inside the critical sections only, no static thread is listed
  twice, and an ECALL that got past the initialisation has seen it complete;
* **`first_ecall_iff`** — a run keeps to this just when the static threads are always listed
  without failure and for the first time;
* `first_ecall_fails` — a failure leaves the lock taken, and another one lists them twice.
-/
import LinuxSgx.Loader.Contexts
import LinuxSgx.Lib.Interleave
import LinuxSgx.Trts.Range

open Runs Interleave List Option

namespace Trts

open Loader Prog

/-! ### The list of threads -/

/-- `sgx_status_t` -/
abbrev Status := UInt32

def sgxSuccess : Status := 0
def sgxErrorUnexpected : Status := 1
def sgxErrorEnclaveCrashed : Status := 0x1006
def sgxErrorEcallNotAllowed : Status := 0x1007

/-- What an enclave is built with.  The table of `g_global_data` is one that the loader
accepts, and a TCS has a page. -/
structure Built where
  edmmSupported : Bool
  enclaveBase : UInt64
  metadata : Metadata
  valid : validateLayoutTable metadata = true
  paged : ∀ e, .entry e ∈ metadata.layouts → isStaticThread e = true → e.pageCount ≠ 0

/-- The cookie and the list, with what the random number generator and the allocator
are going to answer. -/
structure Saving where
  gTcsCookie : UInt64
  gTcsNode : List UInt64
  reads : List (Option UInt64)
  mallocs : List Bool

/-- The loop that reads until it gets something other than zero. -/
def readCookie : List (Option UInt64) → Option (Option UInt64 × List (Option UInt64))
  | [] => none
  | none :: reads => some (none, reads)
  | some rand :: reads => if rand = 0 then readCookie reads else some (some rand, reads)

/-- The cookie is chosen at the first use; `false` if that fails. -/
def chooseCookie : Prog Saving Bool := do
  let s ← get
  if s.gTcsCookie = 0 then
    match readCookie s.reads with
    | none => failure
    | some (none, reads) =>
      set { s with reads }
      return false
    | some (some rand, reads) =>
      set { s with gTcsCookie := rand, reads }
      return true
  else return true

/-- `malloc(sizeof(tcs_node_t))` -/
def mallocNode : Prog Saving Bool := do
  let s ← get
  match s.mallocs with
  | [] => failure
  | ok :: mallocs =>
    set { s with mallocs }
    return ok

/-- `ENC_TCS_POINTER`, and `DEC_TCS_POINTER` -/
def codeTcs (cookie tcs : UInt64) : UInt64 := tcs ^^^ cookie

def doSaveTcs (ptcs : UInt64) : Prog Saving Status := do
  if ← chooseCookie then
    if ← mallocNode then
      modify fun s => { s with gTcsNode := codeTcs s.gTcsCookie ptcs :: s.gTcsNode }
      return sgxSuccess
    else return sgxErrorUnexpected
  else return sgxErrorUnexpected

/-- The first node of `ptcs` is taken out. -/
def doDelTcs (utility : Bool) (cookie ptcs : UInt64) (nodes : List UInt64) : List UInt64 :=
  if utility then nodes.eraseP fun tcs => codeTcs cookie tcs = ptcs else nodes

variable (b : Built)

/-- What `add_static_threads` does with an entry. -/
def saveStatic (offset : UInt64) (e : LayoutEntry) : Prog Saving Int := do
  if isStaticThread e then
    let status ← doSaveTcs (e.rva + offset + b.enclaveBase)
    return if status ≠ sgxSuccess then -1 else 0
  else return 0

def addStaticThreads : Prog Saving Int :=
  walkTable (listed b.metadata.layouts) (saveStatic b) b.metadata.layouts.length

/-! ### The calls -/

/-- The data that the calls share, and which steps of the initialisation were completed. -/
structure Shared where
  gEnclaveState : EnclaveState
  gIsFirstEcall : Bool
  gIfeLock : Bool
  gTcsCookie : UInt64
  gTcsNode : List UInt64
  added : Bool
  protectedPages : Bool
  constructed : Bool
deriving DecidableEq

/-- What `enter_enclave` is called for. -/
inductive Command
  /-- An ECALL; `nested` if it is made during an OCALL. -/
  | ecall (nested : Bool)
  | initEnclave
  /-- `ECMD_MKTCS`; the pointer is missing if the structure is not outside the enclave. -/
  | mkTcs (utility : Bool) (ptcs : Option UInt64)
  /-- `ECMD_UNINIT_ENCLAVE`; `dynamic` if there is a dynamic thread. -/
  | uninitEnclave (utility dynamic : Bool)
deriving DecidableEq, Repr

inductive Pc
  | idle
  /-- `enter_enclave`, after the first check. -/
  | entering (cmd : Command)
  /-- `lock_enclave` -/
  | lockEnclave
  | initialising
  | doEcall (nested : Bool)
  /-- `if (unlikely(g_is_first_ecall))` -/
  | firstCheck (nested : Bool)
  | spinLock
  /-- `if (g_is_first_ecall)`, with the lock. -/
  | secondCheck
  | adding
  | protecting
  | constructing
  /-- `g_is_first_ecall = false` -/
  | constructed
  /-- `sgx_spin_unlock`, to go on or to return a status. -/
  | spinUnlock (next : Option Status)
  /-- `get_func_addr` -/
  | lookup
  | running
  /-- An ECALL is back in `enter_enclave`; `seen` if it got past the initialisation. -/
  | returned (status : Status) (seen : Bool)
  | left (status : Status) (seen : Bool)
  /-- `do_save_tcs` of `do_ecall_add_thread` -/
  | savingTcs (ptcs : UInt64)
  /-- `do_add_thread` -/
  | addingThread (ptcs : UInt64)
  /-- The loop of `do_uninit_enclave`. -/
  | trimming
  | uninitLock
  | uninitLocked
  | uninitDone
  /-- Another command is back in `enter_enclave`. -/
  | exiting (status : Status)
  | exited (status : Status)
deriving DecidableEq, Repr

/-- What a call is told during a step: what it is called for, whether what it calls
succeeds, the status it gets, random numbers and memory.  A step uses what it needs. -/
structure Answer where
  cmd : Command
  ok : Bool
  status : Status
  reads : List (Option UInt64)
  mallocs : List Bool

/-- A command that `enter_enclave` refuses. -/
def Command.refused : Command → Status → Pc
  | .ecall _, status => .left status false
  | _, status => .exited status

def Shared.saving (sh : Shared) (ans : Answer) : Saving :=
  ⟨sh.gTcsCookie, sh.gTcsNode, ans.reads, ans.mallocs⟩

def Shared.saved (sh : Shared) (s : Saving) : Shared :=
  { sh with gTcsCookie := s.gTcsCookie, gTcsNode := s.gTcsNode }

def Shared.crash (sh : Shared) : Shared := { sh with gEnclaveState := .crashed }

/-- `if(error == SGX_ERROR_UNEXPECTED)`, at the end of `enter_enclave`. -/
def Shared.leave (sh : Shared) (status : Status) : Shared :=
  if status = sgxErrorUnexpected then sh.crash else sh

/-- The beginning of a command, up to its first access to something shared. -/
def dispatch (cmd : Command) (sh : Shared) : Pc × Shared :=
  match cmd with
  | .ecall nested => (.doEcall nested, sh)
  | .initEnclave => (.lockEnclave, sh)
  | .mkTcs utility ptcs =>
    match ptcs with
    | some ptcs => if utility ∧ ptcs ≠ 0 then (.savingTcs ptcs, sh) else (.exiting sgxErrorUnexpected, sh)
    | none => (.exiting sgxErrorUnexpected, sh)
  | .uninitEnclave utility dynamic =>
    if b.edmmSupported = false then (.exiting sgxErrorUnexpected, sh.crash)
    else if utility = false ∧ dynamic then (.exiting sgxErrorUnexpected, sh.crash)
    else (.trimming, { sh with gTcsNode := [] })

/-- `add_static_threads` in `trts_ecall`; a failure returns with the lock. -/
def addThreads (ans : Answer) (sh : Shared) : Option (Pc × Shared) :=
  (addStaticThreads b (sh.saving ans)).map fun r =>
    if r.1 ≠ 0 then (.returned sgxErrorUnexpected false, sh.saved r.2)
    else (.protecting, { sh.saved r.2 with added := true })

/-- `do_save_tcs` in `do_ecall_add_thread` -/
def saveTcs (ptcs : UInt64) (ans : Answer) (sh : Shared) : Option (Pc × Shared) :=
  (doSaveTcs ptcs (sh.saving ans)).map fun r =>
    if r.1 ≠ sgxSuccess then (.exiting r.1, sh.saved r.2) else (.addingThread ptcs, sh.saved r.2)

/-- The next step of a call. -/
def advance (ans : Answer) (pc : Pc) (sh : Shared) : Option (Pc × Shared) :=
  match pc with
  | .idle =>
    if sh.gEnclaveState = .crashed then some (ans.cmd.refused sgxErrorEnclaveCrashed, sh)
    else some (.entering ans.cmd, sh)
  | .entering cmd =>
    if cmd ≠ .initEnclave ∧ sh.gEnclaveState ≠ .initDone then
      some (cmd.refused sgxErrorUnexpected, sh.crash)
    else some (dispatch b cmd sh)
  | .lockEnclave =>
    if sh.gEnclaveState = .initNotStarted then
      some (.initialising, { sh with gEnclaveState := .initInProgress })
    else some (.exiting sgxErrorUnexpected, sh)
  -- `init_enclave`, `do_init_thread` and `accept_post_remove`
  | .initialising =>
    if ans.ok then some (.exiting sgxSuccess, { sh with gEnclaveState := .initDone })
    else some (.exiting sgxErrorUnexpected, sh)
  -- a nested ECALL does not call `do_init_thread`
  | .doEcall nested =>
    if sh.gEnclaveState ≠ .initDone then some (.returned sgxErrorUnexpected false, sh)
    else if nested = false ∧ ans.ok = false then some (.returned sgxErrorUnexpected false, sh)
    else some (.firstCheck nested, sh)
  | .firstCheck nested =>
    if sh.gIsFirstEcall then
      if nested then some (.returned sgxErrorEcallNotAllowed false, sh) else some (.spinLock, sh)
    else some (.lookup, sh)
  | .spinLock =>
    if sh.gIfeLock then none else some (.secondCheck, { sh with gIfeLock := true })
  | .secondCheck =>
    if sh.gIsFirstEcall then
      if b.edmmSupported then some (.adding, sh) else some (.constructing, sh)
    else some (.spinUnlock none, sh)
  | .adding => addThreads b ans sh
  | .protecting =>
    if ans.status ≠ sgxSuccess then some (.spinUnlock (some ans.status), sh)
    else some (.constructing, { sh with protectedPages := true })
  | .constructing => some (.constructed, { sh with constructed := true })
  | .constructed => some (.spinUnlock none, { sh with gIsFirstEcall := false })
  | .spinUnlock none => some (.lookup, { sh with gIfeLock := false })
  | .spinUnlock (some status) => some (.returned status false, { sh with gIfeLock := false })
  | .lookup =>
    if ans.status = sgxSuccess then some (.running, sh) else some (.returned ans.status true, sh)
  | .running => some (.returned ans.status true, sh)
  | .returned status seen => some (.left status seen, sh.leave status)
  | .left _ _ => none
  | .savingTcs ptcs => saveTcs ptcs ans sh
  | .addingThread ptcs =>
    if ans.status = sgxSuccess then some (.exiting sgxSuccess, sh)
    else some (.exiting ans.status,
      { sh with gTcsNode := doDelTcs true sh.gTcsCookie ptcs sh.gTcsNode })
  -- `sgx_accept_forward` aborts if it fails
  | .trimming =>
    if ans.ok then some (.uninitLock, sh) else some (.exited sgxErrorUnexpected, sh.crash)
  | .uninitLock =>
    if sh.gIfeLock then none else some (.uninitLocked, { sh with gIfeLock := true })
  -- with `uninit_global_object`, unless the first ECALL is still to come
  | .uninitLocked => some (.uninitDone, { sh with gIfeLock := false })
  | .uninitDone => some (.exiting sgxSuccess, sh.crash)
  | .exiting status => some (.exited status, sh.leave status)
  | .exited _ => none

/-- The enclave is loaded, and no call has been made. -/
def loaded : Threads ℕ Shared Pc where
  shared := ⟨.initNotStarted, true, false, 0, [], false, false, false⟩
  pc _ := .idle

/-- The next step of one of the calls. -/
abbrev ecallStep : ℕ × Answer → Threads ℕ Shared Pc → Option (Threads ℕ Shared Pc) :=
  Interleave.step (advance b)

/-! ### What is listed -/

section Listing

variable {b}

@[simp] theorem codeTcs_codeTcs (cookie tcs : UInt64) :
    codeTcs cookie (codeTcs cookie tcs) = tcs := by
  rw [codeTcs, codeTcs, UInt64.xor_assoc, UInt64.xor_self, UInt64.xor_zero]

/-- The threads in a list. -/
def decoded (cookie : UInt64) (nodes : List UInt64) : List UInt64 := nodes.map (codeTcs cookie)

/-- Nothing is listed before the cookie is chosen. -/
def Coded (cookie : UInt64) (nodes : List UInt64) : Prop := cookie = 0 → nodes = []

theorem ne_zero_of_readCookie {reads reads' : List (Option UInt64)} {rand : UInt64}
    (h : readCookie reads = some (some rand, reads')) : rand ≠ 0 := by
  induction reads with
  | nil => cases h
  | cons r reads ih =>
    cases r with
    | none => cases h
    | some r =>
      rw [readCookie] at h
      split at h
      · exact ih h
      · cases h
        assumption

theorem spec_chooseCookie {s : Saving} (hs : Coded s.gTcsCookie s.gTcsNode) :
    wp True chooseCookie (fun ok s' => s'.gTcsNode = s.gTcsNode ∧
      Coded s'.gTcsCookie s'.gTcsNode ∧ (ok = true → s'.gTcsCookie ≠ 0) ∧
      decoded s'.gTcsCookie s'.gTcsNode = decoded s.gTcsCookie s.gTcsNode) s := by
  rw [chooseCookie, wp_bind, wp_get, wp_ite]
  refine ⟨fun hzero => ?_, fun hzero => ⟨rfl, hs, fun _ => hzero, rfl⟩⟩
  split
  · trivial
  · exact ⟨rfl, hs, fun h => absurd h Bool.false_ne_true, rfl⟩
  · rename_i rand reads hread
    refine ⟨rfl, fun h => hs hzero, fun _ => ne_zero_of_readCookie hread, ?_⟩
    simp only [hs hzero, decoded, map_nil]

theorem spec_mallocNode (s : Saving) :
    wp True mallocNode (fun _ s' => s'.gTcsNode = s.gTcsNode ∧ s'.gTcsCookie = s.gTcsCookie) s := by
  rw [mallocNode, wp_bind, wp_get]
  split
  · trivial
  · exact ⟨rfl, rfl⟩

/-- What is listed after `do_save_tcs`. -/
def Saves (ptcs : UInt64) (s : Saving) (status : Status) (s' : Saving) : Prop :=
  Coded s'.gTcsCookie s'.gTcsNode ∧
    decoded s'.gTcsCookie s'.gTcsNode =
      if status = sgxSuccess then ptcs :: decoded s.gTcsCookie s.gTcsNode
      else decoded s.gTcsCookie s.gTcsNode

theorem spec_doSaveTcs (ptcs : UInt64) {s : Saving} (hs : Coded s.gTcsCookie s.gTcsNode) :
    wp True (doSaveTcs ptcs) (Saves ptcs s) s := by
  have hfail : sgxErrorUnexpected ≠ sgxSuccess := by decide
  rw [doSaveTcs, wp_bind]
  refine wp_mono (spec_chooseCookie hs) ?_
  rintro ok s₁ ⟨_, hcoded, hzero, hdec⟩
  rw [wp_ite]
  refine ⟨fun hok => ?_, fun _ => ⟨hcoded, by rw [if_neg hfail, hdec]⟩⟩
  rw [wp_bind]
  refine wp_mono (spec_mallocNode s₁) ?_
  rintro ok' s₂ ⟨hnodes, hcookie⟩
  rw [wp_ite]
  refine ⟨fun _ => ?_, fun _ => ?_⟩
  · rw [wp_bind, wp_modify]
    refine ⟨fun h => absurd (hcookie.symm.trans h) (hzero hok), ?_⟩
    rw [if_pos rfl, ← hdec, ← hcookie, ← hnodes]
    simp only [decoded, map_cons, codeTcs_codeTcs]
  · refine ⟨by rwa [hcookie, hnodes], ?_⟩
    rw [if_neg hfail, hcookie, hnodes, hdec]

end Listing

/-! ### The static threads -/

namespace Built

/-- The entries of the table, each repetition of a group on its own. -/
def placed : List LayoutEntry := (placeTable b.metadata [] b.metadata.layouts).getD []

/-- The address of the TCS of an entry. -/
def tcsOf (e : LayoutEntry) : UInt64 := e.rva + b.enclaveBase

def statics : List UInt64 := (b.placed.filter isStaticThread).map b.tcsOf

theorem placeTable_eq : placeTable b.metadata [] b.metadata.layouts = some b.placed := by
  obtain ⟨l, hl, _⟩ := fits_of_validateLayoutTable b.valid
  rw [placed, hl, getD_some]

theorem fits : Fits b.metadata b.placed := by
  obtain ⟨l, hl, hfits⟩ := fits_of_validateLayoutTable b.valid
  rwa [placed, hl, getD_some]

/-- Every static thread is at an address of its own. -/
theorem nodup_statics : b.statics.Nodup := by
  have hpaged : ∀ e ∈ b.placed, isStaticThread e = true → e.pageCount ≠ 0 :=
    forall_placeTable (fun _ _ he => he) b.placeTable_eq b.paged
  rw [statics, List.Nodup, pairwise_map]
  refine List.Pairwise.imp_of_mem ?_ (b.fits.apart.filter _)
  intro e f he hf hapart heq
  have hrva : e.rva = f.rva := (UInt64.add_left_inj _).mp heq
  obtain ⟨hmem, hstatic⟩ := mem_filter.mp he
  obtain ⟨hmem', hstatic'⟩ := mem_filter.mp hf
  have hpos : e.pageCount.toNat ≠ 0 := fun h => hpaged e hmem hstatic (UInt32.toNat_inj.mp h)
  have hpos' : f.pageCount.toNat ≠ 0 := fun h => hpaged f hmem' hstatic' (UInt32.toNat_inj.mp h)
  rw [LayoutEntry.Apart, LayoutEntry.stop, LayoutEntry.stop, LayoutEntry.start, LayoutEntry.start,
    hrva] at hapart
  omega

end Built

theorem saveStatic_shift (delta : UInt64) (e : LayoutEntry) :
    saveStatic b delta e = saveStatic b 0 (e.shift delta) := by
  simp only [saveStatic, shift_rva_add_zero]
  rfl

/-- What is listed after a walk over the entries `l`. -/
def Lists (l : List LayoutEntry) (s : Saving) (r : Int) (s' : Saving) : Prop :=
  Coded s'.gTcsCookie s'.gTcsNode ∧
    (r = 0 → decoded s'.gTcsCookie s'.gTcsNode =
      ((l.filter isStaticThread).map b.tcsOf).reverse ++ decoded s.gTcsCookie s.gTcsNode)

theorem spec_saveStatic (e : LayoutEntry) {s : Saving} (hs : Coded s.gTcsCookie s.gTcsNode) :
    wp True (saveStatic b 0 e) (Lists b [e] s) s := by
  rw [saveStatic, wp_ite]
  refine ⟨fun he => ?_, fun he => ⟨hs, fun _ => ?_⟩⟩
  · rw [wp_bind, UInt64.add_zero]
    refine wp_mono (spec_doSaveTcs _ hs) ?_
    rintro status s' ⟨hcoded, hdec⟩
    refine ⟨hcoded, fun hr => ?_⟩
    by_cases hstatus : status = sgxSuccess
    · rw [hdec, if_pos hstatus, filter_cons_of_pos he]
      rfl
    · rw [if_pos hstatus] at hr
      cases hr
  · rw [filter_cons_of_neg he]
    rfl

theorem spec_addStaticThreads {s : Saving} (hs : Coded s.gTcsCookie s.gTcsNode) :
    wp True (addStaticThreads b) (Lists b b.placed s) s := by
  rw [addStaticThreads, walk_listed (saveStatic_shift b) b.placeTable_eq]
  generalize b.placed = l
  -- over the entries, from any list
  induction l generalizing s with
  | nil => exact ⟨hs, fun _ => rfl⟩
  | cons e l ih =>
    rw [tryAll, wp_andThen]
    refine wp_mono (spec_saveStatic b e hs) ?_
    rintro r s₁ ⟨hcoded, hdec⟩
    refine ⟨fun hr => ⟨hcoded, fun h => absurd h hr⟩, fun hr => ?_⟩
    refine wp_mono (ih hcoded) ?_
    rintro r' s₂ ⟨hcoded', hdec'⟩
    refine ⟨hcoded', fun hr' => ?_⟩
    rw [hdec' hr', hdec hr, ← List.append_assoc, ← List.reverse_append, ← map_append,
      ← filter_append]
    rfl

/-! ### Initialisation -/

section Knowledge

/-- The initialisation is over, and all of it was done. -/
def Shared.Complete (sh : Shared) : Prop :=
  sh.gIsFirstEcall = false ∧ sh.constructed = true ∧
    (b.edmmSupported = true → sh.added = true ∧ sh.protectedPages = true)

/-- The critical sections. -/
def Pc.inside : Pc → Bool
  | .secondCheck | .adding | .protecting | .constructing | .constructed | .spinUnlock _
  | .uninitLocked => true
  | _ => false

/-- The threads in `g_tcs_node`. -/
def Shared.threads (sh : Shared) : List UInt64 := decoded sh.gTcsCookie sh.gTcsNode

/-- What a call can rely on. -/
def Pc.Knows (sh : Shared) : Pc → Prop
  | .protecting => sh.added = true
  | .constructing => b.edmmSupported = true → sh.added = true ∧ sh.protectedPages = true
  | .constructed => sh.constructed = true ∧
      (b.edmmSupported = true → sh.added = true ∧ sh.protectedPages = true)
  | .spinUnlock none | .lookup | .running | .returned _ true | .left _ true => sh.Complete b
  | .spinUnlock (some status) | .returned status false | .left status false => status ≠ sgxSuccess
  | _ => True

def Shared.Sane (sh : Shared) : Prop :=
  Coded sh.gTcsCookie sh.gTcsNode ∧ (sh.gIsFirstEcall = false → sh.Complete b)

/-- Nothing that was done is undone. -/
structure Shared.Grows (sh sh' : Shared) : Prop where
  first : sh.gIsFirstEcall = false → sh'.gIsFirstEcall = false
  added : sh.added = true → sh'.added = true
  protectedPages : sh.protectedPages = true → sh'.protectedPages = true
  constructed : sh.constructed = true → sh'.constructed = true

variable {b} {sh sh' : Shared} {pc pc' : Pc} {ans : Answer}

theorem Shared.Grows.complete (h : sh.Grows sh') (hc : sh.Complete b) : sh'.Complete b :=
  ⟨h.first hc.1, h.constructed hc.2.1, fun hedmm =>
    ⟨h.added (hc.2.2 hedmm).1, h.protectedPages (hc.2.2 hedmm).2⟩⟩

/-- The steps of the others take nothing away. -/
theorem Pc.Knows.mono (h : sh.Grows sh') (hk : pc.Knows b sh) : pc.Knows b sh' := by
  have hpages : (b.edmmSupported = true → sh.added = true ∧ sh.protectedPages = true) →
      b.edmmSupported = true → sh'.added = true ∧ sh'.protectedPages = true :=
    fun hp hedmm => ⟨h.added (hp hedmm).1, h.protectedPages (hp hedmm).2⟩
  cases pc with
  | protecting => exact h.added hk
  | constructing => exact hpages hk
  | constructed => exact ⟨h.constructed hk.1, hpages hk.2⟩
  | lookup | running => exact h.complete hk
  | spinUnlock next =>
    cases next with
    | none => exact h.complete hk
    | some status => exact hk
  | returned status seen | left status seen =>
    cases seen with
    | true => exact h.complete hk
    | false => exact hk
  | _ => trivial

/-- What a step leads to. -/
structure Goes (b : Built) (sh : Shared) (pc' : Pc) (sh' : Shared) : Prop where
  sane : sh'.Sane b
  knows : pc'.Knows b sh'
  grows : sh.Grows sh'

/-- What a step leads to that lists no threads. -/
structure Advances (b : Built) (pc : Pc) (sh : Shared) (pc' : Pc) (sh' : Shared) : Prop
    extends Goes b sh pc' sh' where
  respects : Respects Shared.gIfeLock Pc.inside pc sh pc' sh'
  threads : sh'.threads.Sublist sh.threads

/-- A step that changes at most the state of the enclave and the lock. -/
theorem Advances.same (hsane : sh.Sane b) (hknows : pc'.Knows b sh)
    (hresp : Respects Shared.gIfeLock Pc.inside pc sh pc' sh')
    (hsh : sh' = { sh with gEnclaveState := sh'.gEnclaveState, gIfeLock := sh'.gIfeLock }) :
    Advances b pc sh pc' sh' := by
  rw [hsh] at hresp ⊢
  exact ⟨⟨hsane, hknows.mono ⟨id, id, id, id⟩, ⟨id, id, id, id⟩⟩, hresp, .refl _⟩

theorem Advances.state (hsane : sh.Sane b) (hknows : pc'.Knows b sh) (hin : pc.inside = pc'.inside)
    (hsh : sh' = { sh with gEnclaveState := sh'.gEnclaveState }) : Advances b pc sh pc' sh' := by
  rw [hsh]
  exact .same hsane hknows (respects_stay hin rfl) rfl

theorem Advances.keep (hsane : sh.Sane b) (hknows : pc'.Knows b sh) (hin : pc.inside = pc'.inside) :
    Advances b pc sh pc' sh :=
  .state hsane hknows hin rfl

theorem Advances.leave {status : Status} (hsane : sh.Sane b) (hknows : pc'.Knows b sh)
    (hin : pc.inside = pc'.inside) : Advances b pc sh pc' (sh.leave status) := by
  rw [Shared.leave]
  split_ifs
  · exact .state hsane hknows hin rfl
  · exact .keep hsane hknows hin

/-- A step that takes threads out of the list. -/
theorem Advances.list (hsane : sh.Sane b) (hknows : pc'.Knows b sh) (hin : pc.inside = pc'.inside)
    (hsub : sh'.gTcsNode.Sublist sh.gTcsNode) (hsh : sh' = { sh with gTcsNode := sh'.gTcsNode }) :
    Advances b pc sh pc' sh' := by
  rw [hsh]
  exact ⟨⟨⟨fun hzero => sublist_nil.mp (hsane.1 hzero ▸ hsub), hsane.2⟩,
    hknows.mono ⟨id, id, id, id⟩, ⟨id, id, id, id⟩⟩, respects_stay hin rfl, hsub.map _⟩

theorem advances_refused (hsane : sh.Sane b) (hin : pc.inside = false) (cmd : Command)
    {status : Status} (hstatus : status ≠ sgxSuccess) {st : EnclaveState} :
    Advances b pc sh (cmd.refused status) { sh with gEnclaveState := st } := by
  cases cmd with
  | ecall nested => exact .state hsane hstatus hin rfl
  | _ => exact .state hsane trivial hin rfl

theorem advances_dispatch (hsane : sh.Sane b) (cmd : Command) :
    Advances b (.entering cmd) sh (dispatch b cmd sh).1 (dispatch b cmd sh).2 := by
  cases cmd with
  | ecall | initEnclave => exact .keep hsane trivial rfl
  | mkTcs utility ptcs =>
    cases ptcs with
    | none => exact .keep hsane trivial rfl
    | some ptcs =>
      rw [dispatch]
      split_ifs
      · exact .keep hsane trivial rfl
      · exact .keep hsane trivial rfl
  | uninitEnclave utility dynamic =>
    rw [dispatch]
    split_ifs
    · exact .state hsane trivial rfl rfl
    · exact .state hsane trivial rfl rfl
    · exact .list hsane trivial rfl (nil_sublist _) rfl

/-- A step that changes the list. -/
theorem goes_of_list (hsane : sh.Sane b) (hknows : pc'.Knows b sh) {cookie : UInt64}
    {nodes : List UInt64} (hcoded : Coded cookie nodes) :
    Goes b sh pc' { sh with gTcsCookie := cookie, gTcsNode := nodes } where
  sane := ⟨hcoded, hsane.2⟩
  knows := hknows.mono ⟨id, id, id, id⟩
  grows := ⟨id, id, id, id⟩

theorem goes_addThreads (hsane : sh.Sane b) (h : addThreads b ans sh = some (pc', sh')) :
    Goes b sh pc' sh' := by
  have hunexpected : sgxErrorUnexpected ≠ sgxSuccess := by decide
  obtain ⟨⟨r, s'⟩, hrun, heq⟩ := map_eq_some_iff.mp h
  have hcoded := (wp_true_iff.mp (spec_addStaticThreads b hsane.1) _ _ hrun).1
  split at heq
  · cases heq
    exact goes_of_list hsane (by exact hunexpected) hcoded
  · cases heq
    exact ⟨⟨hcoded, fun hfirst => ⟨hfirst, (hsane.2 hfirst).2.1, fun hedmm =>
      ⟨rfl, ((hsane.2 hfirst).2.2 hedmm).2⟩⟩⟩, rfl, ⟨id, fun _ => rfl, id, id⟩⟩

theorem goes_saveTcs {ptcs : UInt64} (hsane : sh.Sane b)
    (h : saveTcs ptcs ans sh = some (pc', sh')) : Goes b sh pc' sh' := by
  obtain ⟨⟨r, s'⟩, hrun, heq⟩ := map_eq_some_iff.mp h
  have hcoded := (wp_true_iff.mp (spec_doSaveTcs ptcs hsane.1) _ _ hrun).1
  split at heq
  · cases heq
    exact goes_of_list hsane (by trivial) hcoded
  · cases heq
    exact goes_of_list hsane (by trivial) hcoded

/-- **One step.**  Whatever a call is told, it relies on nothing that is not so, and treats the
lock well. -/
theorem advances_advance (hsane : sh.Sane b) (hk : pc.Knows b sh) (hadd : pc ≠ .adding)
    (hsave : ∀ ptcs, pc ≠ .savingTcs ptcs) (h : advance b ans pc sh = some (pc', sh')) :
    Advances b pc sh pc' sh' := by
  have hunexpected : sgxErrorUnexpected ≠ sgxSuccess := by decide
  have hnotAllowed : sgxErrorEcallNotAllowed ≠ sgxSuccess := by decide
  cases pc with
  -- the two steps that change the list are `goes_addThreads` and `goes_saveTcs`
  | adding => exact absurd rfl hadd
  | savingTcs ptcs => exact absurd rfl (hsave ptcs)
  | idle =>
    rw [advance] at h
    split_ifs at h
    · cases h
      exact advances_refused hsane rfl _ (by decide)
    · cases h
      exact .keep hsane trivial rfl
  | entering cmd =>
    rw [advance] at h
    split_ifs at h
    · cases h
      exact advances_refused hsane rfl _ hunexpected
    · obtain ⟨rfl, rfl⟩ := Prod.mk.inj (Option.some.inj h)
      exact advances_dispatch hsane cmd
  -- what the initialisation has done so far is what the next step may rely on
  | protecting =>
    rw [advance] at h
    split_ifs at h with hstatus
    · cases h
      exact .keep hsane hstatus rfl
    · cases h
      exact ⟨⟨⟨hsane.1, fun hfirst => ⟨hfirst, (hsane.2 hfirst).2.1, fun _ => ⟨hk, rfl⟩⟩⟩,
        fun _ => ⟨hk, rfl⟩, ⟨id, id, fun _ => rfl, id⟩⟩, respects_stay rfl rfl, .refl _⟩
  | constructing =>
    cases h
    exact ⟨⟨⟨hsane.1, fun hfirst => ⟨hfirst, rfl, hk⟩⟩, ⟨rfl, hk⟩, ⟨id, id, id, fun _ => rfl⟩⟩,
      respects_stay rfl rfl, .refl _⟩
  | constructed =>
    cases h
    exact ⟨⟨⟨hsane.1, fun _ => ⟨rfl, hk⟩⟩, ⟨rfl, hk⟩, ⟨fun _ => rfl, id, id, id⟩⟩,
      respects_stay rfl rfl, .refl _⟩
  -- the lock is given back, whatever comes next
  | spinUnlock next =>
    cases next with
    | none | some =>
      cases h
      exact .same hsane hk ((respects_leave_iff rfl rfl).mpr rfl) rfl
  | addingThread ptcs =>
    rw [advance] at h
    split_ifs at h
    · cases h
      exact .keep hsane trivial rfl
    · cases h
      exact .list hsane trivial rfl eraseP_sublist rfl
  | lockEnclave | initialising =>
    rw [advance] at h
    split_ifs at h
    · cases h
      exact .state hsane trivial rfl rfl
    · cases h
      exact .keep hsane trivial rfl
  | doEcall nested =>
    rw [advance] at h
    split_ifs at h
    · cases h
      exact .keep hsane hunexpected rfl
    · cases h
      exact .keep hsane hunexpected rfl
    · cases h
      exact .keep hsane trivial rfl
  | firstCheck nested =>
    rw [advance] at h
    split_ifs at h with hfirst
    · cases h
      exact .keep hsane hnotAllowed rfl
    · cases h
      exact .keep hsane trivial rfl
    · cases h
      exact .keep hsane (hsane.2 (Bool.eq_false_iff.mpr hfirst)) rfl
  -- a call waits as long as the lock is taken
  | spinLock | uninitLock =>
    rw [advance] at h
    split_ifs at h with hlock
    cases h
    exact .same hsane trivial (respects_enter rfl rfl (Bool.eq_false_iff.mpr hlock) rfl) rfl
  -- another call may have made the initialisation in the meantime
  | secondCheck =>
    rw [advance] at h
    split_ifs at h with hfirst hedmm
    · cases h
      exact .keep hsane trivial rfl
    · cases h
      exact .keep hsane (fun hedmm' => absurd hedmm' hedmm) rfl
    · cases h
      exact .keep hsane (hsane.2 (Bool.eq_false_iff.mpr hfirst)) rfl
  | lookup =>
    rw [advance] at h
    split_ifs at h
    · cases h
      exact .keep hsane hk rfl
    · cases h
      exact .keep hsane hk rfl
  | running =>
    cases h
    exact .keep hsane hk rfl
  | returned status seen =>
    cases h
    exact .leave hsane (by cases seen <;> exact hk) rfl
  | left | exited => cases h
  | trimming =>
    rw [advance] at h
    split_ifs at h
    · cases h
      exact .keep hsane trivial rfl
    · cases h
      exact .state hsane trivial rfl rfl
  | uninitLocked =>
    cases h
    exact .same hsane trivial ((respects_leave_iff rfl rfl).mpr rfl) rfl
  | uninitDone =>
    cases h
    exact .state hsane trivial rfl rfl
  | exiting status =>
    cases h
    exact .leave hsane trivial rfl

theorem goes_advance (hsane : sh.Sane b) (hk : pc.Knows b sh)
    (h : advance b ans pc sh = some (pc', sh')) : Goes b sh pc' sh' := by
  by_cases hadd : pc = .adding
  · subst hadd
    exact goes_addThreads hsane h
  by_cases hsave : ∃ ptcs, pc = .savingTcs ptcs
  · obtain ⟨ptcs, rfl⟩ := hsave
    exact goes_saveTcs hsane h
  · exact (advances_advance hsane hk hadd (fun ptcs hpc => hsave ⟨ptcs, hpc⟩) h).toGoes

end Knowledge

/-! ### The lock and the list -/

section Lock

variable {b} {sh sh' : Shared} {pc pc' : Pc} {ans : Answer}

/-- Whether a call lists the static threads without failure, if that is its next step. -/
def Listing (b : Built) (ans : Answer) (pc : Pc) (sh : Shared) : Prop :=
  pc = .adding → (addStaticThreads b (sh.saving ans)).map Prod.fst = some 0

instance (b : Built) (ans : Answer) (pc : Pc) (sh : Shared) : Decidable (Listing b ans pc sh) :=
  inferInstanceAs (Decidable (pc = .adding → (addStaticThreads b (sh.saving ans)).map Prod.fst = some 0))

/-- `do_save_tcs` is called with or without the lock. -/
theorem inside_saveTcs {ptcs : UInt64} (h : saveTcs ptcs ans sh = some (pc', sh')) :
    pc'.inside = false ∧ sh'.gIfeLock = sh.gIfeLock := by
  obtain ⟨r, _, heq⟩ := map_eq_some_iff.mp h
  split_ifs at heq
  · cases heq
    exact ⟨rfl, rfl⟩
  · cases heq
    exact ⟨rfl, rfl⟩

/-- The step that lists them does so unless it fails, since it then returns with the lock. -/
theorem respects_addThreads (hlock : sh.gIfeLock = true)
    (h : addThreads b ans sh = some (pc', sh')) :
    Respects Shared.gIfeLock Pc.inside .adding sh pc' sh' ↔
      (addStaticThreads b (sh.saving ans)).map Prod.fst = some 0 := by
  obtain ⟨⟨r, s'⟩, hrun, heq⟩ := map_eq_some_iff.mp h
  rw [hrun, map_some, Option.some.injEq]
  split_ifs at heq with hr
  · cases heq
    rw [respects_leave_iff rfl rfl]
    exact iff_of_false (fun hfree => absurd (hlock.symm.trans hfree) (by decide)) hr
  · cases heq
    exact iff_of_true (respects_stay rfl rfl) (not_not.mp hr)

/-- A step treats the lock well unless it fails to list the static threads. -/
theorem respects_advance (hsane : sh.Sane b) (hk : pc.Knows b sh)
    (hlock : pc.inside = true → sh.gIfeLock = true) (h : advance b ans pc sh = some (pc', sh')) :
    Respects Shared.gIfeLock Pc.inside pc sh pc' sh' ↔ Listing b ans pc sh := by
  by_cases hpc : pc = .adding
  · subst hpc
    rw [respects_addThreads (hlock rfl) h]
    exact ⟨fun hzero _ => hzero, fun hlist => hlist rfl⟩
  refine iff_of_true ?_ fun hadd => absurd hadd hpc
  by_cases hsave : ∃ ptcs, pc = .savingTcs ptcs
  · obtain ⟨ptcs, rfl⟩ := hsave
    obtain ⟨hin, heq⟩ := inside_saveTcs h
    exact respects_stay hin.symm heq
  · exact (advances_advance hsane hk hpc (fun ptcs heq => hsave ⟨ptcs, heq⟩) h).respects

end Lock

section Once

/-- No static thread is listed twice. -/
def Shared.Once (sh : Shared) : Prop := ∀ tcs ∈ b.statics, sh.threads.count tcs ≤ 1

/-- A call that lists static threads finds none of them in the list. -/
def Fresh (ans : Answer) (pc : Pc) (sh : Shared) : Prop :=
  (pc = .adding → ∀ tcs ∈ b.statics, tcs ∉ sh.threads) ∧
    ∀ ptcs, pc = .savingTcs ptcs →
      (doSaveTcs ptcs (sh.saving ans)).map Prod.fst = some sgxSuccess →
        ptcs ∈ b.statics → ptcs ∉ sh.threads

instance (ans : Answer) (pc : Pc) (sh : Shared) : Decidable (Fresh b ans pc sh) :=
  match pc with
  | .savingTcs ptcs =>
    decidable_of_iff ((doSaveTcs ptcs (sh.saving ans)).map Prod.fst = some sgxSuccess →
      ptcs ∈ b.statics → ptcs ∉ sh.threads) (by simp [Fresh])
  | .adding => decidable_of_iff (b.statics.all (· ∉ sh.threads) = true) (by simp [Fresh])
  | .idle | .entering _ | .lockEnclave | .initialising | .doEcall _ | .firstCheck _ | .spinLock
  | .secondCheck | .protecting | .constructing | .constructed | .spinUnlock _ | .lookup | .running
  | .returned .. | .left .. | .addingThread _ | .trimming | .uninitLock | .uninitLocked
  | .uninitDone | .exiting _ | .exited _ => .isTrue (by simp [Fresh])

variable {b} {sh sh' : Shared} {pc pc' : Pc} {ans : Answer}

theorem once_addThreads (hcoded : Coded sh.gTcsCookie sh.gTcsNode)
    (hlist : (addStaticThreads b (sh.saving ans)).map Prod.fst = some 0)
    (h : addThreads b ans sh = some (pc', sh')) :
    sh'.Once b ↔ ∀ tcs ∈ b.statics, tcs ∉ sh.threads := by
  obtain ⟨⟨r, s'⟩, hrun, heq⟩ := map_eq_some_iff.mp h
  rw [hrun] at hlist
  cases hlist
  cases heq
  have hthreads := (wp_true_iff.mp (spec_addStaticThreads b hcoded) _ _ hrun).2 rfl
  refine forall₂_congr fun tcs htcs => ?_
  have hone : b.statics.count tcs = 1 := count_eq_one_of_mem b.nodup_statics htcs
  have hcount : (decoded s'.gTcsCookie s'.gTcsNode).count tcs = 1 + sh.threads.count tcs := by
    rw [hthreads, count_append, count_reverse]
    exact congrArg (· + _) hone
  rw [← count_eq_zero]
  change (decoded s'.gTcsCookie s'.gTcsNode).count tcs ≤ 1 ↔ _
  omega

theorem once_saveTcs {ptcs : UInt64} (hcoded : Coded sh.gTcsCookie sh.gTcsNode)
    (honce : sh.Once b) (h : saveTcs ptcs ans sh = some (pc', sh')) :
    sh'.Once b ↔ ((doSaveTcs ptcs (sh.saving ans)).map Prod.fst = some sgxSuccess →
      ptcs ∈ b.statics → ptcs ∉ sh.threads) := by
  obtain ⟨⟨status, s'⟩, hrun, heq⟩ := map_eq_some_iff.mp h
  have hsh : sh'.threads = decoded s'.gTcsCookie s'.gTcsNode := by
    split_ifs at heq
    · cases heq
      rfl
    · cases heq
      rfl
  have hthreads := (wp_true_iff.mp (spec_doSaveTcs ptcs hcoded) _ _ hrun).2
  rw [hrun, map_some, Option.some.injEq, Shared.Once, hsh, hthreads]
  by_cases hstatus : status = sgxSuccess
  · rw [if_pos hstatus]
    constructor
    · intro h' _ hmem
      have hle := h' ptcs hmem
      rw [count_cons_self] at hle
      rw [← count_eq_zero]
      exact Nat.le_zero.mp (Nat.le_of_succ_le_succ hle)
    · intro hfresh tcs htcs
      by_cases heq' : ptcs = tcs
      · subst heq'
        rw [count_cons_self]
        exact (Nat.succ_le_succ (count_eq_zero.mpr (hfresh hstatus htcs)).le)
      · rw [count_cons_of_ne heq']
        exact honce tcs htcs
  · rw [if_neg hstatus]
    exact iff_of_true honce fun h' => absurd h' hstatus

theorem once_advance (hsane : sh.Sane b) (hk : pc.Knows b sh) (honce : sh.Once b)
    (hlist : Listing b ans pc sh) (h : advance b ans pc sh = some (pc', sh')) :
    sh'.Once b ↔ Fresh b ans pc sh := by
  by_cases hadd : pc = .adding
  · subst hadd
    rw [once_addThreads hsane.1 (hlist rfl) h]
    exact ⟨fun hnot => ⟨fun _ => hnot, fun _ hpc => Pc.noConfusion hpc⟩, fun hf => hf.1 rfl⟩
  by_cases hsave : ∃ ptcs, pc = .savingTcs ptcs
  · obtain ⟨ptcs, rfl⟩ := hsave
    rw [once_saveTcs hsane.1 honce h]
    refine ⟨fun hnot => ⟨fun hpc => absurd hpc hadd, ?_⟩, fun hf => hf.2 ptcs rfl⟩
    rintro _ ⟨⟩
    exact hnot
  · have hsub := (advances_advance hsane hk hadd (fun ptcs hpc => hsave ⟨ptcs, hpc⟩) h).threads
    refine iff_of_true (fun tcs htcs => (hsub.count_le tcs).trans (honce tcs htcs)) ?_
    exact ⟨fun hpc => absurd hpc hadd, fun ptcs hpc => absurd ⟨ptcs, hpc⟩ hsave⟩

end Once

/-! ### Runs -/

section Runs

/-- What an ECALL has seen of the initialisation: all of it, or it has failed. -/
def Pc.Seen (sh : Shared) : Pc → Prop
  | .lookup | .running | .returned _ true | .left _ true => sh.Complete b
  | .returned status false | .left status false => status ≠ sgxSuccess
  | _ => True

/-- The lock is taken while a call is in a critical section and by nobody else, no static
thread is listed twice, and an ECALL sees the initialisation complete or fails. -/
structure Good (s : Threads ℕ Shared Pc) : Prop where
  lock : Exclusive Shared.gIfeLock Pc.inside s
  once : s.shared.Once b
  seen : ∀ t, (s.pc t).Seen b s.shared

/-- If the next step of a call lists static threads, it succeeds and finds none of them in
the list. -/
def Careful (s : Threads ℕ Shared Pc) (a : ℕ × Answer) : Prop :=
  Listing b a.2 (s.pc a.1) s.shared ∧ Fresh b a.2 (s.pc a.1) s.shared

instance (s : Threads ℕ Shared Pc) (a : ℕ × Answer) : Decidable (Careful b s a) :=
  inferInstanceAs (Decidable (Listing b a.2 (s.pc a.1) s.shared ∧ Fresh b a.2 (s.pc a.1) s.shared))

variable {b} {s s' : Threads ℕ Shared Pc} {a : ℕ × Answer}

theorem Pc.Knows.seen {sh : Shared} {pc : Pc} (h : pc.Knows b sh) : pc.Seen b sh := by
  cases pc with
  | returned status seen | left status seen => cases seen <;> exact h
  | lookup | running => exact h
  | _ => trivial

/-- What holds in every run. -/
def Reliable (b : Built) (s : Threads ℕ Shared Pc) : Prop :=
  s.shared.Sane b ∧ ∀ t, (s.pc t).Knows b s.shared

theorem reliable_step (hs : Reliable b s) (h : ecallStep b a s = some s') : Reliable b s' := by
  obtain ⟨pc, sh, hmove, rfl⟩ := step_eq_some.mp h
  have hgoes := goes_advance hs.1 (hs.2 a.1) hmove
  exact ⟨hgoes.sane, forall_put hs.2 hgoes.knows fun _ => Pc.Knows.mono hgoes.grows⟩

/-- **One step** from a good state leads to a good state just when it is careful. -/
theorem good_step_iff (hs : Reliable b s) (hgood : Good b s) (h : ecallStep b a s = some s') :
    Good b s' ↔ Careful b s a := by
  have hs' := reliable_step hs h
  obtain ⟨pc, sh, hmove, rfl⟩ := step_eq_some.mp h
  have hlock : (s.pc a.1).inside = true → s.shared.gIfeLock = true := fun hin =>
    hgood.lock.held.mpr ⟨a.1, hin⟩
  have hexcl := (exclusive_iff hgood.lock).trans (respects_advance hs.1 (hs.2 a.1) hlock hmove)
  constructor
  · intro hg
    have hlist := hexcl.mp hg.lock
    exact ⟨hlist, (once_advance hs.1 (hs.2 a.1) hgood.once hlist hmove).mp hg.once⟩
  · rintro ⟨hlist, hfresh⟩
    exact ⟨hexcl.mpr hlist, (once_advance hs.1 (hs.2 a.1) hgood.once hlist hmove).mpr hfresh,
      fun t => (hs'.2 t).seen⟩

theorem reliable_loaded : Reliable b loaded :=
  ⟨⟨fun _ => rfl, fun h => absurd h (by decide)⟩, fun _ => trivial⟩

theorem good_loaded : Good b loaded where
  lock := by
    refine ⟨iff_of_false Bool.false_ne_true ?_, fun t _ ht => absurd ht Bool.false_ne_true⟩
    rintro ⟨t, ht⟩
    exact absurd ht Bool.false_ne_true
  once _ _ := Nat.zero_le 1
  seen _ := trivial

/-- **The first ECALL.**  In a run of any calls, with any outcomes of what they call, all
states are good just when every step is careful. -/
theorem first_ecall_iff (b : Built) {l : List (ℕ × Answer)} {s : Threads ℕ Shared Pc}
    (h : run (ecallStep b) l loaded = some s) :
    (∀ pre t, pre <+: l → run (ecallStep b) pre loaded = some t → Good b t) ↔
      ∀ pre a t, pre ++ [a] <+: l → run (ecallStep b) pre loaded = some t → Careful b t a :=
  forall_reached_iff reliable_loaded good_loaded (fun _ _ _ hs => reliable_step hs)
    (fun _ _ _ hs hgood => good_step_iff hs hgood) h

/-- An enclave with three static threads. -/
def threeThreads : Built where
  edmmSupported := true
  enclaveBase := 0x7f0000000000
  metadata := threadTable
  valid := by decide +kernel
  paged := by
    intro e he _
    simp only [threadTable, mem_cons, Layout.entry.injEq, not_mem_nil, or_false,
      reduceCtorEq] at he
    rcases he with rfl | rfl
    · decide
    · decide

/-- Everything that is called succeeds. -/
def calm (cmd : Command) : Answer := ⟨cmd, true, sgxSuccess, [some 0xC0FFEE], [true, true, true]⟩

/-- The enclave is initialised by call 0; calls 1 and 2 are ECALLs that wait for the lock. -/
def bothWait : List (ℕ × Answer) :=
  List.replicate 5 (0, calm .initEnclave) ++ List.replicate 4 (1, calm (.ecall false)) ++
    List.replicate 4 (2, calm (.ecall false))

/-- Call 1 gets the lock and makes the initialisation; both calls return. -/
def bothReturn : List (ℕ × Answer) :=
  bothWait ++ List.replicate 10 (1, calm (.ecall false)) ++ List.replicate 6 (2, calm (.ecall false))

theorem first_ecall_iff_bothReturn :
    ∃ s, run (ecallStep threeThreads) bothReturn loaded = some s ∧
      s.pc 1 = .left sgxSuccess true ∧ s.pc 2 = .left sgxSuccess true ∧
      s.shared.threads = threeThreads.statics.reverse ∧
      ∀ pre t, pre <+: bothReturn → run (ecallStep threeThreads) pre loaded = some t →
        Good threeThreads t := by
  have hcareful : (run (only (Careful threeThreads) (ecallStep threeThreads)) bothReturn loaded).map
      (fun s => (s.pc 1, s.pc 2, s.shared.threads))
        = some (.left sgxSuccess true, .left sgxSuccess true, threeThreads.statics.reverse) := by
    decide +kernel
  obtain ⟨s, hs, heq⟩ := map_eq_some_iff.mp hcareful
  obtain ⟨hone, htwo, hlisted⟩ : _ ∧ _ ∧ _ := by simpa only [Prod.mk.injEq] using heq
  obtain ⟨hrun, hsteps⟩ := forall_of_run_only hs
  exact ⟨s, hrun, hone, htwo, hlisted, (first_ecall_iff threeThreads hrun).mpr hsteps⟩

/-- If there is no memory for the second node, call 1 returns with the lock, and call 2 waits
for ever. -/
def noMemory : List (ℕ × Answer) :=
  bothWait ++ List.replicate 2 (1, calm (.ecall false)) ++
    [(1, ⟨.ecall false, true, sgxSuccess, [some 0xC0FFEE], [true, false]⟩), (1, calm (.ecall false))]

/-- If the protection of the pages cannot be changed, call 1 fails, and call 2 lists the
threads once more. -/
def noProtection : List (ℕ × Answer) :=
  bothWait ++ List.replicate 3 (1, calm (.ecall false)) ++
    List.replicate 3 (1, ⟨.ecall false, true, 0x4004, [], []⟩) ++
    List.replicate 8 (2, calm (.ecall false))

/-- **The first ECALL fails.** -/
theorem first_ecall_fails :
    (∃ s, run (ecallStep threeThreads) noMemory loaded = some s ∧
      s.pc 1 = .left sgxErrorUnexpected false ∧ s.shared.gIfeLock = true ∧
      ∀ ans, ecallStep threeThreads (2, ans) s = none) ∧
    ∃ s, run (ecallStep threeThreads) noProtection loaded = some s ∧
      s.pc 1 = .left 0x4004 false ∧ s.pc 2 = .running ∧
      0x7f0000015000 ∈ threeThreads.statics ∧ s.shared.threads.count 0x7f0000015000 = 2 := by
  have hmemory : (run (ecallStep threeThreads) noMemory loaded).map
      (fun s => (s.pc 1, s.pc 2, s.shared.gIfeLock))
        = some (.left sgxErrorUnexpected false, .spinLock, true) := by decide +kernel
  have hprotection : (run (ecallStep threeThreads) noProtection loaded).map
      (fun s => (s.pc 1, s.pc 2, s.shared.threads.count 0x7f0000015000))
        = some (.left 0x4004 false, .running, 2) := by decide +kernel
  constructor
  · obtain ⟨s, hs, heq⟩ := map_eq_some_iff.mp hmemory
    obtain ⟨hone, htwo, hlock⟩ : _ ∧ _ ∧ _ := by simpa only [Prod.mk.injEq] using heq
    refine ⟨s, hs, hone, hlock, fun ans => ?_⟩
    change (advance threeThreads ans (s.pc 2) s.shared).map _ = none
    rw [htwo, advance, if_pos hlock, map_none]
  · obtain ⟨s, hs, heq⟩ := map_eq_some_iff.mp hprotection
    obtain ⟨hone, htwo, hcount⟩ : _ ∧ _ ∧ _ := by simpa only [Prod.mk.injEq] using heq
    exact ⟨s, hs, hone, htwo, by decide +kernel, hcount⟩

end Runs

end Trts
