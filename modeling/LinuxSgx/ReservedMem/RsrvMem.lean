/-
Reserved memory (`sgx_rsrv_mem.cpp`).

The public calls work on the list of descriptors and on the pages themselves.
`epcm` holds the permissions the processor keeps for each page, and `accepted`
records the pages that were EACCEPTed after an EAUG, in order.  EMODPR, which
the host carries out on request, intersects the permissions of a page and EMODPE
unites them.

The environment answers each page operation from `pageOps`.  `apply_EPC_pages`
may be refused, because `check_dynamic_range` finds the range in no entry of the
layout table; every other failure ends the enclave by `abort()`, which a call
reports as `aborted`.
-/
import LinuxSgx.ReservedMem.Vrd

namespace ReservedMem

/-- The outcome of a page operation. -/
inductive PageOutcome
  | ok | refused | fault
deriving DecidableEq, Repr

/-- The permission bits `SI_FLAG_R`, `SI_FLAG_W` and `SI_FLAG_X`. -/
structure SiPerms where
  r : Bool
  w : Bool
  x : Bool
deriving DecidableEq, Repr

namespace SiPerms

def none : SiPerms := ⟨false, false, false⟩
def rw : SiPerms := ⟨true, true, false⟩
def rwx : SiPerms := ⟨true, true, true⟩

def inter (p q : SiPerms) : SiPerms := ⟨p.r && q.r, p.w && q.w, p.x && q.x⟩

def union (p q : SiPerms) : SiPerms := ⟨p.r || q.r, p.w || q.w, p.x || q.x⟩

end SiPerms

def convertSiFlagsToProtect (si : SiPerms) : Protect :=
  match si.r, si.w, si.x with
  | true, false, false => .readonly
  | true, true, false => .readwrite
  | true, false, true => .executeRead
  | true, true, true => .executeReadwrite
  | false, false, false => .noaccess
  | _, _, _ => .unset

/-- The state of the reserved memory and of its pages. -/
structure St where
  vmm : Vmm
  firstAlloc : Bool
  rsrvMemCommitted : ℕ
  peakRsrvMemCommitted : ℕ
  epcm : ℕ → SiPerms
  accepted : List ℕ
  pageOps : ℕ → PageOutcome
  pageOpCount : ℕ

/-- The state when the enclave has been loaded: the pages up to the minimal size
are there, readable and writable. -/
structure St.Initial (c : Config) (s : St) : Prop where
  vmm : s.vmm = Vmm.init s.vmm.mallocs
  firstAlloc : s.firstAlloc = true
  committed : s.rsrvMemCommitted = 0
  accepted : s.accepted = []
  epcm : ∀ p, c.rsrvBase ≤ p → p < c.rsrvBase + c.rsrvMinSize → s.epcm p = .rw

/-- A call returns, or the enclave is aborted. -/
inductive Ret (α : Type)
  | done (a : α)
  | aborted
deriving DecidableEq, Repr

inductive Errno
  | eperm | einval | enomem
deriving DecidableEq, Repr

/-- Run a function of `mm_vrd.cpp`. -/
def vmm {α : Type} (m : Prog Vmm α) : Prog St α :=
  Prog.zoom St.vmm (fun v s => { s with vmm := v }) m

/-! ### Page operations -/

section Pages

def nextPageOp : Prog St PageOutcome := do
  let s ← get
  set { s with pageOpCount := s.pageOpCount + 1 }
  pure (s.pageOps s.pageOpCount)

/-- EACCEPT of a page that the host has added: it becomes readable and writable. -/
def eacceptPending (p : ℕ) : Prog St Bool := do
  if (← nextPageOp) = .ok then do
    modify fun s =>
      { s with
        accepted := s.accepted ++ [p]
        epcm := fun q => if p ≤ q ∧ q < p + 4096 then .rw else s.epcm q }
    pure true
  else pure false

/-- The pages of a range, by their first address. -/
def pagesFrom (start : ℕ) : ℕ → List ℕ
  | 0 => []
  | n + 1 => start :: pagesFrom (start + 4096) n

/-- `apply_EPC_pages`: 0 is success.  The pages of the reserved memory do not
grow down, so they are accepted from the last one to the first. -/
def applyEpcPages (start pageCount : ℕ) : Prog St (Ret Bool) := do
  if start = 0 then pure (.done false)
  else if (← nextPageOp) = .refused then pure (.done false)
  else
    if ← Prog.forAll eacceptPending (pagesFrom start pageCount).reverse then pure (.done true)
    else pure .aborted

/-- EMODPR or EMODPE of the pages in a range. -/
def modifyEpcm (start size : ℕ) (f : SiPerms → SiPerms) : Prog St Unit :=
  modify fun s =>
    { s with epcm := fun p => if start ≤ p ∧ p < start + size then f (s.epcm p) else s.epcm p }

/-- The OCALL that restricts permissions; with all of them there is nothing to
restrict.  The result tells whether it succeeded. -/
def changePermissionsOcall (start size : ℕ) (perms : SiPerms) : Prog St Bool := do
  if (← nextPageOp) = .ok then do
    if perms = .rwx then pure () else modifyEpcm start size fun p => p.inter perms
    pure true
  else pure false

/-- EACCEPT of a page whose permissions were changed: the processor compares
them with the ones expected. -/
def eacceptModified (perms : SiPerms) (p : ℕ) : Prog St Bool := do
  let o ← nextPageOp
  pure (o = .ok ∧ (← get).epcm p = perms)

end Pages

/-! ### Allocation -/

section Alloc

/-- The answer 0 is `none`. -/
def initRsrvMemVrd (c : Config) : Prog Vmm (Option Errno) := do
  if ← initVrdl then
    match ← insertVrd c c.enclaveBase c.rsrvOffset .noaccess .locked .reg with
    | .ok _ => pure none
    | .error .outOfMemory => pure (some .enomem)
    | .error _ => pure (some .einval)
  else pure (some .enomem)

/-- The pages to be accepted when `committed` grows from `prev`: where they start
and how many bytes they are. -/
def newPages (c : Config) (prev committed offset : ℕ) : ℕ × ℕ :=
  if c.rsrvMinSize < prev then (c.rsrvBase + prev, (offset + 4095) / 4096 * 4096)
  else (c.rsrvBase + c.rsrvMinSize, committed - c.rsrvMinSize)

/-- Move the mark of committed memory past the new range, accepting pages. -/
def commitUpTo (c : Config) (start length : ℕ) : Prog St (Ret Bool) := do
  let s ← get
  if c.rsrvBase + s.rsrvMemCommitted < start + length then do
    let prev := s.rsrvMemCommitted
    let offset := start + length - (c.rsrvBase + prev)
    let committed := prev + (offset + 4095) / 4096 * 4096
    set { s with rsrvMemCommitted := committed }
    if c.edmm ∧ c.rsrvBase + c.rsrvMinSize < start + length then
      match ← applyEpcPages (newPages c prev committed offset).1
          ((newPages c prev committed offset).2 / 4096) with
      | .aborted => pure .aborted
      | .done true => pure (.done true)
      | .done false => do
        modify fun s => { s with rsrvMemCommitted := prev }
        pure (.done false)
    else pure (.done true)
  else pure (.done true)

/-- The arguments of an allocation are accepted. -/
def allocArgs (c : Config) (desired length : ℕ) : Option Errno :=
  if c.rsrvSize = 0 then some .eperm
  else if desired % 4096 ≠ 0 ∨ length = 0 ∨ length % 4096 ≠ 0 ∨ c.rsrvSize < length then
    some .einval
  else if desired ≠ 0 ∧ (lastOf desired length < desired ∨ lastOf desired length < length ∨
      lastOf c.rsrvBase c.rsrvSize < lastOf desired length ∨ desired < c.rsrvBase) then
    some .einval
  else none

/-- Initialise the list of descriptors at the first allocation. -/
def firstInit (c : Config) : Prog St (Option Errno) := do
  if (← get).firstAlloc then
    match ← vmm (initRsrvMemVrd c) with
    | some e => pure (some e)
    | none => do
      modify fun s => { s with firstAlloc := false }
      pure none
  else pure none

/-- What follows the insertion of a descriptor. -/
def finishAlloc (c : Config) (a : Addr) (length : ℕ) : Prog St (Ret (Except Errno ℕ)) := do
  let nd ← vmm (node a)
  let start := nd.val.startAddr
  if 2 ^ 64 - 1 - length < start ∨ c.rsrvEnd < start + length then do
    vmm (removeVrd a)
    pure (.done (.error .enomem))
  else
    match ← commitUpTo c start length with
    | .aborted => pure .aborted
    | .done false => do
      vmm (removeVrd a)
      pure (.done (.error .enomem))
    | .done true => do
      modify fun s =>
        { s with peakRsrvMemCommitted := max s.peakRsrvMemCommitted s.rsrvMemCommitted }
      vmm (combineVrds start (lastOf start length))
      pure (.done (.ok start))

/-- The value is the address, or the `errno` of a null result. -/
def sgxAllocRsrvMemEx (c : Config) (desiredAddr length : UInt64) :
    Prog St (Ret (Except Errno ℕ)) := do
  match allocArgs c desiredAddr.toNat length.toNat with
  | some e => pure (.done (.error e))
  | none =>
    match ← firstInit c with
    | some e => pure (.done (.error e))
    | none => do
      let perms : Protect :=
        if !c.edmm && c.rsrvExecutable then .executeReadwrite else .readwrite
      match ← vmm (insertVrd c desiredAddr.toNat length.toNat perms .committed .reg) with
      | .error .outOfMemory => pure (.done (.error .enomem))
      | .error _ => pure (.done (.error .einval))
      | .ok a => finishAlloc c a length.toNat

end Alloc

/-! ### Permissions -/

section Protection

/-- The host restricts the permissions, if anything is to change. -/
def restrictPages (start size : ℕ) (perms : SiPerms) (needed : Bool) : Prog St Bool :=
  if needed then changePermissionsOcall start size perms else pure true

def emodpePages (start size : ℕ) (perms : SiPerms) (pe : Bool) : Prog St Unit :=
  if pe then modifyEpcm start size fun p => p.union perms else pure ()

/-- There is nothing to accept when all permissions were asked for. -/
def acceptModifiedPages (start size : ℕ) (perms : SiPerms) (pr : Bool) : Prog St Bool :=
  if pr ∧ ¬(perms.w ∧ perms.x) then
    Prog.forAll (eacceptModified perms) (pagesFrom start (size / 4096))
  else pure true

/-- The last OCALL only changes the host's page tables. -/
def mprotectNone (perms : SiPerms) (pr : Bool) : Prog St Bool :=
  if pr ∧ perms = .none then do
    let o ← nextPageOp
    pure (o = .ok)
  else pure true

def tprotectInternal (start size : ℕ) (perms : SiPerms) : Prog St (Ret SgxStatus) := do
  if start % 4096 ≠ 0 ∨ size = 0 ∨ size % 4096 ≠ 0 then pure (.done .invalidParameter)
  else
    match ← vmm (checkVrdsPrPeNeeded start (wrap (start + size))
        (convertSiFlagsToProtect perms)) with
    | none => pure (.done .unexpected)
    | some (pr, pe) => do
      if ← restrictPages start size perms (pr || pe) then do
        emodpePages start size perms pe
        if ← acceptModifiedPages start size perms pr then
          if ← mprotectNone perms pr then pure (.done .success) else pure .aborted
        else pure .aborted
      else pure .aborted

/-- The bits of the `prot` argument. -/
structure Prot where
  read : Bool
  write : Bool
  exec : Bool
  /-- Some other bit is set. -/
  other : Bool
deriving DecidableEq, Repr

def Prot.perms (p : Prot) : SiPerms := ⟨p.read, p.write, p.exec⟩

def sgxIsWithinEnclave (c : Config) (addr size : ℕ) : Bool :=
  let fin := if 0 < size then lastOf addr size else addr
  addr ≤ fin ∧ c.elrangeBase ≤ addr ∧ fin ≤ lastOf c.elrangeBase c.elrangeSize

/-- Without EDMM nothing is changed, only the request is checked. -/
def tprotectWithoutEdmm (addr : ℕ) (prot : Prot) : Prog St (Ret SgxStatus) := do
  let perms ← match ← vmm (findVrd addr) with
    | none => pure .unset
    | some a => do
      let nd ← vmm (node a)
      pure nd.val.perms
  if perms = .noaccess ∨ perms = .readwrite ∧ prot.exec then pure (.done .invalidParameter)
  else pure (.done .success)

/-- Set the new permissions in the descriptors. -/
def finishProtect (addr endAddr : ℕ) (perms : SiPerms) : Prog Vmm SgxStatus := do
  if ← setPerms addr endAddr (convertSiFlagsToProtect perms) then do
    combineVrds addr endAddr
    pure .success
  else pure .unexpected

def tprotectVrds (addr len : ℕ) (perms : SiPerms) : Prog St (Ret SgxStatus) := do
  let endAddr := lastOf addr len
  match ← vmm (findVrd addr) with
  | none => pure (.done .invalidParameter)
  | some _ => do
    if ← vmm (splitVrdsIfNeeded addr endAddr) then
      match ← vmm (findVrd addr) with
      | none => pure (.done .unexpected)
      | some _ => do
        if ← vmm (checkVrdsPagetype addr endAddr .reg) then
          match ← tprotectInternal addr len perms with
          | .done .success => do
            let r ← vmm (finishProtect addr endAddr perms)
            pure (.done r)
          | r => pure r
        else pure (.done .invalidParameter)
    else pure (.done .outOfMemory)

def sgxTprotectRsrvMem (c : Config) (addr len : UInt64) (prot : Prot) :
    Prog St (Ret SgxStatus) := do
  if !c.edmm then tprotectWithoutEdmm addr.toNat prot
  else if !sgxIsWithinEnclave c addr.toNat len.toNat then pure (.done .invalidParameter)
  else if !c.sdkSince23 then pure (.done .updateNeeded)
  else if c.rsrvSize = 0 ∨ addr.toNat < c.rsrvBase ∨ addr.toNat % 4096 ≠ 0 ∨ len.toNat < 4096 ∨
      len.toNat % 4096 ≠ 0 then pure (.done .invalidParameter)
  else if (!prot.read && (prot.write || prot.exec)) || prot.other then
    pure (.done .invalidParameter)
  else tprotectVrds addr.toNat len.toNat prot.perms

end Protection

/-! ### Freeing -/

section Free

/-- The arguments of `sgx_free_rsrv_mem` are accepted. -/
def freeArgs (c : Config) (addr length : ℕ) : Bool :=
  ¬(c.rsrvSize = 0 ∨ addr = 0 ∨ addr % 4096 ≠ 0 ∨ length = 0 ∨ length % 4096 ≠ 0 ∨
    ¬sgxIsWithinEnclave c addr length ∨ addr < c.rsrvBase ∨ 2 ^ 64 - 1 - length < addr ∨
    c.rsrvEnd < addr + length)

/-- With EDMM the pages are made readable and writable again. -/
def resetPerms (c : Config) (addr length : ℕ) : Prog St (Ret SgxStatus) :=
  if c.edmm then tprotectInternal addr length .rw else pure (.done .success)

/-- Reset the permissions and remove the descriptors; what `free_vrds` says is
not looked at. -/
def unmap (c : Config) (addr length : ℕ) : Prog St (Ret Bool) := do
  match ← resetPerms c addr length with
  | .aborted => pure .aborted
  | .done .success => do
    let _ ← vmm (freeVrds addr (lastOf addr length))
    pure (.done true)
  | .done _ => pure (.done false)

/-- The result 0 is `true`, -1 is `false`.  The call goes on when splitting failed. -/
def freeMapped (c : Config) (addr length : ℕ) : Prog St (Ret Bool) := do
  let endAddr := lastOf addr length
  if ← vmm (splitVrdsIfNeeded addr endAddr) then
    if (← vmm (findVrd addr)) = none then failure
    else unmap c addr length
  else unmap c addr length

def sgxFreeRsrvMem (c : Config) (addr length : UInt64) : Prog St (Ret Bool) := do
  if freeArgs c addr.toNat length.toNat then
    match ← vmm (findVrd addr.toNat) with
    | none => pure (.done false)
    | some _ => freeMapped c addr.toNat length.toNat
  else pure (.done false)

end Free

/-! ### Runs -/

/-- A call of the public interface. -/
inductive Call
  | alloc (desiredAddr length : UInt64)
  | free (addr length : UInt64)
  | tprotect (addr len : UInt64) (prot : Prot)

/-- One call; the result tells whether it returned. -/
def Call.run (c : Config) : Call → Prog St Bool
  | .alloc d n => do
    let r ← sgxAllocRsrvMemEx c d n
    pure (r ≠ .aborted)
  | .free a n => do
    let r ← sgxFreeRsrvMem c a n
    pure (r ≠ .aborted)
  | .tprotect a n p => do
    let r ← sgxTprotectRsrvMem c a n p
    pure (r ≠ .aborted)

/-- The states between calls. -/
inductive Reaches (c : Config) : St → Prop
  | init {s : St} (h : s.Initial c) : Reaches c s
  | step {s s' : St} (h : Reaches c s) (k : Call) (hk : k.run c s = some (true, s')) :
      Reaches c s'

end ReservedMem
