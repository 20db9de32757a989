/-
The list of virtual region descriptors (`mm_vrd.cpp`).

Reserved memory is managed by a doubly linked list of `vrd_t`, sorted by address,
and a free list of spare descriptors.  The descriptors live in a heap of cells;
pointers are addresses of that heap and following one that is not allocated has
no outcome, as has `abort()`, which these functions only call when the list is
corrupt.  Loops that follow pointers carry a bound on the number of cells, so
that a cyclic list would have no outcome either.

`malloc` takes its answers from `mallocs`, one for each call, and hands out
addresses that were never used before.  The check of `find_vrd` that a descriptor
lies in the enclave's heap is left out: every one does, having come from `malloc`.
-/
import LinuxSgx.Lib.Dll
import LinuxSgx.Lib.Prog

namespace ReservedMem

open Dll (Cell)

/-- Addresses and sizes are 64-bit words. -/
def wrap (x : ℕ) : ℕ := x % 2 ^ 64

/-- The last address of a range, `start + size - 1` in 64-bit arithmetic. -/
def lastOf (start size : ℕ) : ℕ := wrap (start + size + (2 ^ 64 - 1))

inductive VrdState
  | free | reserved | reservedSystem | committed | committedSystem | locked
deriving DecidableEq, Repr

inductive VrdPt
  | none | reg | tcs | trim
deriving DecidableEq, Repr

/-- The `SGX_PAGE_*` protections; `unset` is the 0 that stands for none of them. -/
inductive Protect
  | unset | noaccess | readonly | readwrite | executeRead | executeReadwrite
deriving DecidableEq, Repr

/-- The number of a protection, which the source compares. -/
def Protect.code : Protect → ℕ
  | unset => 0
  | noaccess => 0x01
  | readonly => 0x02
  | readwrite => 0x04
  | executeRead => 0x20
  | executeReadwrite => 0x40

inductive SgxStatus
  | success | unexpected | invalidParameter | outOfMemory | updateNeeded
deriving DecidableEq, Repr

/-- What a descriptor says about its pages. -/
structure VrdAttrs where
  flags : ℕ
  state : VrdState
  perms : Protect
  pageType : VrdPt
deriving DecidableEq, Repr

structure Vrd extends VrdAttrs where
  startAddr : ℕ
  size : ℕ
deriving DecidableEq, Repr

/-- `start_addr + size`. -/
def Vrd.stop (v : Vrd) : ℕ := wrap (v.startAddr + v.size)

/-- The bytes that `free_list_put_vrd` leaves. -/
def Vrd.zero : Vrd := ⟨⟨0, .free, .unset, .none⟩, 0, 0⟩

abbrev Addr := ℕ

/-- The globals of `mm_vrd.cpp`, the heap they point into, and the answers of
`malloc`. -/
structure Vmm where
  heap : Dll.Heap Vrd
  nextAddr : Addr
  vrdl : Option Addr
  freeList : Option Addr
  freeListCount : ℕ
  mallocs : ℕ → Bool
  mallocCount : ℕ

/-- The state before the first call. -/
def Vmm.init (mallocs : ℕ → Bool) : Vmm := ⟨fun _ => none, 0, none, none, 0, mallocs, 0⟩

/-- The region of the enclave that is managed.  The bounds are what the loader
and `rsrv_mem_init` establish: the reserved memory follows the rest of the image,
inside the enclave's range of addresses, on page boundaries. -/
structure Config where
  /-- Where the image is loaded. -/
  enclaveBase : ℕ
  rsrvOffset : ℕ
  rsrvSize : ℕ
  rsrvMinSize : ℕ
  /-- The range of addresses of the enclave. -/
  elrangeBase : ℕ
  elrangeSize : ℕ
  edmm : Bool
  rsrvExecutable : Bool
  /-- Whether `g_sdk_version` is at least `SDK_VERSION_2_3`. -/
  sdkSince23 : Bool
  base_pos : 0 < enclaveBase
  offset_pos : 0 < rsrvOffset
  base_aligned : 4096 ∣ enclaveBase
  offset_aligned : 4096 ∣ rsrvOffset
  size_aligned : 4096 ∣ rsrvSize
  min_aligned : 4096 ∣ rsrvMinSize
  min_le : rsrvMinSize ≤ rsrvSize
  elrange_le : elrangeBase ≤ enclaveBase
  rsrv_le : enclaveBase + rsrvOffset + rsrvSize ≤ elrangeBase + elrangeSize
  elrange_lt : elrangeBase + elrangeSize < 2 ^ 64

namespace Config

variable (c : Config)

def rsrvBase : ℕ := c.enclaveBase + c.rsrvOffset

def rsrvEnd : ℕ := c.rsrvBase + c.rsrvSize

end Config

/-! ### Cells -/

section Cells

/-- Follow a pointer. -/
def node (a : Addr) : Prog Vmm (Cell Vrd) := do
  match (← get).heap a with
  | some n => pure n
  | none => failure

def writeNode (a : Addr) (f : Cell Vrd → Cell Vrd) : Prog Vmm Unit := do
  let n ← node a
  modify fun s => { s with heap := Function.update s.heap a (some (f n)) }

def writeVrd (a : Addr) (f : Vrd → Vrd) : Prog Vmm Unit :=
  writeNode a fun n => { n with val := f n.val }

/-- `if (p) p->next = x`. -/
def setNextOf (p x : Option Addr) : Prog Vmm Unit :=
  match p with
  | none => pure ()
  | some a => writeNode a fun n => { n with next := x }

/-- `if (p) p->prev = x`. -/
def setPrevOf (p x : Option Addr) : Prog Vmm Unit :=
  match p with
  | none => pure ()
  | some a => writeNode a fun n => { n with prev := x }

/-- `if (!p) g_vrdl = x else p->next = x`. -/
def setNextOrHead (p x : Option Addr) : Prog Vmm Unit :=
  match p with
  | none => modify fun s => { s with vrdl := x }
  | some a => setNextOf (some a) x

/-- `!p || p->next == a`. -/
def nextIs (p : Option Addr) (a : Addr) : Prog Vmm Bool :=
  match p with
  | none => pure true
  | some q => do
    let n ← node q
    pure (n.next = some a)

/-- `!p || p->prev == a`. -/
def prevIs (p : Option Addr) (a : Addr) : Prog Vmm Bool :=
  match p with
  | none => pure true
  | some q => do
    let n ← node q
    pure (n.prev = some a)

def malloc : Prog Vmm (Option Addr) := do
  let s ← get
  if s.mallocs s.mallocCount then do
    set { s with
      heap := Function.update s.heap s.nextAddr (some ⟨Vrd.zero, none, none⟩)
      nextAddr := s.nextAddr + 1
      mallocCount := s.mallocCount + 1 }
    pure (some s.nextAddr)
  else do
    set { s with mallocCount := s.mallocCount + 1 }
    pure none

def free (a : Addr) : Prog Vmm Unit := do
  let _ ← node a
  modify fun s => { s with heap := Function.update s.heap a none }

end Cells

/-! ### The free list -/

section FreeList

def lowThreshold : ℕ := 4
def allocTarget : ℕ := 16
def highThreshold : ℕ := 32

def freeListPutVrd : Option Addr → Prog Vmm Bool
  | none => pure false
  | some a => do
    let s ← get
    writeNode a fun _ => ⟨Vrd.zero, s.freeList, none⟩
    modify fun s => { s with freeList := some a, freeListCount := s.freeListCount + 1 }
    pure true

def freeListGetVrd : Prog Vmm (Option Addr) := do
  let s ← get
  if s.freeListCount = 0 then pure none
  else match s.freeList with
    | none => failure
    | some a => do
      let n ← node a
      modify fun s => { s with freeList := n.next, freeListCount := s.freeListCount - 1 }
      pure (some a)

/-- Refill up to the target while `malloc` succeeds. -/
def freeListRefill : ℕ → Prog Vmm Unit
  | 0 => pure ()
  | n + 1 => do
    if (← get).freeListCount < allocTarget then
      if ← freeListPutVrd (← malloc) then freeListRefill n else pure ()
    else pure ()

/-- Release down to the target. -/
def freeListTrim : ℕ → Prog Vmm Unit
  | 0 => pure ()
  | n + 1 => do
    if allocTarget < (← get).freeListCount then
      match ← freeListGetVrd with
      | none => pure ()
      | some a => do
        free a
        freeListTrim n
    else pure ()

def freeListCheckLevel : Prog Vmm Unit := do
  let s ← get
  if lowThreshold ≤ s.freeListCount ∧ s.freeListCount ≤ highThreshold then pure ()
  else do
    freeListRefill allocTarget
    freeListTrim (← get).freeListCount

/-- A spare descriptor, refilling the free list if it is empty. -/
def getVrd : Prog Vmm (Option Addr) := do
  match ← freeListGetVrd with
  | some a => pure (some a)
  | none => do
    freeListCheckLevel
    freeListGetVrd

/-- The clean-up of `init_vrdl`: it leaves the counter as it is. -/
def releaseFreeList : ℕ → Prog Vmm Unit
  | 0 => do if (← get).freeList.isSome then failure else pure ()
  | n + 1 => do
    match (← get).freeList with
    | none => pure ()
    | some a => do
      let nd ← node a
      modify fun s => { s with freeList := nd.next }
      free a
      releaseFreeList n

def initFill : ℕ → Prog Vmm Bool
  | 0 => pure true
  | n + 1 => do
    if (← get).freeListCount < highThreshold then
      if ← freeListPutVrd (← malloc) then initFill n
      else do
        releaseFreeList (← get).nextAddr
        pure false
    else pure true

def initVrdl : Prog Vmm Bool := do
  let s ← get
  if s.vrdl.isSome ∨ s.freeList.isSome then pure false
  else do
    modify fun s => { s with freeListCount := 0 }
    initFill highThreshold

end FreeList

/-! ### Lookup -/

section Lookup

def addrInVrd (vaddr : ℕ) (v : Vrd) : Bool := v.startAddr ≤ vaddr ∧ vaddr < v.stop

/-- The ranges overlap; the first one is given by its first and last address. -/
def addrsInVrd (vaddrStart vaddrEnd : ℕ) (v : Vrd) : Bool :=
  ¬(vaddrEnd < v.startAddr ∨ v.stop ≤ vaddrStart)

def findVrdFrom (vaddr : ℕ) : ℕ → Option Addr → Prog Vmm (Option Addr)
  | _, none => pure none
  | 0, some _ => failure
  | n + 1, some a => do
    let nd ← node a
    if addrInVrd vaddr nd.val then pure (some a) else findVrdFrom vaddr n nd.next

def findVrd (vaddr : ℕ) : Prog Vmm (Option Addr) := do
  let s ← get
  findVrdFrom vaddr s.nextAddr s.vrdl

/-- The loop of `vrd_alloc_addr`; 0 is no address. -/
def vrdAllocAddrFrom (c : Config) (size : ℕ) : ℕ → ℕ → Option Addr → Prog Vmm ℕ
  | _, addr, none =>
    if wrap (lastOf c.rsrvBase c.rsrvSize + 1) < addr then failure
    else if size ≤ wrap (lastOf c.rsrvBase c.rsrvSize + 1) - addr then pure addr
    else pure 0
  | 0, _, some _ => failure
  | n + 1, addr, some a => do
    let nd ← node a
    if addr < nd.val.startAddr ∧ size ≤ nd.val.startAddr - addr then pure addr
    else vrdAllocAddrFrom c size n nd.val.stop nd.next

def vrdAllocAddr (c : Config) (size : ℕ) : Prog Vmm ℕ := do
  let s ← get
  vrdAllocAddrFrom c size s.nextAddr c.rsrvBase s.vrdl

end Lookup

/-! ### Insertion and removal -/

section Insertion

/-- Link descriptor `a` in before `cur`. -/
def linkBefore (a cur : Addr) : Prog Vmm Bool := do
  let nd ← node cur
  if ← nextIs nd.prev cur then do
    writeNode a fun n => { n with prev := nd.prev, next := some cur }
    setNextOf nd.prev (some a)
    setPrevOf (some cur) (some a)
    pure true
  else pure false

/-- Link descriptor `a` in at the end, after `prev`. -/
def linkLast (a : Addr) (prev : Option Addr) : Prog Vmm Unit := do
  match (← get).vrdl with
  | none => do
    modify fun s => { s with vrdl := some a }
    writeNode a fun n => { n with prev := none, next := none }
  | some _ => do
    writeNode a fun n => { n with next := none, prev := prev }
    match prev with
    | none => failure
    | some p => setNextOf (some p) (some a)

/-- The loop of `insert_vrd`.  The result is the status left in `error`, with
`success` for an inserted descriptor. -/
def insertFrom (a : Addr) (startAddr size endAddr : ℕ) :
    ℕ → Option Addr → Option Addr → Prog Vmm SgxStatus
  | _, prev, none => do
    linkLast a prev
    pure .success
  | 0, _, some _ => failure
  | n + 1, _, some cur => do
    let nd ← node cur
    if addrsInVrd startAddr endAddr nd.val then pure .invalidParameter
    else if wrap (startAddr + size) < startAddr then failure
    else if lastOf startAddr size < nd.val.startAddr then do
      if ← linkBefore a cur then pure .success else pure .unexpected
    else insertFrom a startAddr size endAddr n (some cur) nd.next

/-- Write descriptor `a` and link it in; on an error it goes back to the free list. -/
def insertAt (a : Addr) (addr size : ℕ) (attrs : VrdAttrs) : Prog Vmm (Except SgxStatus Addr) := do
  writeVrd a fun _ => ⟨attrs, addr, size⟩
  let s ← get
  match ← insertFrom a addr size (lastOf addr size) s.nextAddr none s.vrdl with
  | .success => pure (.ok a)
  | e => do
    let _ ← freeListPutVrd (some a)
    pure (.error e)

/-- `start_addr`, or a free address if it is 0. -/
def chooseAddr (c : Config) (startAddr size : ℕ) : Prog Vmm ℕ :=
  if startAddr = 0 then vrdAllocAddr c size else pure startAddr

def insertVrd (c : Config) (startAddr size : ℕ) (perms : Protect) (state : VrdState)
    (pageType : VrdPt) : Prog Vmm (Except SgxStatus Addr) := do
  let addr ← chooseAddr c startAddr size
  if addr = 0 ∨ addr < c.enclaveBase ∨ lastOf c.rsrvBase c.rsrvSize < lastOf addr size ∨
      lastOf addr size < addr then
    pure (.error .invalidParameter)
  else
    match ← getVrd with
    | none => pure (.error .outOfMemory)
    | some a => insertAt a addr size ⟨0, state, perms, pageType⟩

def removeVrd (a : Addr) : Prog Vmm Unit := do
  let nd ← node a
  let backOk ← nextIs nd.prev a
  let forthOk ← prevIs nd.next a
  if backOk ∧ forthOk then do
    setNextOrHead nd.prev nd.next
    setPrevOf nd.next nd.prev
    let _ ← freeListPutVrd (some a)
    pure ()
  else failure

end Insertion

/-! ### Splitting and combining -/

section Splitting

/-- `a - b` in 64-bit arithmetic. -/
def sub64 (a b : ℕ) : ℕ := wrap (a + 2 ^ 64 - b)

/-- The part of a descriptor before `startAddr`. -/
def Vrd.before (v : Vrd) (startAddr : ℕ) : Vrd := { v with size := sub64 startAddr v.startAddr }

/-- The part of a descriptor from `startAddr` on. -/
def Vrd.after (v : Vrd) (startAddr : ℕ) : Vrd :=
  { v with startAddr := startAddr, size := sub64 v.size (v.before startAddr).size }

/-- The part of a descriptor after `endAddr`. -/
def Vrd.beyond (v : Vrd) (endAddr : ℕ) : Vrd :=
  { v with startAddr := wrap (endAddr + 1), size := sub64 (lastOf v.startAddr v.size) endAddr }

/-- The part of a descriptor up to `endAddr`. -/
def Vrd.upTo (v : Vrd) (endAddr : ℕ) : Vrd :=
  { v with size := sub64 v.size (v.beyond endAddr).size }

/-- Cut descriptor `a` at `startAddr`; the new descriptor `b` takes the first part. -/
def splitBefore (a b : Addr) (startAddr : ℕ) : Prog Vmm Unit := do
  let nd ← node a
  if ← nextIs nd.prev a then do
    setNextOrHead nd.prev (some b)
    writeNode b fun _ => ⟨nd.val.before startAddr, some a, nd.prev⟩
    writeNode a fun n => { n with prev := some b, val := n.val.after startAddr }
  else failure

/-- Cut descriptor `a` after `endAddr`; the new descriptor `b` takes the second part. -/
def splitAfter (a b : Addr) (endAddr : ℕ) : Prog Vmm Unit := do
  let nd ← node a
  if ← prevIs nd.next a then do
    setPrevOf nd.next (some b)
    writeNode b fun _ => ⟨nd.val.beyond endAddr, nd.next, some a⟩
    writeNode a fun n => { n with next := some b, val := n.val.upTo endAddr }
  else failure

/-- The second half of `split_vrds_if_needed`. -/
def splitEnd (endAddr : ℕ) : Prog Vmm Bool := do
  match ← findVrd endAddr with
  | none => pure false
  | some a => do
    let nd ← node a
    if endAddr < lastOf nd.val.startAddr nd.val.size then
      match ← getVrd with
      | none => pure false
      | some b => do
        splitAfter a b endAddr
        pure true
    else pure true

def splitVrdsIfNeeded (startAddr endAddr : ℕ) : Prog Vmm Bool := do
  match ← findVrd startAddr with
  | none => pure false
  | some a => do
    if endAddr < startAddr then pure false
    else do
      let nd ← node a
      if nd.val.startAddr < startAddr then
        match ← getVrd with
        | none => pure false
        | some b => do
          splitBefore a b startAddr
          splitEnd endAddr
      else splitEnd endAddr

/-- Two descriptors say the same about their pages. -/
def sameAttrs (v w : Vrd) : Bool :=
  v.perms = w.perms ∧ v.flags = w.flags ∧ v.pageType = w.pageType ∧ v.state = w.state

/-- A descriptor extended by one that follows it. -/
def Vrd.join (v w : Vrd) : Vrd := { v with size := wrap (v.size + w.size) }

/-- Merge descriptor `b`, which follows `a`, into it if they are contiguous and equal. -/
def combineNext (a b : Addr) : Prog Vmm Unit := do
  let an ← node a
  let bn ← node b
  if an.val.stop = bn.val.startAddr ∧ sameAttrs an.val bn.val then do
    writeNode a fun n => { n with next := bn.next, val := n.val.join bn.val }
    setPrevOf bn.next (some a)
    let _ ← freeListPutVrd (some b)
    pure ()
  else pure ()

def combineWithPrev (prev : Option Addr) (a : Addr) : Prog Vmm Unit :=
  match prev with
  | none => pure ()
  | some p => combineNext p a

def combineWithNext (vrd : Option Addr) : Prog Vmm Unit :=
  match vrd with
  | none => pure ()
  | some a => do
    let nd ← node a
    match nd.next with
    | none => pure ()
    | some x => combineNext a x

/-- The loop of `combine_vrds`; the result is the descriptor it stops at. -/
def combineFrom (endAddr : ℕ) : ℕ → ℕ → Option Addr → Prog Vmm (Option Addr)
  | _, _, none => pure none
  | 0, _, some _ => failure
  | n + 1, addr, some a =>
    if addr < endAddr then do
      let nd ← node a
      combineWithPrev nd.prev a
      combineFrom endAddr n nd.val.stop nd.next
    else pure (some a)

def combineVrds (startAddr endAddr : ℕ) : Prog Vmm Unit := do
  let s ← get
  let vrd ← findVrd startAddr
  combineWithNext (← combineFrom endAddr s.nextAddr startAddr vrd)
  freeListCheckLevel

end Splitting

/-! ### Operations on a range of addresses -/

section Ranges

variable {β : Type}

/-- The loops that go from one descriptor to the next while `addr < end_addr`:
they stop with `false` at an address that is in no descriptor, and when the body
says so. -/
def forVrds (body : β → Addr → Vrd → Prog Vmm (Option β)) (endAddr : ℕ) :
    ℕ → ℕ → β → Prog Vmm (Option β)
  | 0, addr, acc => if addr < endAddr then failure else pure (some acc)
  | n + 1, addr, acc =>
    if addr < endAddr then do
      match ← findVrd addr with
      | none => pure none
      | some a => do
        let nd ← node a
        match ← body acc a nd.val with
        | none => pure none
        | some acc' => forVrds body endAddr n nd.val.stop acc'
    else pure (some acc)

def forRange (body : β → Addr → Vrd → Prog Vmm (Option β)) (startAddr endAddr : ℕ) (acc : β) :
    Prog Vmm (Option β) := do
  let s ← get
  forVrds body endAddr (s.nextAddr + 1) startAddr acc

def checkVrdsPagetypes (startAddr endAddr : ℕ) (pt0 pt1 : VrdPt) : Prog Vmm Bool := do
  let r ← forRange (fun () _ v =>
    pure (if v.pageType ≠ pt0 ∧ v.pageType ≠ pt1 then none else some ())) startAddr endAddr ()
  pure r.isSome

def checkVrdsPagetype (startAddr endAddr : ℕ) (pt : VrdPt) : Prog Vmm Bool :=
  checkVrdsPagetypes startAddr endAddr pt pt

/-- Whether EMODPE is needed for one descriptor. -/
def peNeeded (perms newPerms : Protect) : Bool :=
  perms.code < newPerms.code ∨ perms = .executeRead ∧ newPerms = .readwrite

/-- Whether EMODPR is needed for one descriptor; it is also asked for whenever
the right to execute changes. -/
def prNeeded (perms newPerms : Protect) : Bool :=
  newPerms.code < perms.code ∨ perms = .readwrite ∧ newPerms = .executeRead ∨
    Protect.readwrite.code < perms.code ∧ newPerms.code < Protect.executeRead.code ∨
    perms.code < Protect.executeRead.code ∧ Protect.readwrite.code < newPerms.code

/-- The pair `(pr_needed, pe_needed)`. -/
def checkVrdsPrPeNeeded (startAddr endAddr : ℕ) (newPerms : Protect) :
    Prog Vmm (Option (Bool × Bool)) :=
  forRange (fun acc _ v =>
    pure (if v.state = .committed ∨ v.state = .committedSystem then
      some (acc.1 || prNeeded v.perms newPerms, acc.2 || peNeeded v.perms newPerms)
    else none)) startAddr endAddr (false, false)

/-- The loop of `sgx_tprotect_rsrv_mem` that sets the permissions. -/
def setPerms (startAddr endAddr : ℕ) (perms : Protect) : Prog Vmm Bool := do
  let r ← forRange (fun () a _ => do
    writeVrd a fun v => { v with perms := perms }
    pure (some ())) startAddr endAddr ()
  pure r.isSome

def freeVrds (startAddr endAddr : ℕ) : Prog Vmm Bool := do
  let r ← forRange (fun () a v => do
    if v.stop < v.startAddr then failure
    else do
      removeVrd a
      pure (some ())) startAddr endAddr ()
  pure r.isSome

end Ranges

end ReservedMem
