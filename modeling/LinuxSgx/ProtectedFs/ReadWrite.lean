/-
Reading and writing (`file_read_write.cpp`).

`getDataNode` finds the data node of the current offset in the cache, reads it
(and the MHT nodes above it) from disk or appends a new one, bumps the MHT
nodes above it to the head of the cache, and then evicts until at most 48 nodes
are left, flushing the file when the last one is dirty.  `write` and `read` are
loops around it.  Recursions over the tree and the loops take a fuel argument;
running out of it is a run without outcome.
-/
import LinuxSgx.ProtectedFs.Flush

namespace ProtectedFs

variable {C T : Type} [Inhabited C] [Inhabited T] (cr : Crypto C T)

/-! ### MHT nodes -/

/-- An object of the heap that `read_mht_node` has read and decrypted. -/
def loadedMhtNode (mhtNodeNumber physicalNodeNumber : ℕ) (parent : MhtPtr) (cipher : C)
    (plain : MhtNode T) : FileNode C T :=
  { FileNode.zero C T .mht with
    nodeNumber := mhtNodeNumber, physicalNodeNumber, parent, encrypted := cipher,
    plainMht := plain }

/-- The object that `append_mht_node` creates. -/
def newMhtNode (mhtNodeNumber physicalNodeNumber : ℕ) (parent : MhtPtr) : FileNode C T :=
  { FileNode.zero C T .mht with
    newNode := true, nodeNumber := mhtNodeNumber, physicalNodeNumber, parent }

/-- `new`; `std::bad_alloc` is reported as `ENOMEM`. -/
def allocNode : M C T Bool := do
  match ← call with
  | some _ =>
    setLastError .enomem
    return false
  | none => return true

/-- `cache.add`, with the failure of its allocations reported as `ENOMEM`. -/
def addToCache (nd : FileNode C T) : M C T (Option Addr) := do
  match ← cacheAdd nd with
  | none =>
    setLastError .enomem
    return none
  | some a => return some a

/-- A failed decryption; a GMAC mismatch marks the file as corrupted. -/
def decryptFailed (e : ErrorCode) : M C T Unit := do
  setLastError e
  if e = .macMismatch then setFileStatus .corrupted

/-- Read, decrypt and cache a node whose parent is at hand: the part that
`read_mht_node` and `read_data_node` have in common.  `slotOf` picks the key and
the GMAC in the parent, `mk` builds the object. -/
def loadNode {P : Type} (aead : Aead C T P) (slotOf : MhtNode T → GcmCryptoData T)
    (mk : C → P → FileNode C T) (physicalNodeNumber : ℕ) (parent : MhtPtr) :
    M C T (Option Addr) := do
  if ← allocNode then
    match ← freadNode physicalNodeNumber with
    | .error e =>
      setLastError e
      return none
    | .ok cipher =>
      let slot := slotOf (← derefMht parent).plainMht
      match ← gcmDecrypt aead slot.key cipher slot.gmac with
      | .error e =>
        decryptFailed e
        return none
      | .ok plain => addToCache (mk cipher plain)
  else return none

def loadMhtNode (mhtNodeNumber physicalNodeNumber : ℕ) (parent : MhtPtr) :
    M C T (Option Addr) :=
  loadNode cr.mht (fun p => p.mhtNodesCrypto (Fin.ofNat 32 (mhtNodeNumber - 1)))
    (loadedMhtNode mhtNodeNumber physicalNodeNumber parent) physicalNodeNumber parent

/-- `read_mht_node`, by recursion towards the root. -/
def readMhtNode : (fuel : ℕ) → (mhtNodeNumber : ℕ) → M C T (Option MhtPtr)
  | 0, mhtNodeNumber => if mhtNodeNumber = 0 then return some .root else failure
  | fuel + 1, mhtNodeNumber => do
    if mhtNodeNumber = 0 then return some .root
    else
      let physicalNodeNumber := 1 + mhtNodeNumber * (1 + attachedDataNodesCount)
      match (← get).file.cache.find physicalNodeNumber with
      | some a => return some (.addr a)
      | none =>
        match ← readMhtNode fuel ((mhtNodeNumber - 1) / childMhtNodesCount) with
        | none => return none
        | some parent =>
          return (← loadMhtNode cr mhtNodeNumber physicalNodeNumber parent).map .addr

def appendMhtNode (mhtNodeNumber : ℕ) : M C T (Option MhtPtr) := do
  match ← readMhtNode cr mhtNodeNumber ((mhtNodeNumber - 1) / childMhtNodesCount) with
  | none => return none
  | some parent =>
    if ← allocNode then
      let physicalNodeNumber := 1 + mhtNodeNumber * (1 + attachedDataNodesCount)
      return (← addToCache (newMhtNode mhtNodeNumber physicalNodeNumber parent)).map .addr
    else return none

def getMhtNode : M C T (Option MhtPtr) := do
  let f := (← get).file
  if f.offset < mdUserDataSize then
    setLastError .unexpected
    return none
  else
    let mhtNodeNumber := (getNodeNumbers f.offset).mhtNodeNumber
    if mhtNodeNumber = 0 then return some .root
    else if (f.offset - mdUserDataSize) % (attachedDataNodesCount * nodeSize) = 0 ∧
        f.offset = f.encryptedPartPlain.size then
      appendMhtNode cr mhtNodeNumber
    else readMhtNode cr mhtNodeNumber mhtNodeNumber

/-! ### Data nodes -/

/-- An object of the heap that `read_data_node` has read and decrypted. -/
def loadedDataNode (dataNodeNumber physicalNodeNumber : ℕ) (parent : MhtPtr) (cipher : C)
    (plain : Bytes 4096) : FileNode C T :=
  { FileNode.zero C T .data with
    nodeNumber := dataNodeNumber, physicalNodeNumber, parent, encrypted := cipher,
    plainData := plain }

/-- The object that `append_data_node` creates. -/
def newDataNode (dataNodeNumber physicalNodeNumber : ℕ) (parent : MhtPtr) : FileNode C T :=
  { FileNode.zero C T .data with
    newNode := true, nodeNumber := dataNodeNumber, physicalNodeNumber, parent }

def appendDataNode : M C T (Option Addr) := do
  match ← getMhtNode cr with
  | none => return none
  | some parent =>
    if ← allocNode then
      let numbers := getNodeNumbers (← get).file.offset
      addToCache (newDataNode numbers.dataNodeNumber numbers.physicalDataNodeNumber parent)
    else return none

def loadDataNode (dataNodeNumber physicalNodeNumber : ℕ) (parent : MhtPtr) :
    M C T (Option Addr) :=
  loadNode cr.data (fun p => p.dataNodesCrypto (Fin.ofNat 96 dataNodeNumber))
    (loadedDataNode dataNodeNumber physicalNodeNumber parent) physicalNodeNumber parent

def readDataNode : M C T (Option Addr) := do
  let numbers := getNodeNumbers (← get).file.offset
  let cached := (← get).file.cache.find numbers.physicalDataNodeNumber
  modify fun s => { s with file :=
    { s.file with cache := s.file.cache.get numbers.physicalDataNodeNumber } }
  match cached with
  | some a => return some a
  | none =>
    match ← getMhtNode cr with
    | none => return none
    | some parent =>
      loadDataNode cr numbers.dataNodeNumber numbers.physicalDataNodeNumber parent

/-- Bump an MHT node and its ancestors below the root to the head of the cache. -/
def bumpParents : ℕ → MhtPtr → M C T Unit
  | 0, _ => failure
  | fuel + 1, p => do
    let nd ← derefMht p
    if nd.nodeNumber ≠ 0 then
      modify fun s => { s with file :=
        { s.file with cache := s.file.cache.get nd.physicalNodeNumber } }
      bumpParents fuel nd.parent

/-- The first half of `get_data_node`: the node of the current offset. -/
def lookupDataNode : M C T (Option Addr) := do
  let f := (← get).file
  let found ← if (f.offset - mdUserDataSize) % nodeSize = 0 ∧
      f.offset = f.encryptedPartPlain.size then appendDataNode cr else readDataNode cr
  match found with
  | none => return none
  | some a =>
    let nd ← deref a
    bumpParents (nd.nodeNumber + 1) nd.parent
    return some a

/-- The second half of `get_data_node`: evict until the cache is small enough.
The result is false when the loop is left with an error. -/
def evict : ℕ → M C T Bool
  | 0 => failure
  | fuel + 1 => do
    let s ← get
    if s.file.cache.size ≤ maxPagesInCache then return true
    else
      match s.file.cache.getLast with
      | none =>
        setLastError .unexpected
        return false
      | some a =>
        let nd ← deref a
        if nd.needWriting then
          if ← internalFlush cr false then evict fuel
          else
            if (← get).file.fileStatus = .ok then setFileStatus .flushError
            return false
        else
          modify fun s => { s with file := { s.file with cache := s.file.cache.removeLast } }
          freeNode a
          evict fuel

def getDataNode : M C T (Option Addr) := do
  if (← get).file.offset < mdUserDataSize then
    setLastError .unexpected
    return none
  else
    let node ← lookupDataNode cr
    if ← evict cr (2 * (← get).file.cache.size + 2) then return node else return none

/-! ### `write` -/

/-- `offset += n`, and the file size follows; past `INT64_MAX` the addition is
undefined. -/
def advance (n : ℕ) : M C T Unit := do
  let s ← get
  let offset := s.file.offset + n
  if h : offset < 2 ^ 63 then
    set { s with file :=
      { s.file with
        offset := offset
        encryptedPartPlain :=
          if offset > s.file.encryptedPartPlain.size then
            { s.file.encryptedPartPlain with size := offset, size_lt := h }
          else s.file.encryptedPartPlain } }
  else failure

/-- The first block of user data is written in the meta-data encrypted part;
returns what is left to write. -/
def writeMetaData (data : List UInt8) : M C T (List UInt8) := do
  let offset := (← get).file.offset
  if offset < mdUserDataSize then
    let n := min data.length (mdUserDataSize - offset)
    modify fun s => { s with file :=
      { s.file with encryptedPartPlain := { s.file.encryptedPartPlain with
          data := s.file.encryptedPartPlain.data.copyIn offset (data.take n) } } }
    advance n
    modify fun s => { s with file := { s.file with needWriting := true } }
    return data.drop n
  else return data

/-- Set `need_writing` on a data node, on the MHT nodes above it and on the
file, unless the data node has it already. -/
def markDirty (a : Addr) : M C T Unit := do
  let nd ← deref a
  if nd.needWriting = false then
    modifyNode a fun nd => { nd with needWriting := true }
    markParents (nd.nodeNumber + 1) nd.parent
    modify fun s => { s with file :=
      { s.file with rootMht := { s.file.rootMht with needWriting := true }, needWriting := true } }

/-- One turn of the loop of `write`; returns what is left to write. -/
def writeNode (a : Addr) (data : List UInt8) : M C T (List UInt8) := do
  let offsetInNode := ((← get).file.offset - mdUserDataSize) % nodeSize
  let n := min data.length (nodeSize - offsetInNode)
  modifyNode a fun nd => { nd with plainData := nd.plainData.copyIn offsetInNode (data.take n) }
  advance n
  markDirty a
  return data.drop n

/-- The loop of `write`; returns what is left to write. -/
def writeLoop : ℕ → List UInt8 → M C T (List UInt8)
  | 0, data => if data.isEmpty then return data else failure
  | fuel + 1, data => do
    if data.isEmpty then return data
    else
      match ← getDataNode cr with
      | none => return data
      | some a => writeLoop fuel (← writeNode a data)

/-- A buffer that the caller passes, and whether it lies outside the enclave. -/
structure Buffer where
  bytes : List UInt8
  outside : Bool

/-- `UINT32_MAX` -/
abbrev uint32Max : ℕ := 2 ^ 32 - 1

/-- `protected_fs_file::write`; `ptr` is null or points to `size * count` bytes. -/
def write (ptr : Option Buffer) (size count : ℕ) : M C T ℕ := do
  match ptr with
  | none => return 0
  | some buf =>
    if size = 0 ∨ count = 0 then return 0
    else if size > uint32Max ∨ count > uint32Max then
      setLastError .einval
      return 0
    else if buf.outside then
      setLastError .invalidParameter
      return 0
    else
      let f := (← get).file
      if f.fileStatus ≠ .ok then
        setLastError .fileBadStatus
        return 0
      else if !f.openMode.append && !f.openMode.update && !f.openMode.write then
        setLastError .eacces
        return 0
      else
        if f.openMode.append then
          modify fun s => { s with file :=
            { s.file with offset := s.file.encryptedPartPlain.size } }
        let data := buf.bytes.take (size * count)
        let rest ← writeMetaData data
        let left ← writeLoop cr data.length rest
        return (size * count - left.length) / size

/-! ### `read` -/

/-- The first block of user data is read from the meta-data encrypted part;
returns what is left to read and the bytes read. -/
def readMetaData (left : ℕ) : M C T (ℕ × List UInt8) := do
  let f := (← get).file
  if f.offset < mdUserDataSize then
    let n := min left (mdUserDataSize - f.offset)
    modify fun s => { s with file := { s.file with offset := s.file.offset + n } }
    return (left - n, f.encryptedPartPlain.data.copyOut f.offset n)
  else return (left, [])

/-- One turn of the loop of `read`; returns the bytes read. -/
def readNode (a : Addr) (left : ℕ) : M C T (List UInt8) := do
  let offset := (← get).file.offset
  let offsetInNode := (offset - mdUserDataSize) % nodeSize
  let n := min left (nodeSize - offsetInNode)
  let nd ← deref a
  modify fun s => { s with file := { s.file with offset := s.file.offset + n } }
  return nd.plainData.copyOut offsetInNode n

/-- The loop of `read`; returns what is left to read and all bytes read. -/
def readLoop : ℕ → ℕ → List UInt8 → M C T (ℕ × List UInt8)
  | 0, left, out => if left = 0 then return (left, out) else failure
  | fuel + 1, left, out => do
    if left = 0 then return (left, out)
    else
      match ← getDataNode cr with
      | none => return (left, out)
      | some a =>
        let bytes ← readNode a left
        readLoop fuel (left - bytes.length) (out ++ bytes)

/-- `protected_fs_file::read`; the result is the count returned and the bytes
put in the buffer. -/
def read (ptr : Option Bool) (size count : ℕ) : M C T (ℕ × List UInt8) := do
  match ptr with
  | none => return (0, [])
  | some outside =>
    if size = 0 ∨ count = 0 then return (0, [])
    else if size > uint32Max ∨ count > uint32Max then
      setLastError .einval
      return (0, [])
    else if outside then
      setLastError .einval
      return (0, [])
    else
      let f := (← get).file
      if f.fileStatus ≠ .ok then
        setLastError .fileBadStatus
        return (0, [])
      else if !f.openMode.read && !f.openMode.update then
        setLastError .eacces
        return (0, [])
      else if f.endOfFile then return (0, [])
      else if f.offset = f.encryptedPartPlain.size then
        modify fun s => { s with file := { s.file with endOfFile := true } }
        return (0, [])
      else
        let attempted := min (size * count) (f.encryptedPartPlain.size - f.offset)
        let (rest, out) ← readMetaData attempted
        let (left, out) ← readLoop cr attempted rest out
        if left = 0 ∧ attempted ≠ size * count then
          modify fun s => { s with file := { s.file with endOfFile := true } }
        return ((attempted - left) / size, out)

end ProtectedFs
