/-
Writing a dirty file back (`file_flush.cpp`).

`internalFlush` is one transaction: the old ciphertexts of the dirty nodes go
to the recovery file, the update flag is set on disk, the dirty nodes are
encrypted bottom up under fresh keys that are deposited in their parents, and
then everything is written, the meta data node last.  The test hooks
`_RECOVERY_HOOK_` are `0` in the repository and left out.
-/
import LinuxSgx.ProtectedFs.Crypto

namespace ProtectedFs

variable {C T : Type} (cr : Crypto C T)

/-! ### The recovery file -/

/-- The bridge failed, or the call returned a nonzero byte that is reported as
`dflt`. -/
def Fault.byteCode (dflt : ErrorCode) : Fault → ErrorCode
  | .status n => .status n
  | _ => dflt

/-- The error exit of `write_recovery_file`: the file is closed and removed. -/
def abortRecoveryFile (f : Fault) : M C T Bool := do
  let _ ← callEffect .removeRecovery
  setLastError (f.byteCode .fileCantWriteRecoveryFile)
  return false

def fwriteRecoveryNode (r : RecoveryNode C T) : M C T Bool := do
  match ← callEffect (.writeRecovery r) with
  | some f => abortRecoveryFile f
  | none => return true

def writeRecoveryFile : M C T Bool := do
  match ← callEffect .openRecovery with
  | some f =>
    setLastError (f.byteCode .fileCantOpenRecoveryFile)
    return false
  | none =>
    let saved ← Prog.forAll (fun a => do
        let nd ← deref a
        if nd.needWriting && !nd.newNode then
          fwriteRecoveryNode (.node nd.physicalNodeNumber nd.encrypted)
        else return true)
      (← get).file.cache.traverse
    if saved then
      let root := (← get).file.rootMht
      let savedRoot ← if root.needWriting && !root.newNode then
          fwriteRecoveryNode (.node root.physicalNodeNumber root.encrypted)
        else pure true
      if savedRoot then fwriteRecoveryNode (.metaData (← get).file.fileMetaData)
      else return false
    else return false

/-! ### The update flag -/

/-- `file_meta_data` with the update flag set. -/
def MetaDataNode.flagged (m : MetaDataNode C T) : MetaDataNode C T :=
  { m with plainPart := { m.plainPart with updateFlag := true } }

/-- `file_meta_data` with the update flag cleared. -/
def MetaDataNode.unflagged (m : MetaDataNode C T) : MetaDataNode C T :=
  { m with plainPart := { m.plainPart with updateFlag := false } }

def setUpdateFlag (flushToDisk : Bool) : M C T Bool := do
  let failed ← callEffect (.writeMeta (← get).file.fileMetaData.flagged)
  -- in memory the flag is off again whether or not the write succeeded
  modify fun s => { s with file :=
    { s.file with fileMetaData := s.file.fileMetaData.unflagged } }
  match failed with
  | some f =>
    setLastError (f.code .eio)
    return false
  | none =>
    if flushToDisk then
      match ← call with
      | some f =>
        setLastError (f.byteCode .fileFlushFailed)
        let _ ← callEffect (.writeMeta (← get).file.fileMetaData)
        return false
      | none => return true
    else return true

def clearUpdateFlag : M C T Unit := do
  let _ ← callEffect (.writeMeta (← get).file.fileMetaData)
  let _ ← call

/-! ### Encrypting the dirty nodes -/

/-- Set `need_writing` on an MHT node and on its ancestors below the root. -/
def markParents : ℕ → MhtPtr → M C T Unit
  | 0, _ => failure
  | fuel + 1, p => do
    let nd ← derefMht p
    if nd.nodeNumber ≠ 0 then
      modifyMht p fun nd => { nd with needWriting := true }
      markParents fuel nd.parent

-- an MHT node has slots for 96 data nodes and for 32 MHT nodes
instance neZero_dataSlots : NeZero 96 := ⟨by decide⟩

instance neZero_mhtSlots : NeZero 32 := ⟨by decide⟩

/-- Deposit the key and the GMAC of data node `n` in its parent. -/
def FileNode.setDataSlot (nd : FileNode C T) (n : ℕ) (slot : GcmCryptoData T) : FileNode C T :=
  { nd with plainMht := { nd.plainMht with
      dataNodesCrypto := Function.update nd.plainMht.dataNodesCrypto (Fin.ofNat 96 n) slot } }

/-- Deposit the key and the GMAC of MHT node `m` in its parent. -/
def FileNode.setMhtSlot (nd : FileNode C T) (m : ℕ) (slot : GcmCryptoData T) : FileNode C T :=
  { nd with plainMht := { nd.plainMht with
      mhtNodesCrypto := Function.update nd.plainMht.mhtNodesCrypto (Fin.ofNat 32 (m - 1)) slot } }

/-- Encrypt the node at `a` under a fresh key and deposit key and GMAC in its
parent: what the two loops of `update_all_data_and_mht_nodes` have in common. -/
def sealNode {P : Type} (aead : Aead C T P) (plain : P) (a : Addr) (nd : FileNode C T)
    (deposit : GcmCryptoData T → FileNode C T → FileNode C T) : M C T Bool := do
  if ← deriveRandomNodeKey cr nd.physicalNodeNumber then
    let key := (← get).file.curKey
    match ← gcmEncrypt aead key plain with
    | none => return false
    | some (cipher, gmac) =>
      modifyNode a fun nd => { nd with encrypted := cipher }
      modifyMht nd.parent (deposit ⟨key, gmac⟩)
      return true
  else return false

/-- One step of the first loop of `update_all_data_and_mht_nodes`. -/
def encryptDataNode (a : Addr) : M C T Bool := do
  let nd ← deref a
  if nd.type = .data ∧ nd.needWriting then
    if ← sealNode cr cr.data nd.plainData a nd fun slot p => p.setDataSlot nd.nodeNumber slot then
      markParents (nd.nodeNumber + 1) nd.parent
      return true
    else return false
  else return true

/-- The dirty MHT nodes in the order of `push_front`, with their numbers. -/
def collectDirtyMht : List Addr → List (Addr × ℕ) → M C T (List (Addr × ℕ))
  | [], acc => return acc
  | a :: as, acc => do
    let nd ← deref a
    if nd.type = .mht ∧ nd.needWriting then collectDirtyMht as ((a, nd.nodeNumber) :: acc)
    else collectDirtyMht as acc

/-- `mht_list.sort(mht_order)`: higher (lower tree level) node number first. -/
def sortMht (l : List (Addr × ℕ)) : List (Addr × ℕ) :=
  l.insertionSort fun first second => second.2 ≤ first.2

/-- One step of the loop that updates the GMACs in the parents. -/
def encryptMhtNode (x : Addr × ℕ) : M C T Bool := do
  let nd ← deref x.1
  sealNode cr cr.mht nd.plainMht x.1 nd fun slot p => p.setMhtSlot nd.nodeNumber slot

/-- The last part of `update_all_data_and_mht_nodes`: the root's GMAC goes to
the meta data. -/
def encryptRootMht : M C T Bool := do
  if ← deriveRandomNodeKey cr (← get).file.rootMht.physicalNodeNumber then
    let key := (← get).file.curKey
    match ← gcmEncrypt cr.mht key (← get).file.rootMht.plainMht with
    | none => return false
    | some (cipher, gmac) =>
      modify fun s => { s with file :=
        { s.file with
          rootMht := { s.file.rootMht with encrypted := cipher }
          encryptedPartPlain := { s.file.encryptedPartPlain with
            mhtKey := key, mhtGmac := gmac } } }
      return true
  else return false

def updateAllDataAndMhtNodes : M C T Bool := do
  if ← Prog.forAll (encryptDataNode cr) (← get).file.cache.traverse then
    let mhtList ← collectDirtyMht (← get).file.cache.traverse []
    if ← Prog.forAll (encryptMhtNode cr) (sortMht mhtList) then encryptRootMht cr
    else return false
  else return false

def updateMetaDataNode : M C T Bool := do
  if ← generateRandomMetaDataKey cr then
    let s ← get
    match ← gcmEncrypt cr.metaData s.file.curKey s.file.encryptedPartPlain with
    | none => return false
    | some (cipher, gmac) =>
      modify fun s => { s with file :=
        { s.file with fileMetaData :=
          { plainPart := { s.file.fileMetaData.plainPart with metaDataGmac := gmac }
            encryptedPart := cipher } } }
      return true
  else return false

/-! ### Writing to disk -/

/-- A node write whose failure is reported as an I/O error. -/
def fwriteNode (e : Effect C T) : M C T Bool := do
  match ← callEffect e with
  | some f =>
    setLastError (f.code .eio)
    return false
  | none => return true

/-- One step of the loop of `write_all_changes_to_disk`. -/
def writeNodeToDisk (a : Addr) : M C T Bool := do
  let nd ← deref a
  if nd.needWriting then
    if ← fwriteNode (.writeNode nd.physicalNodeNumber nd.encrypted) then
      modifyNode a fun nd => { nd with needWriting := false, newNode := false }
      return true
    else return false
  else return true

/-- The nodes below the root and the root itself, if the tree is dirty. -/
def writeTreeToDisk : M C T Bool := do
  let s ← get
  if s.file.encryptedPartPlain.size > mdUserDataSize ∧ s.file.rootMht.needWriting then
    if ← Prog.forAll writeNodeToDisk s.file.cache.traverse then
      if ← fwriteNode (.writeNode 1 (← get).file.rootMht.encrypted) then
        modifyMht .root fun nd => { nd with needWriting := false, newNode := false }
        return true
      else return false
    else return false
  else return true

def writeAllChangesToDisk (flushToDisk : Bool) : M C T Bool := do
  if ← writeTreeToDisk then
    if ← fwriteNode (.writeMeta (← get).file.fileMetaData) then
      if flushToDisk then
        match ← call with
        | some f =>
          setLastError (f.byteCode .fileFlushFailed)
          return false
        | none => return true
      else return true
    else return false
  else return false

/-! ### The transaction -/

/-- The part of `internal_flush` before the nodes are encrypted. -/
def prepareFlush (flushToDisk : Bool) : M C T Bool := do
  if ← writeRecoveryFile then
    if ← setUpdateFlag flushToDisk then return true
    else
      setFileStatus .flushError
      return false
  else
    setFileStatus .flushError
    return false

/-- The dirty tree, encrypted; only the meta data is left when it is clean. -/
def flushTree (flushToDisk : Bool) : M C T Bool := do
  let s ← get
  if s.file.encryptedPartPlain.size > mdUserDataSize ∧ s.file.rootMht.needWriting then
    if ← prepareFlush flushToDisk then
      if ← updateAllDataAndMhtNodes cr then return true
      else
        clearUpdateFlag
        setFileStatus .cryptoError
        return false
    else return false
  else return true

def internalFlush (flushToDisk : Bool) : M C T Bool := do
  if (← get).file.needWriting then
    if ← flushTree cr flushToDisk then
      if ← updateMetaDataNode cr then
        if ← writeAllChangesToDisk flushToDisk then
          modify fun s => { s with file := { s.file with needWriting := false } }
          return true
        else
          setFileStatus .writeToDiskFailed
          return false
      else
        clearUpdateFlag
        setFileStatus .cryptoError
        return false
    else return false
  else return true

/-- The public `flush`. -/
def flush : M C T Bool := do
  if (← get).file.fileStatus = .ok then
    if ← internalFlush cr true then return true
    else
      if (← get).file.fileStatus = .ok then setFileStatus .flushError
      return false
  else
    setLastError .fileBadStatus
    return false

end ProtectedFs
