/-
The rest of the file object's interface (`file_other.cpp`, `file_init.cpp`) and
the recovery that the untrusted side performs (`sgx_uprotected_fs.cpp`).

A session starts with the constructor (`protectedFsFile`) and ends with `preClose`.
-/
import LinuxSgx.ProtectedFs.ReadWrite

namespace ProtectedFs

variable {C T : Type} [Inhabited C] [Inhabited T] (cr : Crypto C T)

/-! ### Position and errors -/

/-- `tell`; `-1` is `none`. -/
def tell : M C T (Option ℕ) := do
  let f := (← get).file
  if f.fileStatus ≠ .ok then
    setLastError .fileBadStatus
    return none
  else return some f.offset

/-- The `origin` argument of `seek`. -/
inductive SeekOrigin where
  | set
  | cur
  | fromEnd
  | other
  deriving DecidableEq, Repr

/-- Addition of `int64_t` as the machine performs it. -/
def wrap64 (x : ℤ) : ℤ := Int.bmod x (2 ^ 64)

/-- The position that `seek` moves to, if it accepts its arguments. -/
def seekTarget (offset size : ℕ) (newOffset : ℤ) : SeekOrigin → Option ℕ
  | .set => if 0 ≤ newOffset ∧ newOffset ≤ size then some newOffset.toNat else none
  | .cur =>
    let target := wrap64 (offset + newOffset)
    if 0 ≤ target ∧ target ≤ size then some target.toNat else none
  | .fromEnd =>
    if newOffset ≤ 0 ∧ 0 - (size : ℤ) ≤ newOffset then some (size + newOffset).toNat else none
  | .other => none

/-- `seek`; true is the result `0`. -/
def seek (newOffset : ℤ) (origin : SeekOrigin) : M C T Bool := do
  let f := (← get).file
  if f.fileStatus ≠ .ok then
    setLastError .fileBadStatus
    return false
  else
    match seekTarget f.offset f.encryptedPartPlain.size newOffset origin with
    | some target =>
      modify fun s => { s with file := { s.file with offset := target, endOfFile := false } }
      return true
    | none =>
      setLastError .einval
      return false

def clearError : M C T Unit := do
  let status := (← get).file.fileStatus
  if status = .notInitialized ∨ status = .closed ∨ status = .cryptoError ∨
      status = .corrupted ∨ status = .memoryCorrupted then return
  else
    if status = .flushError then
      if ← internalFlush cr true then setFileStatus .ok
    if (← get).file.fileStatus = .writeToDiskFailed then
      if ← writeAllChangesToDisk true then
        modify fun s => { s with file := { s.file with needWriting := false, fileStatus := .ok } }
    if (← get).file.fileStatus = .ok then
      modify fun s => { s with file :=
        { s.file with lastError := .success, endOfFile := false } }

/-! ### Dropping the cache -/

/-- The loop of `clear_cache`; true is the result `0`. -/
def dropClean : ℕ → M C T Bool
  | 0 => do return (← get).file.cache.size = 0
  | fuel + 1 => do
    if (← get).file.cache.size = 0 then return true
    else
      match (← get).file.cache.getLast with
      | none => return false
      | some a =>
        let nd ← deref a
        if nd.needWriting then return false
        else
          modify fun s => { s with file := { s.file with cache := s.file.cache.removeLast } }
          freeNode a
          dropClean fuel

def clearCache : M C T Bool := do
  if (← get).file.fileStatus ≠ .ok then clearError cr
  else
    let _ ← internalFlush cr true
  if (← get).file.fileStatus ≠ .ok then return false
  else dropClean (← get).file.cache.size

/-! ### Opening -/

/-- `init_fields` -/
def initFields : M C T Unit := modify fun s =>
  { s with file :=
    { fileMetaData := default
      encryptedPartPlain := default
      rootMht := { FileNode.zero C T .mht with physicalNodeNumber := 1, newNode := true }
      fileOpen := false
      openMode := ⟨false, false, false, false, false⟩
      readOnly := false
      offset := 0
      endOfFile := false
      realFileSize := 0
      needWriting := false
      lastError := .success
      fileStatus := .notInitialized
      useUserKdkKey := false
      userKdkKey := 0
      curKey := 0
      sessionMasterKey := 0
      masterKeyCount := 0
      cache := .empty } }

/-- The loop of `parse_mode`. -/
def parseModeChars : List Char → OpenMode → Option OpenMode
  | [], m => some m
  | c :: cs, m =>
    if c = 'r' then
      if m.write || m.read || m.append then none else parseModeChars cs { m with read := true }
    else if c = 'w' then
      if m.write || m.read || m.append then none else parseModeChars cs { m with write := true }
    else if c = 'a' then
      if m.write || m.read || m.append then none else parseModeChars cs { m with append := true }
    else if c = 'b' then
      if m.binary then none else parseModeChars cs { m with binary := true }
    else if c = '+' then
      if m.update then none else parseModeChars cs { m with update := true }
    else none

/-- `parse_mode`; the limit is `MAX_MODE_STRING_LEN`. -/
def parseMode (mode : List Char) : Option OpenMode :=
  if mode.length > 5 then none
  else
    match parseModeChars mode ⟨false, false, false, false, false⟩ with
    | none => none
    | some m => if !m.write && !m.read && !m.append then none else some m

/-- The part of a path after its last separator. -/
def baseName : List Char → List Char → List Char
  | [], name => name
  | c :: p, name => if c = '\\' ∨ c = '/' then baseName p p else baseName p name

def cleanupFilename (src : List Char) : Except ErrorCode (List Char) :=
  let name := baseName src src
  if name.length ≥ filenameMaxLen - 1 then .error .enametoolong
  else if name = [] then .error .einval
  else .ok name

/-- `SGX_FILE_ID` -/
abbrev sgxFileId : ℕ := 0x5347585F46494C45
/-- `SGX_FILE_MAJOR_VERSION` -/
abbrev sgxFileMajorVersion : ℕ := 1
/-- `SGX_FILE_MINOR_VERSION` -/
abbrev sgxFileMinorVersion : ℕ := 0

/-- The loop of `u_sgxprotectedfs_do_file_recovery`: every recovery node is
written to its place in the file. -/
def recoveryEffects (nodes : List (RecoveryNode C T)) : List (Effect C T) :=
  nodes.map fun
    | .metaData m => .writeMeta m
    | .node n c => .writeNode n c

/-- `u_sgxprotectedfs_do_file_recovery`; the recovery file is removed at the
end. -/
def doFileRecovery : M C T Bool := do
  match ← call with
  | some _ => return false
  | none =>
    match (← get).store.recovery with
    | none => return false
    | some nodes =>
      modify fun s =>
        let es := recoveryEffects nodes ++ [.removeRecovery]
        { s with store := s.store.applyAll es, trace := s.trace ++ es }
      return true

def fileRecovery : M C T Bool := do
  if (← call).isSome then return false
  else
    modify fun s => { s with file := { s.file with fileOpen := false } }
    if ← doFileRecovery then
      if (← call).isSome then return false
      else
        modify fun s => { s with file := { s.file with fileOpen := true } }
        -- recovery only changes existing data, it does not shrink or grow the file
        if (← get).store.count * nodeSize ≠ (← get).file.realFileSize then return false
        else
          match ← freadMetaNode with
          | .error _ => return false
          | .ok m =>
            modify fun s => { s with file := { s.file with fileMetaData := m } }
            return true
    else return false

/-- The recovery branch of `init_existing_file`. -/
def recoverIfNeeded : M C T Bool := do
  if (← get).file.fileMetaData.plainPart.updateFlag then
    if ← fileRecovery then
      if (← get).file.fileMetaData.plainPart.updateFlag then
        setLastError .fileRecoveryNeeded
        return false
      else if (← get).file.fileMetaData.plainPart.majorVersion ≠ sgxFileMajorVersion then
        setLastError .enotsup
        return false
      else return true
    else
      setLastError .fileRecoveryNeeded
      return false
  else return true

/-- The end of `init_existing_file`: the root of the MHT is read and checked. -/
def readRootMht : M C T Bool := do
  let e := (← get).file.encryptedPartPlain
  if e.size > mdUserDataSize then
    match ← freadNode 1 with
    | .error err =>
      setLastError err
      return false
    | .ok cipher =>
      match ← gcmDecrypt cr.mht e.mhtKey cipher e.mhtGmac with
      | .error err =>
        setLastError err
        return false
      | .ok plain =>
        modify fun s => { s with file :=
          { s.file with rootMht :=
            { s.file.rootMht with encrypted := cipher, plainMht := plain, newNode := false } } }
        return true
  else return true

/-- The part of `init_existing_file` after the meta-data node is read and
recovered. -/
def unsealMetaData (cleanFilename : List Char) (importKey : Option Key) : M C T Bool := do
  let f := (← get).file
  if f.fileMetaData.plainPart.useUserKdkKey ≠ f.useUserKdkKey then
    setLastError .einval
    return false
  else if ← restoreCurrentMetaDataKey cr importKey then
    let f := (← get).file
    match ← gcmDecrypt cr.metaData f.curKey f.fileMetaData.encryptedPart
        f.fileMetaData.plainPart.metaDataGmac with
    | .error e =>
      setLastError e
      return false
    | .ok e =>
      modify fun s => { s with file := { s.file with encryptedPartPlain := e } }
      if cleanFilename ≠ e.cleanFilename then
        setLastError .fileNameMismatch
        return false
      else readRootMht cr
  else return false

def initExistingFile (cleanFilename : List Char) (importKey : Option Key) : M C T Bool := do
  match ← freadMetaNode with
  | .error e =>
    setLastError e
    return false
  | .ok m =>
    modify fun s => { s with file := { s.file with fileMetaData := m } }
    if m.plainPart.fileId ≠ sgxFileId then
      setLastError .fileNotSgxFile
      return false
    else if m.plainPart.majorVersion ≠ sgxFileMajorVersion then
      setLastError .enotsup
      return false
    else if ← recoverIfNeeded then unsealMetaData cr cleanFilename importKey
    else return false

def initNewFile (cleanFilename : List Char) : M C T Unit := modify fun s =>
  { s with file :=
    { s.file with
      fileMetaData := { s.file.fileMetaData with
        plainPart := { s.file.fileMetaData.plainPart with
          fileId := sgxFileId, majorVersion := sgxFileMajorVersion,
          minorVersion := sgxFileMinorVersion, useUserKdkKey := s.file.useUserKdkKey } }
      encryptedPartPlain := { s.file.encryptedPartPlain with cleanFilename }
      needWriting := true } }

/-- What `sgx_fopen_internal` passes to the constructor. -/
structure OpenArgs where
  filename : List Char
  mode : List Char
  importKey : Option Key
  kdkKey : Option Key

/-- The checks of the constructor before it touches the file, and the names and
the mode it works with. -/
def checkOpenArgs (args : OpenArgs) : M C T (Option (List Char × OpenMode)) := do
  if args.filename = [] ∨ args.mode = [] then
    setLastError .einval
    return none
  else if args.filename.length ≥ fullnameMaxLen - 1 then
    setLastError .enametoolong
    return none
  else if args.importKey.isSome && args.kdkKey.isSome then
    setLastError .einval
    return none
  else if ← cryptoCall then
    if ← initSessionMasterKey cr then
      match args.kdkKey with
      | some k =>
        modify fun s => { s with file := { s.file with useUserKdkKey := true, userKdkKey := k } }
      | none => pure ()
      match cleanupFilename args.filename with
      | .error e =>
        setLastError e
        return none
      | .ok cleanFilename =>
        if args.importKey = some 0 then
          setLastError .einval
          return none
        else
          match parseMode args.mode with
          | none =>
            setLastError .einval
            return none
          | some mode => return some (cleanFilename, mode)
    else return none
  else return none

/-- The constructor deletes an existing file that is opened for writing; the
result is whether the file exists afterwards. -/
def prepareFile (mode : OpenMode) : M C T (Option Bool) := do
  match ← call with
  | some f =>
    setLastError (f.code .unexpected)
    return none
  | none =>
    let found := (← get).store.present
    if mode.write && found then
      let removed ← callEffect .remove
      match ← call with
      | some f =>
        setLastError (f.code .unexpected)
        return none
      | none =>
        if (← get).store.present then
          setLastError ((removed.map (Fault.code .eacces)).getD .eacces)
          return none
        else return some false
    else return some found

/-- The part of the constructor after the file is opened. -/
def initFile (cleanFilename : List Char) (importKey : Option Key) : M C T Unit := do
  let f := (← get).file
  if f.realFileSize > 0 then
    if f.openMode.write then setLastError .eacces
    else if ← initExistingFile cr cleanFilename importKey then
      modify fun s => { s with file :=
        { s.file with
          offset := if s.file.openMode.append && !s.file.openMode.update
            then s.file.encryptedPartPlain.size else s.file.offset
          fileStatus := .ok } }
  else
    initNewFile cleanFilename
    setFileStatus .ok

/-- The constructor `protected_fs_file`. -/
def protectedFsFile (args : OpenArgs) : M C T Unit := do
  initFields
  match ← checkOpenArgs cr args with
  | none => return
  | some (cleanFilename, mode) =>
    modify fun s => { s with file := { s.file with openMode := mode } }
    match ← prepareFile mode with
    | none => return
    | some found =>
      if (mode.read || args.importKey.isSome) && !found then setLastError .enoent
      else
        modify fun s => { s with file :=
          { s.file with readOnly := mode.read && !mode.update } }
        match ← callEffect .create with
        | some f => setLastError (f.code .eacces)
        | none =>
          modify fun s => { s with file :=
            { s.file with fileOpen := true, realFileSize := s.store.count * nodeSize } }
          initFile cr cleanFilename args.importKey

/-! ### Closing -/

/-- `u_sgxprotectedfs_fclose` at the end of `pre_close`; false is a failure. -/
def closeHandle : M C T Bool := do
  if (← get).file.fileOpen then
    let failed ← call
    modify fun s => { s with file := { s.file with fileOpen := false } }
    match failed with
    | some f =>
      setLastError (f.code .fileCloseFailed)
      return false
    | none => return true
  else return true

/-- `pre_close` without the arguments that export or import a key. -/
def preClose : M C T Bool := do
  if (← get).file.fileStatus ≠ .ok then clearError cr
  else
    let _ ← internalFlush cr true
  let clean := (← get).file.fileStatus = .ok
  let closed ← closeHandle
  let f := (← get).file
  if f.fileStatus = .ok ∧ f.lastError = .success then
    let _ ← callEffect .removeRecovery
  setFileStatus .closed
  return clean && closed

end ProtectedFs
