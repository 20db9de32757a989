/-
The state of a protected file session and the calls it makes outside the
enclave.

`St` is what the member functions of `protected_fs_file` act on: the object
itself, the heap of node objects, and the untrusted store.  Every OCALL,
allocation and crypto call asks `outcome` how it ends, so a statement about
all states covers every schedule of failures; a read may also be answered with
bytes of the host's choice (`forged`).  `trace` is proof-only: no modelled
function reads it.
-/
import LinuxSgx.ProtectedFs.LruCache

namespace ProtectedFs

/-! ### Errors and statuses -/

/-- The values of `last_error` that the source names, and codes passed through
from a call. -/
inductive ErrorCode where
  | success
  | unexpected | invalidParameter | macMismatch
  | fileBadStatus | fileNoKeyId | fileNameMismatch | fileNotSgxFile
  | fileCantOpenRecoveryFile | fileCantWriteRecoveryFile | fileRecoveryNeeded
  | fileFlushFailed | fileCloseFailed
  | einval | eacces | enoent | enomem | eio | enotsup | enametoolong
  | status (code : ℕ)
  | errno (code : ℕ)
  deriving DecidableEq, Repr

/-- `protected_fs_status_e` -/
inductive FileStatus where
  | ok | notInitialized | flushError | writeToDiskFailed | cryptoError | corrupted
  | memoryCorrupted | closed
  deriving DecidableEq, Repr

/-- How a failed call failed: the bridge returned a status, the call itself
returned an error number, or it returned no error number. -/
inductive Fault where
  | status (code : ℕ)
  | result (code : ℕ)
  | unknown
  deriving DecidableEq, Repr

/-- What the source stores in `last_error`, with its default for `-1`. -/
def Fault.code (dflt : ErrorCode) : Fault → ErrorCode
  | .status n => .status n
  | .result n => .errno n
  | .unknown => dflt

/-- How one external call ends.  `applied` says whether a write that reports a
failure reached the file nevertheless. -/
structure Outcome (C : Type) where
  fault : Option Fault
  applied : Bool
  forged : Option C
  rand : BitVec 256

/-! ### The untrusted store -/

/-- The protected file on the untrusted disk (its length in nodes, node 0 and
the other nodes) and its recovery file. -/
structure Store (C T : Type) where
  present : Bool
  count : ℕ
  metaNode : MetaDataNode C T
  node : ℕ → C
  recovery : Option (List (RecoveryNode C T))

/-- A change of the store. -/
inductive Effect (C T : Type) where
  | create
  | remove
  | writeMeta (m : MetaDataNode C T)
  | writeNode (n : ℕ) (c : C)
  | openRecovery
  | writeRecovery (r : RecoveryNode C T)
  | removeRecovery

def Store.apply {C T : Type} (st : Store C T) : Effect C T → Store C T
  | .create => if st.present then st else { st with present := true, count := 0 }
  | .remove => { st with present := false, count := 0 }
  | .writeMeta m => { st with metaNode := m, count := max st.count 1 }
  | .writeNode n c =>
    { st with node := Function.update st.node n c, count := max st.count (n + 1) }
  | .openRecovery => { st with recovery := some [] }
  | .writeRecovery r => { st with recovery := some (st.recovery.getD [] ++ [r]) }
  | .removeRecovery => { st with recovery := none }

/-- The store after a sequence of changes. -/
def Store.applyAll {C T : Type} (st : Store C T) (es : List (Effect C T)) : Store C T :=
  es.foldl Store.apply st

/-! ### The file object -/

/-- `open_mode_t` -/
structure OpenMode where
  read : Bool
  write : Bool
  append : Bool
  binary : Bool
  update : Bool
  deriving DecidableEq, Repr

/-- The data members of `protected_fs_file`; the mutex is left out, since the
operations of one file are run one after the other. -/
structure ProtectedFsFile (C T : Type) where
  fileMetaData : MetaDataNode C T
  encryptedPartPlain : MetaDataEncrypted T
  rootMht : FileNode C T
  fileOpen : Bool
  openMode : OpenMode
  readOnly : Bool
  offset : ℕ
  endOfFile : Bool
  realFileSize : ℕ
  needWriting : Bool
  lastError : ErrorCode
  fileStatus : FileStatus
  useUserKdkKey : Bool
  userKdkKey : Key
  curKey : Key
  sessionMasterKey : Key
  masterKeyCount : ℕ
  cache : LruCache

structure St (C T : Type) where
  file : ProtectedFsFile C T
  heap : Addr → Option (FileNode C T)
  nextAddr : Addr
  store : Store C T
  outcome : ℕ → Outcome C
  clock : ℕ
  trace : List (Effect C T)

/-- A member function of `protected_fs_file`. -/
abbrev M (C T : Type) := Prog (St C T)

variable {C T : Type}

/-! ### Calls that leave the function -/

/-- Every external call takes the next outcome. -/
def nextOutcome : M C T (Outcome C) := do
  let s ← get
  set { s with clock := s.clock + 1 }
  return s.outcome s.clock

/-- A call that only succeeds or fails. -/
def call : M C T (Option Fault) := do
  let o ← nextOutcome
  return o.fault

/-- A change of the store, recorded in the trace. -/
def emit (e : Effect C T) : M C T Unit := modify fun s =>
  { s with store := s.store.apply e, trace := s.trace ++ [e] }

/-- A call that changes the store when it succeeds, and may do so when it
reports a failure. -/
def callEffect (e : Effect C T) : M C T (Option Fault) := do
  let o ← nextOutcome
  if o.fault.isNone || o.applied then emit e
  return o.fault

/-- `u_sgxprotectedfs_fread_node` of a node other than node 0. -/
def freadNode (n : ℕ) : M C T (Except ErrorCode C) := do
  let o ← nextOutcome
  match o.fault with
  | some f => return .error (f.code .eio)
  | none =>
    match o.forged with
    | some c => return .ok c
    | none =>
      let s ← get
      if n < s.store.count then return .ok (s.store.node n)
      else return .error .eio

/-- `u_sgxprotectedfs_fread_node` of node 0. -/
def freadMetaNode : M C T (Except ErrorCode (MetaDataNode C T)) := do
  match ← call with
  | some f => return .error (f.code .eio)
  | none =>
    let s ← get
    if 0 < s.store.count then return .ok s.store.metaNode
    else return .error .eio

/-! ### Member variables and the heap -/

def setLastError (e : ErrorCode) : M C T Unit := modify fun s =>
  { s with file := { s.file with lastError := e } }

def setFileStatus (st : FileStatus) : M C T Unit := modify fun s =>
  { s with file := { s.file with fileStatus := st } }

/-- Read a node object; a dangling pointer is undefined behaviour. -/
def deref (a : Addr) : M C T (FileNode C T) := do
  match (← get).heap a with
  | some nd => return nd
  | none => failure

/-- Read an MHT node through its pointer. -/
def derefMht : MhtPtr → M C T (FileNode C T)
  | .root => do return (← get).file.rootMht
  | .addr a => deref a

/-- Write a node object. -/
def modifyNode (a : Addr) (f : FileNode C T → FileNode C T) : M C T Unit := do
  let nd ← deref a
  modify fun s => { s with heap := Function.update s.heap a (some (f nd)) }

/-- Write an MHT node through its pointer. -/
def modifyMht : MhtPtr → (FileNode C T → FileNode C T) → M C T Unit
  | .root, f => modify fun s => { s with file := { s.file with rootMht := f s.file.rootMht } }
  | .addr a, f => modifyNode a f

/-- `delete` -/
def freeNode (a : Addr) : M C T Unit := modify fun s =>
  { s with heap := Function.update s.heap a none }

/-- `lru_cache::add` of a new object; its two allocations may fail. -/
def cacheAdd (nd : FileNode C T) : M C T (Option Addr) := do
  match ← call with
  | some _ => return none
  | none =>
    let s ← get
    let a := s.nextAddr
    set { s with
      heap := Function.update s.heap a (some nd)
      nextAddr := a + 1
      file := { s.file with cache := s.file.cache.add nd.physicalNodeNumber a } }
    return some a

end ProtectedFs
