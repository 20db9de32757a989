/-
Runs of a file session: sequences of calls of the member functions, in any
order and with any arguments, starting from the constructor.
-/
import LinuxSgx.ProtectedFs.Session

namespace ProtectedFs

variable {C T : Type} [Inhabited C] [Inhabited T] (cr : Crypto C T)

/-- A call of a member function of `protected_fs_file`. -/
inductive Op where
  | write (ptr : Option Buffer) (size count : ℕ)
  | read (ptr : Option Bool) (size count : ℕ)
  | seek (newOffset : ℤ) (origin : SeekOrigin)
  | tell
  | flush
  | clearError
  | clearCache
  | preClose

/-- What a call returns. -/
inductive Reply where
  | count (n : ℕ)
  | bytes (n : ℕ) (out : List UInt8)
  | position (p : Option ℕ)
  | result (ok : Bool)
  | nothing
  deriving DecidableEq

def Op.run : Op → M C T Reply
  | .write ptr size count => do return .count (← ProtectedFs.write cr ptr size count)
  | .read ptr size count => do
    let (n, out) ← ProtectedFs.read cr ptr size count
    return .bytes n out
  | .seek newOffset origin => do return .result (← ProtectedFs.seek newOffset origin)
  | .tell => do return .position (← ProtectedFs.tell)
  | .flush => do return .result (← ProtectedFs.flush cr)
  | .clearError => do
    ProtectedFs.clearError cr
    return .nothing
  | .clearCache => do return .result (← ProtectedFs.clearCache cr)
  | .preClose => do return .result (← ProtectedFs.preClose cr)

def runOps : List Op → M C T (List Reply)
  | [] => return []
  | op :: ops => do
    let r ← op.run cr
    return r :: (← runOps ops)

/-- The state before a file object is constructed. -/
def St.initial (store : Store C T) (outcome : ℕ → Outcome C) : St C T :=
  { file :=
      { fileMetaData := default
        encryptedPartPlain := default
        rootMht := FileNode.zero C T .mht
        fileOpen := false
        openMode := ⟨false, false, false, false, false⟩
        readOnly := false
        offset := 0
        endOfFile := false
        realFileSize := 0
        needWriting := false
        lastError := .success
        fileStatus := .notInitialized
        useUserKdkKey := false
        userKdkKey := 0
        curKey := 0
        sessionMasterKey := 0
        masterKeyCount := 0
        cache := .empty }
    heap := fun _ => none
    nextAddr := 0
    store
    outcome
    clock := 0
    trace := [] }

/-- A session: the constructor and then some calls. -/
def session (args : OpenArgs) (ops : List Op) : M C T (List Reply) := do
  protectedFsFile cr args
  runOps cr ops

/-! ### Encryption that can be evaluated -/

/-- What a ciphertext of `Crypto.transparent` holds. -/
inductive Payload where
  | data (plain : Bytes 4096)
  | mht (plain : MhtNode Key)
  | metaData (plain : MetaDataEncrypted Key)

instance : Inhabited Payload := ⟨.data default⟩

/-- A ciphertext is the key and the plaintext, and the key is also its tag. -/
def Aead.transparent {P : Type} (pack : P → Payload) (unpack : Payload → Option P) :
    Aead (Key × Payload) Key P where
  encrypt key p := ((key, pack p), key)
  decrypt key c t := if c.1 = key ∧ t = key then unpack c.2 else none

/-- An instance of the cryptographic functions to run the model with: it hides
nothing, but only the right key and tag give the plaintext back. -/
def Crypto.transparent : Crypto (Key × Payload) Key where
  data := .transparent .data fun
    | .data p => some p
    | _ => none
  mht := .transparent .mht fun
    | .mht p => some p
    | _ => none
  metaData := .transparent .metaData fun
    | .metaData p => some p
    | _ => none
  cmac key input := key + input.nonce.setWidth 128
  getKey request := request.keyId.setWidth 128 + 1
  cpuSvn := 0
  isvSvn := 0

end ProtectedFs
