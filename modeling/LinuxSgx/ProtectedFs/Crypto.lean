/-
Key derivation and encryption (`file_crypto.cpp`).

AES-GCM, AES-CMAC and the `EGETKEY` leaf are parameters (`Crypto`): the source
calls them through `sgx_rijndael128GCM_encrypt`, `sgx_rijndael128_cmac_msg` and
`sgx_get_key`.  AES-GCM is used on the packed bytes of three structures, each
with the IV zero and a key that is used once, so it appears at the three
plaintext types.
-/
import LinuxSgx.ProtectedFs.State

namespace ProtectedFs

/-- Authenticated encryption of plaintexts `P` under the zero IV. -/
structure Aead (C T P : Type) where
  encrypt : Key → P → C × T
  decrypt : Key → C → T → Option P

/-- `MASTER_KEY_NAME`, `RANDOM_KEY_NAME` and `METADATA_KEY_NAME` -/
inductive KdfLabel where
  | masterKey
  | randomKey
  | metadataKey
  deriving DecidableEq, Repr

/-- `kdf_input_t`; `index` and `output_len` are constants. -/
structure KdfInput where
  label : KdfLabel
  nodeNumber : ℕ
  nonce : BitVec 256
  deriving DecidableEq

/-- The members of `sgx_key_request_t` that the source varies. -/
structure KeyRequest where
  keyId : BitVec 256
  cpuSvn : BitVec 128
  isvSvn : BitVec 16
  deriving DecidableEq

structure Crypto (C T : Type) where
  data : Aead C T (Bytes 4096)
  mht : Aead C T (MhtNode T)
  metaData : Aead C T (MetaDataEncrypted T)
  cmac : Key → KdfInput → Key
  getKey : KeyRequest → Key
  /-- `report.body.cpu_svn` -/
  cpuSvn : BitVec 128
  /-- `report.body.isv_svn` -/
  isvSvn : BitVec 16

/-- `MAX_MASTER_KEY_USAGES` -/
abbrev maxMasterKeyUsages : ℕ := 65536

variable {C T : Type} (cr : Crypto C T)

/-- `sgx_read_rand` -/
def readRand : M C T (Option (BitVec 256)) := do
  let o ← nextOutcome
  match o.fault with
  | some f => setLastError (f.code .unexpected); return none
  | none => return some o.rand

/-- A crypto call that failed reports its status in `last_error`. -/
def cryptoCall : M C T Bool := do
  match ← call with
  | some f => setLastError (f.code .unexpected); return false
  | none => return true

def generateSecureBlob (key : Key) (label : KdfLabel) (physicalNodeNumber : ℕ) :
    M C T (Option Key) := do
  match ← readRand with
  | none => return none
  | some nonce =>
    if ← cryptoCall then
      return some (cr.cmac key
        { label, nodeNumber := physicalNodeNumber,
          nonce := (nonce.setWidth 128).setWidth 256 })
    else return none

def initSessionMasterKey : M C T Bool := do
  match ← generateSecureBlob cr 0 .masterKey 0 with
  | none => return false
  | some k =>
    modify fun s => { s with file :=
      { s.file with sessionMasterKey := k, masterKeyCount := 0 } }
    return true

def deriveRandomNodeKey (physicalNodeNumber : ℕ) : M C T Bool := do
  let count := (← get).file.masterKeyCount
  modify fun s => { s with file := { s.file with masterKeyCount := (count + 1) % 2 ^ 32 } }
  let ready ← if count > maxMasterKeyUsages then initSessionMasterKey cr else pure true
  if ready then
    match ← generateSecureBlob cr (← get).file.sessionMasterKey .randomKey physicalNodeNumber with
    | none => return false
    | some k =>
      modify fun s => { s with file := { s.file with curKey := k } }
      return true
  else return false

/-- `restore` takes the nonce from the meta data instead of drawing one. -/
def generateSecureBlobFromUserKdk (restore : Bool) : M C T Bool := do
  let keyId := (← get).file.fileMetaData.plainPart.metaDataKeyId
  let nonce ← if restore then pure (some keyId) else readRand
  match nonce with
  | none => return false
  | some nonce =>
    if ← cryptoCall then
      modify fun s => { s with file :=
        { s.file with
          curKey := cr.cmac s.file.userKdkKey { label := .metadataKey, nodeNumber := 0, nonce }
          fileMetaData := { s.file.fileMetaData with
            plainPart := { s.file.fileMetaData.plainPart with
              metaDataKeyId := if restore then keyId else nonce } } } }
      return true
    else return false

def generateRandomMetaDataKey : M C T Bool := do
  if (← get).file.useUserKdkKey then generateSecureBlobFromUserKdk cr false
  else
    match ← readRand with
    | none => return false
    | some keyId =>
      if ← cryptoCall then
        modify fun s => { s with file :=
          { s.file with
            curKey := cr.getKey { keyId, cpuSvn := cr.cpuSvn, isvSvn := cr.isvSvn }
            fileMetaData := { s.file.fileMetaData with
              plainPart := { s.file.fileMetaData.plainPart with
                metaDataKeyId := keyId, cpuSvn := cr.cpuSvn, isvSvn := cr.isvSvn } } } }
        return true
      else return false

def restoreCurrentMetaDataKey (importKey : Option Key) : M C T Bool := do
  match importKey with
  | some k =>
    modify fun s => { s with file := { s.file with curKey := k } }
    return true
  | none =>
    if (← get).file.useUserKdkKey then generateSecureBlobFromUserKdk cr true
    else
      let plainPart := (← get).file.fileMetaData.plainPart
      if plainPart.metaDataKeyId = 0 then
        setLastError .fileNoKeyId
        return false
      else if ← cryptoCall then
        let request : KeyRequest :=
          { keyId := plainPart.metaDataKeyId, cpuSvn := plainPart.cpuSvn,
            isvSvn := plainPart.isvSvn }
        modify fun s => { s with file := { s.file with curKey := cr.getKey request } }
        return true
      else return false

/-- `sgx_rijndael128GCM_encrypt` -/
def gcmEncrypt {P : Type} (aead : Aead C T P) (key : Key) (p : P) : M C T (Option (C × T)) := do
  if ← cryptoCall then return some (aead.encrypt key p) else return none

/-- `sgx_rijndael128GCM_decrypt`; the GMAC is checked unless the call itself
fails. -/
def gcmDecrypt {P : Type} (aead : Aead C T P) (key : Key) (cipher : C) (gmac : T) :
    M C T (Except ErrorCode P) := do
  match ← call with
  | some f => return .error (f.code .unexpected)
  | none =>
    match aead.decrypt key cipher gmac with
    | some p => return .ok p
    | none => return .error .macMismatch

end ProtectedFs
