/-
Sealing of data (`tSeal.cpp`, `tSeal_aad.cpp`, `tSeal_internal.cpp`, `tSeal_util.cpp`).

A sealed blob has a header with a key request and two lengths, and a payload: the encrypted text,
and behind it the additional data in plain.  The key is derived from the request, which has a random
key identifier, and the initialization vector is zero.

* `sealDataEx`, `macAadataEx` — the two ways to make a blob;
* `unsealData`, `unmacAadata` — the two ways to open it;
* `Platform` — what they use: the enclave's range and report, `sgx_get_key` and AES-GCM.

The additional data may lie outside the enclave.  It is read twice, by the encryption
and by the copy into the blob, so that a call has two memories.  A call that opens a blob clears
its output buffers before it decrypts; it is modelled for buffers that lie apart (`Apart`).
-/
import LinuxSgx.Lib.Aead
import Mathlib.Algebra.Group.Nat.Defs

namespace Sealing

inductive Status where
  | invalidParameter
  | unexpected
  | outOfMemory
  | macMismatch
  | invalidCpusvn
  | invalidIsvsvn
  | invalidAttribute
  | invalidKeyname
  deriving DecidableEq

/-- `sgx_key_request_t`. -/
structure KeyRequest where
  keyName : UInt16
  keyPolicy : UInt16
  isvSvn : UInt16
  reserved1 : UInt16
  cpuSvn : Vector UInt8 16
  attributeFlags : UInt64
  attributeXfrm : UInt64
  keyId : Vector UInt8 32
  miscMask : UInt32
  configSvn : UInt16
  reserved2 : Vector UInt8 434
  deriving DecidableEq

/-- `sgx_sealed_data_t`; the payload is the memory behind the header. -/
structure SealedData (T : Type) where
  keyRequest : KeyRequest
  plainTextOffset : UInt32
  payloadSize : UInt32
  payloadTag : T
  payload : ℕ → UInt8

/-- The enclave, its platform and its crypto library. -/
structure Platform (K T : Type) where
  within : UInt64 → UInt32 → Bool
  outside : UInt64 → UInt32 → Bool
  cpuSvn : Vector UInt8 16
  isvSvn : UInt16
  configSvn : UInt16
  getKey : KeyRequest → Except Status K
  gcm : Aead.Scheme K UInt8 T
  /-- the lengths of texts and of additional data that the library takes -/
  gcmAccepts : UInt32 → UInt32 → Bool

variable {K T : Type}

/-! ### Lengths -/

def uint32Max : UInt32 := 0xffffffff

/-- `sizeof(sgx_sealed_data_t)`. -/
def sizeofSealedData : UInt32 := 560

/-- `sgx_calc_sealed_data_size`. -/
def calcSealedDataSize (addMacTxtSize txtEncryptSize : UInt32) : UInt32 :=
  if addMacTxtSize > uint32Max - txtEncryptSize then uint32Max
  else
    let payloadSize := addMacTxtSize + txtEncryptSize
    if payloadSize > uint32Max - sizeofSealedData then uint32Max
    else sizeofSealedData + payloadSize

/-- `sgx_get_add_mac_txt_len`. -/
def getAddMacTxtLen (d : SealedData T) : UInt32 :=
  let dataSize := d.payloadSize - d.plainTextOffset
  if dataSize > d.payloadSize then uint32Max else dataSize

/-- `sgx_get_encrypt_txt_len`. -/
def getEncryptTxtLen (d : SealedData T) : UInt32 := d.plainTextOffset

/-! ### Memory -/

/-- The bytes at `p`. -/
def read (m : UInt64 → UInt8) (p : UInt64) (n : UInt32) : List UInt8 :=
  (List.range n.toNat).map fun i => m (p + UInt64.ofNat i)

/-- The bytes of a payload from `offset` on. -/
def slice (payload : ℕ → UInt8) (offset n : UInt32) : List UInt8 :=
  (List.range n.toNat).map fun i => payload (offset.toNat + i)

/-- One of the checks on the parameters. -/
def check (b : Bool) (e : Status) : Except Status Unit := if b then .ok () else .error e

/-! ### Sealing -/

/-- The arguments of `sgx_seal_data_ex`, and of `sgx_mac_aadata_ex` with those of the text left
out. -/
structure SealArgs where
  keyPolicy : UInt16
  attributeFlags : UInt64
  attributeXfrm : UInt64
  miscMask : UInt32
  aadLength : UInt32
  aadPtr : UInt64
  textLength : UInt32
  textPtr : UInt64
  sealedDataSize : UInt32
  sealedPtr : UInt64

/-- How `sgx_get_key` and AES-GCM fail in a call, for want of memory above all. -/
structure Faults where
  getKey : Option Status
  gcm : Option Status
  deriving DecidableEq

def Faults.none : Faults := ⟨.none, .none⟩

/-- The answer of a callee that may fail. -/
def answer {α : Type} (fault : Option Status) (r : Except Status α) : Except Status α :=
  match fault with
  | .none => r
  | .some e => .error e

/-- What a call meets: the random key identifier, the memory when the encryption reads it and
when the additional data is copied, and the faults. -/
structure Chance where
  keyId : Except Status (Vector UInt8 32)
  early : UInt64 → UInt8
  late : UInt64 → UInt8
  faults : Faults

def keyPolicyAll : UInt16 := 0x3f

/-- Neither reserved bits nor neither of the measurement registers. -/
def keyPolicyOk (policy : UInt16) : Bool := policy &&& ~~~keyPolicyAll == 0 && policy &&& 3 != 0

/-- `SGX_FLAGS_INITTED` and `SGX_FLAGS_DEBUG` are in the mask. -/
def attributesOk (flags : UInt64) : Bool := flags &&& 1 != 0 && flags &&& 2 != 0

/-- `SGX_KEYSELECT_SEAL`. -/
def keyselectSeal : UInt16 := 4

/-- The key request of a new blob. -/
def newKeyRequest (pf : Platform K T) (a : SealArgs) (keyId : Vector UInt8 32) : KeyRequest where
  keyName := keyselectSeal
  keyPolicy := a.keyPolicy
  isvSvn := pf.isvSvn
  reserved1 := 0
  cpuSvn := pf.cpuSvn
  attributeFlags := a.attributeFlags
  attributeXfrm := a.attributeXfrm
  keyId := keyId
  miscMask := a.miscMask
  configSvn := pf.configSvn
  reserved2 := Vector.replicate 434 0

/-- A blob together with the encryption that made it. -/
structure Sealed (K T : Type) where
  blob : SealedData T
  entry : Aead.Entry K UInt8

/-- The status of `sgx_seal_data_iv` if there is no key. -/
def sealKeyError : Status → Status
  | .outOfMemory => .outOfMemory
  | _ => .unexpected

/-- `sgx_seal_data_iv`, with the bytes that it reads: the additional data of the encryption,
the text, and the additional data of the copy. -/
def sealDataIv (pf : Platform K T) (f : Faults) (aadLength textLength : UInt32)
    (aad text copied : List UInt8) (request : KeyRequest) : Except Status (Sealed K T) :=
  match answer f.getKey (pf.getKey request) with
  | .error e => .error (sealKeyError e)
  | .ok key =>
    if pf.gcmAccepts textLength aadLength then
      let c := pf.gcm.encrypt key aad text
      answer f.gcm (.ok {
        blob := {
          keyRequest := request
          plainTextOffset := textLength
          payloadSize := aadLength + textLength
          payloadTag := c.2
          payload := fun i => (c.1 ++ copied).getD i 0 }
        entry := ⟨key, aad, text⟩ })
    else .error .invalidParameter

/-- The additional data does not cross the boundary of the enclave. -/
def oneSide (pf : Platform K T) (p : UInt64) (n : UInt32) : Bool := pf.within p n || pf.outside p n

/-- `sgx_seal_data_ex`. -/
def sealDataEx (pf : Platform K T) (a : SealArgs) (x : Chance) : Except Status (Sealed K T) := do
  let size := calcSealedDataSize a.aadLength a.textLength
  check (size != uint32Max) .invalidParameter
  check (keyPolicyOk a.keyPolicy) .invalidParameter
  check (attributesOk a.attributeFlags) .invalidParameter
  check (!(a.aadLength > 0 && a.aadPtr == 0)) .invalidParameter
  check (!(a.textLength == 0 || a.textPtr == 0 || !pf.within a.textPtr a.textLength))
    .invalidParameter
  check (!(a.sealedPtr == 0 || !pf.within a.sealedPtr a.sealedDataSize)) .invalidParameter
  check (!(a.aadLength > 0 && !oneSide pf a.aadPtr a.aadLength)) .invalidParameter
  check (size == a.sealedDataSize) .invalidParameter
  let keyId ← x.keyId
  sealDataIv pf x.faults a.aadLength a.textLength (read x.early a.aadPtr a.aadLength)
    (read x.early a.textPtr a.textLength) (read x.late a.aadPtr a.aadLength)
    (newKeyRequest pf a keyId)

/-- `sgx_mac_aadata_ex`: no text. -/
def macAadataEx (pf : Platform K T) (a : SealArgs) (x : Chance) : Except Status (Sealed K T) := do
  let size := calcSealedDataSize a.aadLength 0
  check (size != uint32Max) .invalidParameter
  check (keyPolicyOk a.keyPolicy) .invalidParameter
  check (attributesOk a.attributeFlags) .invalidParameter
  check (!(a.aadLength == 0 || a.aadPtr == 0)) .invalidParameter
  check (oneSide pf a.aadPtr a.aadLength) .invalidParameter
  check (!(a.sealedPtr == 0 || !pf.within a.sealedPtr a.sealedDataSize)) .invalidParameter
  check (size == a.sealedDataSize) .invalidParameter
  let keyId ← x.keyId
  sealDataIv pf x.faults a.aadLength 0 (read x.early a.aadPtr a.aadLength) []
    (read x.late a.aadPtr a.aadLength) (newKeyRequest pf a keyId)

/-! ### Unsealing -/

/-- The arguments of `sgx_unseal_data`, with the values of the two lengths when they are read and
the faults; `sgx_unmac_aadata` has those of the additional data. -/
structure UnsealArgs where
  sealedPtr : UInt64
  aadPtr : UInt64
  aadLengthPtr : UInt64
  aadLength : UInt32
  textPtr : UInt64
  textLengthPtr : UInt64
  textLength : UInt32
  faults : Faults

/-- Two ranges of memory have no byte in common. -/
def Disjoint (x y : UInt64 × UInt32) : Prop :=
  x.2 = 0 ∨ y.2 = 0 ∨ x.1.toNat + x.2.toNat ≤ y.1.toNat ∨ y.1.toNat + y.2.toNat ≤ x.1.toNat

instance (x y : UInt64 × UInt32) : Decidable (Disjoint x y) :=
  inferInstanceAs (Decidable (_ ∨ _ ∨ _ ∨ _))

/-- The blob and what a call writes lie apart. -/
def Apart (d : SealedData T) (a : UnsealArgs) : Prop :=
  [(a.sealedPtr, calcSealedDataSize (getAddMacTxtLen d) (getEncryptTxtLen d)),
    (a.textPtr, getEncryptTxtLen d), (a.aadPtr, getAddMacTxtLen d), (a.textLengthPtr, 4),
    (a.aadLengthPtr, 4)].Pairwise Disjoint

/-- The status of `sgx_unseal_data_helper` if there is no key. -/
def unsealKeyError : Status → Status
  | .invalidCpusvn => .invalidCpusvn
  | .invalidIsvsvn => .invalidIsvsvn
  | .outOfMemory => .outOfMemory
  | _ => .macMismatch

section Unseal

variable [DecidableEq K] [DecidableEq T]

/-- `sgx_unseal_data_helper`: the text and the additional data. -/
def unsealDataHelper (pf : Platform K T) (log : List (Aead.Entry K UInt8)) (f : Faults)
    (d : SealedData T) (aadLength textLength : UInt32) : Except Status (List UInt8 × List UInt8) :=
  match answer f.getKey (pf.getKey d.keyRequest) with
  | .error e => .error (unsealKeyError e)
  | .ok key =>
    if pf.gcmAccepts textLength aadLength then
      let aad := slice d.payload textLength aadLength
      match pf.gcm.decrypt log key aad (slice d.payload 0 textLength) d.payloadTag with
      | none => .error .macMismatch
      | some text => answer f.gcm (.ok (text, aad))
    else .error .invalidParameter

/-- `sgx_unseal_data`. -/
def unsealData (pf : Platform K T) (log : List (Aead.Entry K UInt8)) (d : SealedData T)
    (a : UnsealArgs) : Except Status (List UInt8 × List UInt8) := do
  check (!(a.sealedPtr == 0 || !pf.within a.sealedPtr sizeofSealedData)) .invalidParameter
  let textLength := getEncryptTxtLen d
  check (textLength != uint32Max) .macMismatch
  let aadLength := getAddMacTxtLen d
  check (aadLength != uint32Max) .macMismatch
  let size := calcSealedDataSize aadLength textLength
  check (size != uint32Max) .macMismatch
  check (pf.within a.sealedPtr size) .invalidParameter
  check (!(aadLength > 0 && (a.aadPtr == 0 || a.aadLengthPtr == 0))) .invalidParameter
  check (!(textLength < 1 || a.textPtr == 0 || a.textLengthPtr == 0)) .invalidParameter
  check (pf.within a.textLengthPtr 4) .invalidParameter
  check (!(a.textLength < textLength)) .invalidParameter
  check (pf.within a.textPtr a.textLength) .invalidParameter
  check (!(a.aadLengthPtr != 0 && !oneSide pf a.aadLengthPtr 4)) .invalidParameter
  let room := if a.aadLengthPtr != 0 then a.aadLength else 0
  check (!(room < aadLength)) .invalidParameter
  check (!(aadLength > 0 && !oneSide pf a.aadPtr room)) .invalidParameter
  unsealDataHelper pf log a.faults d aadLength textLength

/-- `sgx_unmac_aadata`: a blob without a text. -/
def unmacAadata (pf : Platform K T) (log : List (Aead.Entry K UInt8)) (d : SealedData T)
    (a : UnsealArgs) : Except Status (List UInt8 × List UInt8) := do
  check (!(a.sealedPtr == 0 || !pf.within a.sealedPtr sizeofSealedData)) .invalidParameter
  let textLength := getEncryptTxtLen d
  check (!(textLength != 0)) .macMismatch
  let aadLength := getAddMacTxtLen d
  check (!(aadLength == uint32Max || aadLength == 0)) .macMismatch
  let size := calcSealedDataSize aadLength textLength
  check (size != uint32Max) .macMismatch
  check (pf.within a.sealedPtr size) .invalidParameter
  check (!(a.aadPtr == 0 || a.aadLengthPtr == 0)) .invalidParameter
  check (oneSide pf a.aadLengthPtr 4) .invalidParameter
  check (!(a.aadLength < aadLength)) .invalidParameter
  check (oneSide pf a.aadPtr a.aadLength) .invalidParameter
  unsealDataHelper pf log a.faults d aadLength textLength

end Unseal

end Sealing
