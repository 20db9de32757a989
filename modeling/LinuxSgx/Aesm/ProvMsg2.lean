/-
The ranges that the processing of ProvMsg2 derives from the message (epid_provision_msg2.cpp).

`proc_prov_msg2` checks the header of the message, decodes the TLVs of its body, checks them in
`msg2_integrity_checking` and decrypts one of them; the TLVs of the plaintext are checked in
`msg2_field1_msg_check_copy`.  Each time it hands out a part of a TLV the model makes a note of it.

* `procProvMsg2` — the function with its notes, the calls to other components being `Env.fails`;
* **`inside_iff`** — every range is inside the payload of its TLV if and only if the block cipher
  TLV of an accepted message has at least `IV_SIZE` bytes, which only an assertion demands.

Design notes: the decoder may run on forever, which `none` as error stands for.  What follows the
ECALL reads the message once more, for the nonce; the rest of it builds ProvMsg3.
-/
import LinuxSgx.Aesm.Tlv
import LinuxSgx.Lib.Logged

open Checks Logged

namespace Aesm

/-! ### The model -/

inductive AeError where
  | failure
  | outOfMemoryError
  | pveParameterError
  | pveMsgError
  | pveIntegrityCheckError
  | pveInsufficientMemoryError
  | pveUnexpectedError
  | pveServerBusyError
  | pveServerReportedError
  | pveRevokedError
  | pvePerformanceRekeyNotSupported
  | pveProvAttestKeyNotFound
  | pveInvalidReport
  | pveProvAttestKeyTcbOutOfDate
  | pswUpdateRequired
  | other (code : ℕ)
deriving DecidableEq, Repr

/-- The calls to other components, in their order. -/
inductive Call where
  | cmac
  | mallocField1
  | decrypt
  | loadPce
  | pceGetTarget
  | sha256
  | readXegb
  | mallocEpidSig
  | loadPve
  | procProvMsg2Data
  | loadPceAgain
  | pceSignReport
  | readRand
  | genMsg3Header
deriving DecidableEq, Repr

/-- What `proc_prov_msg2` finds around it. -/
structure Env where
  pceService : Bool
  -- no old blob, or one of the right size
  epidBlobOk : Bool
  msg3Size : UInt32
  xid : List UInt8
  psidHash : List UInt8
  fails : Call → Option AeError
  malloc : ℕ → Bool
  mallocField1 : ℕ → Bool
  -- what the decryption writes
  plaintext : ℕ → UInt8

/-- `length` bytes at `start`, taken from a TLV. -/
structure Range where
  tlv : TlvInfo
  start : ℕ
  length : ℕ
deriving DecidableEq, Repr

/-- The range is in the payload of its TLV. -/
def Range.Inside (r : Range) : Prop :=
  r.tlv.payload ≤ r.start ∧ r.start + r.length ≤ r.tlv.payload + r.tlv.size.toNat

abbrev Run (α : Type) := Logged Range (Option AeError) α

def ivSize : UInt32 := 12

def Buffer.drop (buf : Buffer) (n : ℕ) : Buffer :=
  ⟨buf.1.drop n, Nat.lt_of_le_of_lt (List.length_drop ▸ Nat.sub_le ..) buf.2⟩

def Buffer.ofFn (f : ℕ → UInt8) (n : UInt32) : Buffer :=
  ⟨(List.range n.toNat).map f, by simpa using n.toNat_lt⟩

def Buffer.bytes (buf : Buffer) (start n : ℕ) : List UInt8 :=
  (List.range n).map fun i => buf.byte (start + i)

def tlvError2PveError : TlvStatus → AeError
  | .invalidParameterError => .pveParameterError
  | .invalidMsgError | .invalidFormat => .pveMsgError
  | .insufficientMemory => .pveInsufficientMemoryError
  | .outOfMemoryError => .outOfMemoryError
  | _ => .pveUnexpectedError

/-- `init_from_buffer`: where the decoder ends it needs no more rounds than there are bytes. -/
def initFromBuffer (malloc : ℕ → Bool) (buf : Buffer) : Except (Option AeError) (List TlvInfo) :=
  match initFromTlvMsg malloc buf (buf.1.length + 1) with
  | none => .error none
  | some (.success, t) => .ok t.infos
  | some (e, _) => .error (some (tlvError2PveError e))

def Env.ask (x : Env) (c : Call) : Run Unit := lift (Checks.ask (fun c => (x.fails c).map some) c)

def demand (p : Prop) [Decidable p] (e : AeError) : Run Unit := lift (require p (some e))

/-- `check_epid_pve_pg_status_before_mac_verification`. -/
def statusBeforeMac (gstatus : ℕ) : Option AeError :=
  match gstatus with
  | 0 | 6 => none
  | 1 => some .pveServerBusyError
  | 2 => some .pveIntegrityCheckError
  | 3 => some .pveMsgError
  | 4 => some .pswUpdateRequired
  | _ => some .pveServerReportedError

/-- `check_epid_pve_pg_status_after_mac_verification`. -/
def statusAfterMac (gstatus pstatus : ℕ) : Option AeError :=
  match gstatus, pstatus with
  | 0, 0 => none
  | 6, 1 | 6, 8 => some .pveRevokedError
  | 6, 2 => some .pveIntegrityCheckError
  | 6, 3 => some .pvePerformanceRekeyNotSupported
  | 6, 6 => some .pveProvAttestKeyNotFound
  | 6, 7 => some .pveInvalidReport
  | 6, 9 => some .pveProvAttestKeyTcbOutOfDate
  | _, _ => some .pveServerReportedError

def Buffer.gstatus (msg2 : Buffer) : ℕ := (ntohs (msg2.byte 11) (msg2.byte 12)).toNat

def Buffer.pstatus (msg2 : Buffer) : ℕ := (ntohs (msg2.byte 13) (msg2.byte 14)).toNat

/-- `check_prov_msg2_header`: the sum is one of `size_t`. -/
def checkProvMsg2Header (msg2 : Buffer) : Except (Option AeError) Unit := do
  require (msg2.byte 0 = 0 ∧ msg2.byte 10 = 1 ∧ msg2.byte 1 = 2) (some .pveIntegrityCheckError)
  require ((ntohl (msg2.byte 15) (msg2.byte 16) (msg2.byte 17) (msg2.byte 18)).toNat + 19 =
    msg2.1.length) (some .pveIntegrityCheckError)

/-- The checks of `proc_prov_msg2` before the body is decoded. -/
def entryChecks (x : Env) (msg2 : Buffer) : Except (Option AeError) Unit := do
  require (x.pceService = true) (some .pveUnexpectedError)
  require (19 ≤ msg2.1.length) (some .pveMsgError)
  require (x.epidBlobOk = true) (some .pveUnexpectedError)
  require (15 ≤ x.msg3Size) (some .pveInsufficientMemoryError)
  checkProvMsg2Header msg2
  require (msg2.bytes 2 8 = x.xid) (some .failure)
  Checks.ask (fun s => (statusBeforeMac s).map some) msg2.gstatus

/-- The TLVs of the body, as the macros name them; there are three or four. -/
structure Msg2Fields where
  nonce : TlvInfo
  data : TlvInfo
  mac : TlvInfo
  sigrl : Option TlvInfo

def msg2Fields : List TlvInfo → Except (Option AeError) Msg2Fields
  | [nonce, data, mac] => .ok ⟨nonce, data, mac, none⟩
  | [nonce, data, mac, sigrl] => .ok ⟨nonce, data, mac, some sigrl⟩
  | _ => .error (some .pveIntegrityCheckError)

/-- A TLV of version 1 with a small header, of this type and this size. -/
def TlvInfo.Is (t : TlvInfo) (type : UInt8) (size : UInt32) : Prop :=
  t.type = type ∧ t.version = 1 ∧ t.size = size ∧ t.headerSize = 4

instance (t : TlvInfo) (type : UInt8) (size : UInt32) : Decidable (t.Is type size) :=
  inferInstanceAs (Decidable (_ ∧ _))

/-- What `msg2_integrity_checking` demands of the SIG-RL, with
`verify_sigrl_cert_type_version`. -/
def checkSigrl (body : Buffer) : Option TlvInfo → Run Unit
  | none => pure ()
  | some s => do
    demand (s.type = 6 ∧ s.version = 1) .pveIntegrityCheckError
    demand (208 ≤ s.size) .pveIntegrityCheckError
    demand (s.headerSize = 6) .pveIntegrityCheckError
    note ⟨s, s.payload, 4⟩
    demand (body.bytes s.payload 4 = [0, 2, 0, 14]) .pveIntegrityCheckError

def msg2IntegrityChecking (body : Buffer) (f : Msg2Fields) : Run Unit := do
  demand (f.nonce.Is 4 8) .pveIntegrityCheckError
  demand (f.data.type = 1 ∧ f.data.version = 1) .pveIntegrityCheckError
  demand (f.mac.Is 3 16) .pveIntegrityCheckError
  checkSigrl body f.sigrl

def blockCipherTlvGetIv (t : TlvInfo) : ℕ := t.payload

def blockCipherTlvGetEncryptedText (t : TlvInfo) : TlvMsg :=
  ⟨t.payload + ivSize.toNat, t.size - ivSize⟩

/-- The TLVs of the decrypted field: the previous platform info and group may be missing. -/
structure Field1 where
  groupCert : TlvInfo
  psid : TlvInfo
  nonce : TlvInfo
  platInfo : TlvInfo
  prev : Option (TlvInfo × TlvInfo)

def field1Fields : List TlvInfo → Except (Option AeError) Field1
  | [cert, psid, nonce, info] => .ok ⟨cert, psid, nonce, info, none⟩
  | [cert, psid, nonce, prevPi, prevGid, info] =>
    .ok ⟨cert, psid, nonce, info, some (prevPi, prevGid)⟩
  | _ => .error (some .pveMsgError)

def checkPrev : Option (TlvInfo × TlvInfo) → Run Unit
  | none => pure ()
  | some (prevPi, prevGid) => do
    demand (prevPi.Is 24 26) .pveMsgError
    demand (prevGid.Is 5 4) .pveMsgError
    note ⟨prevGid, prevGid.payload, prevGid.size.toNat⟩
    note ⟨prevPi, prevPi.payload, prevPi.size.toNat⟩

def msg2Field1MsgCheckCopy (x : Env) (plain : Buffer) (infos : List TlvInfo) : Run Unit := do
  let f ← lift (field1Fields infos)
  checkPrev f.prev
  demand (f.groupCert.Is 7 328 ∧ f.psid.Is 9 32 ∧ f.nonce.Is 4 32 ∧ f.platInfo.Is 24 26) .pveMsgError
  x.ask .sha256
  note ⟨f.psid, f.psid.payload, 32⟩
  demand (plain.bytes f.psid.payload 32 = x.psidHash) .pveMsgError
  note ⟨f.groupCert, f.groupCert.payload, f.groupCert.size.toNat⟩
  note ⟨f.nonce, f.nonce.payload, f.nonce.size.toNat⟩
  note ⟨f.platInfo, f.platInfo.payload, 26⟩

def estimateEpidSigSize (sigrlSize : ℕ) : ℕ :=
  if sigrlSize = 80 ∨ sigrlSize = 0 then 366
  else if sigrlSize < 80 then 0
  else
    let totalSize := 366 + 160 * ((sigrlSize - 80) / 128)
    if 2 ^ 32 ≤ totalSize then 0 else totalSize

/-- Version and group of the SIG-RL go into the additional data. -/
def noteAad : Option TlvInfo → Run Unit
  | none => pure ()
  | some s => do
    note ⟨s, s.payload + 8, 4⟩
    note ⟨s, s.payload + 4, 4⟩

/-- The SIG-RL goes to the provisioning enclave as a whole. -/
def noteSigrl : Option TlvInfo → Run Unit
  | none => pure ()
  | some s => note ⟨s, s.payload, s.size.toNat⟩

/-- The part of `proc_prov_msg2` that works on the decrypted field. -/
def procField1 (x : Env) (msg2 : Buffer) (f : Msg2Fields) : Run Unit := do
  x.ask .mallocField1
  note ⟨f.data, blockCipherTlvGetIv f.data, 12⟩
  note ⟨f.mac, f.mac.payload, 16⟩
  x.ask .decrypt
  lift (Checks.ask (fun s => (statusAfterMac msg2.gstatus s).map some) msg2.pstatus)
  let plain := Buffer.ofFn x.plaintext (blockCipherTlvGetEncryptedText f.data).msgSize
  let infos ← lift (initFromBuffer x.mallocField1 plain)
  x.ask .loadPce
  x.ask .pceGetTarget
  msg2Field1MsgCheckCopy x plain infos
  x.ask .readXegb
  demand (estimateEpidSigSize (f.sigrl.elim 0 (·.size.toNat)) ≠ 0) .pveMsgError
  x.ask .mallocEpidSig
  x.ask .loadPve
  noteSigrl f.sigrl
  x.ask .procProvMsg2Data
  x.ask .loadPceAgain
  x.ask .pceSignReport
  x.ask .readRand
  x.ask .genMsg3Header
  note ⟨f.nonce, f.nonce.payload, 8⟩

def procProvMsg2 (x : Env) (msg2 : Buffer) : Run Unit := do
  lift (entryChecks x msg2)
  let infos ← lift (initFromBuffer x.malloc (msg2.drop 19))
  let f ← lift (msg2Fields infos)
  msg2IntegrityChecking (msg2.drop 19) f
  note ⟨f.nonce, f.nonce.payload, f.nonce.size.toNat⟩
  x.ask .cmac
  noteAad f.sigrl
  let field1 := blockCipherTlvGetEncryptedText f.data
  note ⟨f.data, field1.msgBuf, field1.msgSize.toNat⟩
  procField1 x msg2 f

/-! ### The ranges -/

variable {x : Env} {msg2 body plain : Buffer} {f : Msg2Fields}

@[simp] theorem all_ask {c : Call} : All Range.Inside (x.ask c) := all_lift

@[simp] theorem all_demand {p : Prop} [Decidable p] {e : AeError} :
    All Range.Inside (demand p e) := all_lift

@[simp] theorem res_demand {p : Prop} [Decidable p] {e : AeError} {a : Unit} :
    (demand p e).res = .ok a ↔ p := require_eq_ok

variable {s : Option TlvInfo}

@[simp] theorem res_noteAad : (noteAad s).res = .ok () := by
  cases s with
  | none | some => rfl

variable {t : TlvInfo}

/-- A prefix of the payload. -/
@[simp] theorem inside_payload {n : ℕ} : Range.Inside ⟨t, t.payload, n⟩ ↔ n ≤ t.size.toNat := by
  simp [Range.Inside]

theorem all_checkSigrl : All Range.Inside (checkSigrl body s) := by
  cases s with
  | none => exact all_pure
  | some s =>
    suffices hsize : 208 ≤ s.size → 4 ≤ s.size.toNat by simpa [checkSigrl] using fun _ _ h _ => hsize h
    exact fun h => Nat.le_trans (by decide) (UInt32.le_iff_toNat_le.mp h)

/-- The SIG-RL of an accepted message holds the fields of its header. -/
theorem all_noteAad (h : (checkSigrl body s).res = .ok ()) : All Range.Inside (noteAad s) := by
  cases s with
  | none => exact all_pure
  | some s =>
    simp only [checkSigrl, res_bind, res_demand, UInt32.le_iff_toNat_le] at h
    obtain ⟨_, -, _, hsize, -⟩ := h
    have hlen : 208 ≤ s.size.toNat := hsize
    simp only [noteAad, all_bind, all_note, res_note, Range.Inside]
    exact ⟨by omega, fun _ _ => by omega⟩

theorem all_noteSigrl : All Range.Inside (noteSigrl s) := by
  cases s with
  | none => exact all_pure
  | some s => simp [noteSigrl]

theorem TlvInfo.Is.toNat_size {type : UInt8} {size : UInt32} (h : t.Is type size) :
    t.size.toNat = size.toNat := congrArg _ h.2.2.1

theorem all_msg2Field1MsgCheckCopy {infos : List TlvInfo} :
    All Range.Inside (msg2Field1MsgCheckCopy x plain infos) := by
  have hprev (p : Option (TlvInfo × TlvInfo)) : All Range.Inside (checkPrev p) := by
    cases p with
    | none => exact all_pure
    | some p => simp [checkPrev]
  have hsizes (f : Field1) (hpsid : f.psid.Is 9 32) (hinfo : f.platInfo.Is 24 26) :
      32 ≤ f.psid.size.toNat ∧ 26 ≤ f.platInfo.size.toNat := by
    rw [hpsid.toNat_size, hinfo.toNat_size]
    exact ⟨Nat.le_refl _, Nat.le_refl _⟩
  simpa [msg2Field1MsgCheckCopy, hprev] using fun f _ _ _ _ hpsid _ hinfo _ _ =>
    ⟨(hsizes f hpsid hinfo).1, fun _ => (hsizes f hpsid hinfo).2⟩

theorem of_msg2IntegrityChecking (h : (msg2IntegrityChecking body f).res = .ok ()) :
    f.nonce.Is 4 8 ∧ f.mac.Is 3 16 ∧ (checkSigrl body f.sigrl).res = .ok () := by
  simp only [msg2IntegrityChecking, res_bind, res_demand] at h
  obtain ⟨_, hnonce, _, -, _, hmac, hsigrl⟩ := h
  exact ⟨hnonce, hmac, hsigrl⟩

theorem all_procField1 (h : (msg2IntegrityChecking body f).res = .ok ())
    (hiv : ivSize ≤ f.data.size) : All Range.Inside (procField1 x msg2 f) := by
  obtain ⟨hnonce, hmac, -⟩ := of_msg2IntegrityChecking h
  have hlen : 12 ≤ f.data.size.toNat := UInt32.le_iff_toNat_le.mp hiv
  simp [procField1, all_noteSigrl, all_msg2Field1MsgCheckCopy, blockCipherTlvGetIv,
    hnonce.toNat_size, hmac.toNat_size, hlen]

/-- The size of the text wraps around where the vector does not fit. -/
theorem inside_encryptedText :
    Range.Inside ⟨t, (blockCipherTlvGetEncryptedText t).msgBuf,
      (blockCipherTlvGetEncryptedText t).msgSize.toNat⟩ ↔ ivSize ≤ t.size := by
  simp only [Range.Inside, blockCipherTlvGetEncryptedText]
  constructor
  · intro h
    rw [UInt32.le_iff_toNat_le]
    omega
  · intro h
    have hle := UInt32.le_iff_toNat_le.mp h
    rw [UInt32.toNat_sub_of_le _ _ h]
    omega

/-- The checks in front of the block cipher TLV accept the message, with these fields. -/
def Accepts (x : Env) (msg2 : Buffer) (f : Msg2Fields) : Prop :=
  entryChecks x msg2 = .ok () ∧
  (∃ infos, initFromBuffer x.malloc (msg2.drop 19) = .ok infos ∧ msg2Fields infos = .ok f) ∧
  (msg2IntegrityChecking (msg2.drop 19) f).res = .ok () ∧ x.fails .cmac = none

theorem res_ask {c : Call} : (x.ask c).res = .ok () ↔ x.fails c = none := by
  rw [Env.ask, res_lift, Checks.ask]
  cases x.fails c with
  | none | some => simp

/-- What is left once the checks have passed. -/
theorem all_procProvMsg2 : All Range.Inside (procProvMsg2 x msg2) ↔
    ∀ f, Accepts x msg2 f → ivSize ≤ f.data.size ∧ All Range.Inside (procField1 x msg2 f) := by
  have hcheck (body f) : All Range.Inside (msg2IntegrityChecking body f) := by
    simp [msg2IntegrityChecking, all_checkSigrl]
  simp only [procProvMsg2, all_bind, all_lift, all_note, all_ask, res_lift, hcheck,
    inside_payload, inside_encryptedText, res_note, res_noteAad, true_and, forall_const]
  constructor
  · rintro h f ⟨hentry, ⟨infos, hinit, hfields⟩, hres, hcmac⟩
    exact ((h () hentry infos hinit f hfields () hres).2 () (res_ask.mpr hcmac)).2
  · intro h _ hentry infos hinit f hfields _ hres
    exact ⟨Nat.le_refl _, fun _ hcmac => ⟨all_noteAad (of_msg2IntegrityChecking hres).2.2,
      h f ⟨hentry, ⟨infos, hinit, hfields⟩, hres, res_ask.mp hcmac⟩⟩⟩

/-- **The ranges of ProvMsg2.**  Every range that the processing derives from the message is inside
the payload of its TLV if and only if the block cipher TLV of an accepted message has room for the
initialisation vector. -/
theorem inside_iff (x : Env) (msg2 : Buffer) :
    (∀ r ∈ (procProvMsg2 x msg2).log, r.Inside) ↔
      ∀ f, Accepts x msg2 f → ivSize ≤ f.data.size := by
  rw [← All, all_procProvMsg2]
  exact ⟨fun h f hf => (h f hf).1, fun h f hf => ⟨h f hf, all_procField1 hf.2.2.1 (h f hf)⟩⟩

/-- A message of 55 bytes whose block cipher TLV is empty: the text is 4 GiB less 12 bytes. -/
theorem text_outside :
    ⟨⟨1, 1, 4, 0, 16⟩, 28, 2 ^ 32 - 12⟩ ∈ (procProvMsg2
      { pceService := true, epidBlobOk := true, msg3Size := 15, xid := List.replicate 8 0
        psidHash := [], fails := fun c => if c = .cmac then none else some .failure
        malloc := fun _ => true, mallocField1 := fun _ => true, plaintext := fun _ => 0 }
      ⟨[0, 2, 0, 0, 0, 0, 0, 0, 0, 0, 1, 0, 0, 0, 0, 0, 0, 0, 36] ++
        [4, 1, 0, 8] ++ List.replicate 8 0 ++ [1, 1, 0, 0] ++ [3, 1, 0, 16] ++ List.replicate 16 0,
        by decide⟩).log ∧
    ¬Range.Inside ⟨⟨1, 1, 4, 0, 16⟩, 28, 2 ^ 32 - 12⟩ := by
  refine ⟨by decide +kernel, ?_⟩
  rw [Range.Inside]
  decide

end Aesm
