/-
Local attestation sessions (`ec_dh.cpp`).

Two enclaves on one platform agree on a key.  The responder sends a public key, the initiator
answers with its own one and a report for the responder, and the responder with a report for the
initiator.  There are two versions of the reports and of what is covered by a MAC; an initiator uses
one of them, a responder finds out.

The cryptography is ideal: keys, digests and tags are terms.  A 64-byte value is a public key, a
digest of two such values, a protocol specification or something else; a shared secret is
the pair of the public keys.

* `Session`, `genMsg1`, `procMsg1`, `procMsg2`, `procMsg3` — the memory of a session and the calls;
* `Clean` — no secret is left;
* `genMsg1_spec`, `procMsg1_spec`, `procMsg2_spec`, `procMsg3_spec` — a call that fails leaves
  nothing behind, and what a call has checked that succeeds;
* `procMsg3_noFaults` and the lemmas before it — two sessions whose messages arrive.
-/
import LinuxSgx.Lib.Checks
import Mathlib.Algebra.Group.Nat.Defs
import Mathlib.Data.Nat.Basic

open Checks

namespace LocalAttest

inductive Status where
  | invalidParameter
  | invalidState
  | unexpected
  | outOfMemory
  | kdfMismatch
  | macMismatch
  deriving DecidableEq

inductive Role where
  | initiator
  | responder
  deriving DecidableEq

/-- LAv1 and LAv2. -/
inductive Version where
  | v1
  | v2
  deriving DecidableEq

/-- `sgx_dh_session_state_t`. -/
inductive SessionState where
  | error
  | reset
  | responderWaitM2
  | initiatorWaitM1
  | initiatorWaitM3
  | active
  deriving DecidableEq

/-! ### Values -/

/-- Private keys: the one a session draws, and those of anybody else. -/
inductive Exponent where
  | session (i : ℕ)
  | outside (n : ℕ)
  deriving DecidableEq

/-- The 64 bytes of a protocol specification. -/
structure ProtoSpec where
  signature : List ℕ
  ver : ℕ
  rev : ℕ
  targetSpec : List ℕ
  deriving DecidableEq

/-- `LAv2_proto_spec`; the signature is the text "SGX LA". -/
def lav2ProtoSpec : ProtoSpec where
  signature := [83, 71, 88, 32, 76, 65]
  ver := 2
  rev := 0
  targetSpec := [0x0600, 0x0405, 0x0304, 0x0140, 0x1041, 0x0102, 0x0C06] ++ List.replicate 21 0

/-- 64 bytes.  `digest` is a hash of 128 bytes followed by 32 bytes, which are given as a number. -/
inductive Blob where
  | pub (n : Exponent)
  | digest (first second : Blob) (tail : ℕ)
  | spec (s : ProtoSpec)
  | other (n : ℕ)
  deriving DecidableEq

/-- The two bytes after a hash, which say how keys are derived. -/
def Blob.kdfId : Blob → ℕ
  | .pub _ => 0
  | .digest _ _ tail => tail % 2 ^ 16
  | .spec s => s.targetSpec.getD 12 0
  | .other n => n % 2 ^ 16

def aesCmacKdfId : ℕ := 1

/-- The first 32 bytes are the hash of `a` and `b`. -/
def Blob.IsHashOf (d a b : Blob) : Prop :=
  match d with
  | .digest a' b' _ => a' = a ∧ b' = b
  | _ => False

instance (d a b : Blob) : Decidable (d.IsHashOf a b) := by
  unfold Blob.IsHashOf
  split <;> infer_instance

def Exponent.code : Exponent → ℕ
  | .session i => 2 * i
  | .outside n => 2 * n + 1

theorem Exponent.code_injective {n m : Exponent} (h : n.code = m.code) : n = m := by
  cases n with
  | session i =>
    cases m with
    | session j => exact congrArg _ (Nat.eq_of_mul_eq_mul_left Nat.two_pos h)
    | outside k =>
      simp only [code] at h
      omega
  | outside k =>
    cases m with
    | session j =>
      simp only [code] at h
      omega
    | outside k' =>
      simp only [code] at h
      exact congrArg _ (by omega)

/-- A shared secret. -/
structure Secret where
  first : Blob
  second : Blob
  deriving DecidableEq

/-- The secret of the private key `n` and a public key: the two public keys, the one with the
smaller code first, so that it does not matter whose private key it was. -/
def dh (n : Exponent) : Blob → Secret
  | .pub m => if n.code ≤ m.code then ⟨.pub n, .pub m⟩ else ⟨.pub m, .pub n⟩
  | p => ⟨.pub n, p⟩

theorem dh_comm (n m : Exponent) : dh n (.pub m) = dh m (.pub n) := by
  rw [dh, dh]
  rcases Nat.lt_trichotomy n.code m.code with hlt | heq | hlt
  · rw [if_pos (Nat.le_of_lt hlt), if_neg (Nat.not_le.mpr hlt)]
  · rw [Exponent.code_injective heq]
  · rw [if_neg (Nat.not_le.mpr hlt), if_pos (Nat.le_of_lt hlt)]

/-- One of the two public keys in a secret is that of the private key. -/
theorem dh_side (n : Exponent) (p : Blob) : dh n p = ⟨.pub n, p⟩ ∨ dh n p = ⟨p, .pub n⟩ := by
  cases p with
  | pub m =>
    rw [dh]
    split
    · exact .inl rfl
    · exact .inr rfl
  | digest | spec | other => exact .inl rfl

/-- **Ideal exchange.**  Two secrets are the same only if both sides are. -/
theorem eq_pub_of_dh {n m : Exponent} {p q : Blob} (hnm : n ≠ m) (h : dh n p = dh m q) :
    p = .pub m ∧ q = .pub n := by
  have hp := dh_side n p
  have hq := dh_side m q
  rw [h] at hp
  rcases hp with hp | hp
  · rcases hq with hq | hq
    · cases hp.symm.trans hq
      exact absurd rfl hnm
    · cases hp.symm.trans hq
      exact ⟨rfl, rfl⟩
  · rcases hq with hq | hq
    · cases hp.symm.trans hq
      exact ⟨rfl, rfl⟩
    · cases hp.symm.trans hq
      exact absurd rfl hnm

inductive Label where
  | smk
  | aek
  deriving DecidableEq

/-- A key derived from a shared secret. -/
structure Key where
  secret : Secret
  label : Label
  deriving DecidableEq

/-- What a report says about its enclave, as far as it is read. -/
structure Identity where
  cpuSvn : ℕ
  miscSelect : ℕ
  cetAttributes : ℕ
  attributes : ℕ
  mrEnclave : ℕ
  mrSigner : ℕ
  configId : ℕ
  isvProdId : ℕ
  isvSvn : ℕ
  configSvn : ℕ
  deriving DecidableEq

/-- `sgx_target_info_t`. -/
structure TargetInfo where
  mrEnclave : ℕ
  attributes : ℕ
  cetAttributes : ℕ
  configSvn : ℕ
  miscSelect : ℕ
  configId : ℕ
  deriving DecidableEq

/-- What the processor compares the target of a report with. -/
def Identity.targetInfo (e : Identity) : TargetInfo :=
  ⟨e.mrEnclave, e.attributes, e.cetAttributes, e.configSvn, e.miscSelect, e.configId⟩

/-- The MAC that the processor puts on a report. -/
inductive ReportMac where
  | mac (e : Identity) (data : Blob) (target : TargetInfo)
  | other (n : ℕ)
  deriving DecidableEq

structure Report where
  identity : Identity
  data : Blob
  mac : ReportMac
  deriving DecidableEq

/-- What is covered by a CMAC: the report of the second message, or the body of the third one,
or a public key after a property. -/
inductive MacInput where
  | report (r : Report)
  | body (r : Report) (prop : List UInt8)
  | point (prop : List UInt8) (p : Blob)
  deriving DecidableEq

inductive Cmac where
  | cmac (k : Key) (x : MacInput)
  | other (n : ℕ)
  deriving DecidableEq

structure Msg1 where
  gA : Blob
  target : TargetInfo
  deriving DecidableEq

structure Msg2 where
  gB : Blob
  report : Report
  cmac : Cmac
  deriving DecidableEq

structure Msg3 where
  cmac : Cmac
  report : Report
  prop : List UInt8
  deriving DecidableEq

/-- `sgx_dh_session_enclave_identity_t`. -/
structure EnclaveIdentity where
  cpuSvn : ℕ
  miscSelect : ℕ
  attributes : ℕ
  mrEnclave : ℕ
  mrSigner : ℕ
  isvProdId : ℕ
  isvSvn : ℕ
  deriving DecidableEq

/-- The fields that are documented, which are those that a responder fills in. -/
def EnclaveIdentity.IsOf (x : EnclaveIdentity) (e : Identity) : Prop :=
  x.isvSvn = e.isvSvn ∧ x.isvProdId = e.isvProdId ∧ x.attributes = e.attributes ∧
    x.mrSigner = e.mrSigner ∧ x.mrEnclave = e.mrEnclave

/-- What a session gives to its caller, with the public key it used for it. -/
structure Output where
  aek : Key
  identity : EnclaveIdentity
  peerKey : Blob
  deriving DecidableEq

/-! ### Calls of the library -/

/-- The calls that may fail. -/
inductive Call where
  | createReport
  | verifyReport
  | openContext
  | closeContext
  | createKeyPair
  | sharedDhkey
  | derive (label : Label)
  | sha256
  | cmac
  deriving DecidableEq

abbrev Faults := Call → Option Status

/-- Everything succeeds. -/
def noFaults : Faults := fun _ => none

/-- `INTERNAL_SGX_ERROR_CODE_CONVERTOR`. -/
def outward : Status → Status
  | .outOfMemory => .outOfMemory
  | _ => .unexpected

/-- The errors that `sgx_dh_responder_proc_msg2` passes on. -/
def outwardResponder : Status → Status
  | .outOfMemory => .outOfMemory
  | .kdfMismatch => .kdfMismatch
  | _ => .unexpected

/-- `sgx_create_report` in the enclave `e`. -/
def createReport (e : Identity) (target : TargetInfo) (data : Blob) : Report :=
  ⟨e, data, .mac e data target⟩

/-- `sgx_verify_report` in the enclave `e`. -/
def VerifyReport (e : Identity) (r : Report) : Prop := r.mac = .mac r.identity r.data e.targetInfo

instance (e : Identity) (r : Report) : Decidable (VerifyReport e r) := by
  unfold VerifyReport
  infer_instance

def ProtoSpec.IsValid (ps : ProtoSpec) : Prop :=
  ps.ver = 2 ∧ ps.rev = 0 ∧ ps.targetSpec.getD 0 0 % 2 ^ 8 = 0 ∧
    ps.targetSpec.getD 0 0 / 2 ^ 8 < ps.targetSpec.length

instance (ps : ProtoSpec) : Decidable ps.IsValid := by
  unfold ProtoSpec.IsValid
  infer_instance

section Messages

-- what a specification of somebody else makes of a report
variable (interpret : ProtoSpec → Report → Except Status TargetInfo)

/-- `make_target_info`: the built-in specification takes the target of the report's enclave. -/
def makeTargetInfo (ps : ProtoSpec) (r : Report) : Except Status TargetInfo :=
  if ¬ ps.IsValid then .error .invalidParameter
  else if ps = lav2ProtoSpec then .ok r.identity.targetInfo
  else interpret ps r

/-- `dh_generate_message1`. -/
def generateMessage1 (f : Faults) (e : Identity) (n : Exponent) : Except Status Msg1 := do
  ask f .createReport
  ask f .openContext
  ask f .createKeyPair
  ask f .closeContext
  return ⟨.pub n, e.targetInfo⟩

/-- `dh_generate_message2`. -/
def dhGenerateMessage2 (f : Faults) (e : Identity) (msg1 : Msg1) (gB : Blob) (smk : Key) :
    Except Status Msg2 := do
  ask f .sha256
  ask f .createReport
  let report := createReport e msg1.target (.digest msg1.gA gB aesCmacKdfId)
  ask f .cmac
  return ⟨gB, report, .cmac smk (.report report)⟩

/-- A hash whose status the second version ignores: if it fails, there are zeros. -/
def hashOrZeros (f : Faults) (a b : Blob) : Blob :=
  if f .sha256 = none then .digest a b 0 else .other 0

/-- A report whose status it ignores: if it fails, there is no MAC of the processor. -/
def reportOrUnset (f : Faults) (e : Identity) (target : TargetInfo) (data : Blob) : Report :=
  if f .createReport = none then createReport e target data else ⟨e, .other 0, .other 0⟩

/-- `LAv2_generate_message2`: the specification is sent in place of the digest. -/
def lav2GenerateMessage2 (f : Faults) (e : Identity) (msg1 : Msg1) (gB : Blob) (smk : Key) :
    Except Status Msg2 := do
  let report := reportOrUnset f e msg1.target (hashOrZeros f (.spec lav2ProtoSpec) gB)
  ask f .cmac
  return ⟨gB, { report with data := .spec lav2ProtoSpec }, .cmac smk (.point [] gB)⟩

def generateMessage2 : Version → Faults → Identity → Msg1 → Blob → Key → Except Status Msg2
  | .v1 => dhGenerateMessage2
  | .v2 => lav2GenerateMessage2

/-- `dh_verify_message2`. -/
def dhVerifyMessage2 (f : Faults) (e : Identity) (msg2 : Msg2) (gA : Blob) (smk : Key) :
    Except Status Unit := do
  require (msg2.report.data.kdfId = aesCmacKdfId) .kdfMismatch
  ask f .cmac
  require (msg2.cmac = .cmac smk (.report msg2.report)) .macMismatch
  ask f .verifyReport
  require (VerifyReport e msg2.report) .macMismatch
  ask f .sha256
  require (msg2.report.data.IsHashOf gA msg2.gB) .macMismatch

/-- The specification in a report, if it starts like ours. -/
def Blob.protoSpec : Blob → Option ProtoSpec
  | .spec s =>
    if s.signature = lav2ProtoSpec.signature ∧ s.ver = lav2ProtoSpec.ver then some s else none
  | _ => none

/-- `LAv2_verify_message2`, with the specification if it succeeds. -/
def lav2VerifyMessage2 (f : Faults) (e : Identity) (msg2 : Msg2) (smk : Key) : Option ProtoSpec :=
  if f .verifyReport = none ∧ f .cmac = none ∧
      VerifyReport e { msg2.report with data := hashOrZeros f msg2.report.data msg2.gB } ∧
      msg2.cmac = .cmac smk (.point [] msg2.gB) then
    msg2.report.data.protoSpec
  else none

/-- `dh_generate_message3`. -/
def dhGenerateMessage3 (f : Faults) (e : Identity) (msg2 : Msg2) (gA : Blob) (smk : Key)
    (prop : List UInt8) : Except Status Msg3 := do
  ask f .sha256
  let target ← makeTargetInfo interpret lav2ProtoSpec msg2.report
  ask f .createReport
  let report := createReport e target (.digest msg2.gB gA 0)
  ask f .cmac
  return ⟨.cmac smk (.body report prop), report, prop⟩

/-- `LAv2_generate_message3`; `ps` is the specification of the second message. -/
def lav2GenerateMessage3 (f : Faults) (e : Identity) (ps : ProtoSpec) (msg2 : Msg2) (gA : Blob)
    (smk : Key) (prop : List UInt8) : Except Status Msg3 := do
  let target ← makeTargetInfo interpret ps msg2.report
  ask f .cmac
  return ⟨.cmac smk (.point prop gA), reportOrUnset f e target (hashOrZeros f gA (.spec ps)), prop⟩

/-- The second message is taken as one of the first version, then as one of the second. -/
def verifyAndAnswer (f : Faults) (e : Identity) (msg2 : Msg2) (gA : Blob) (smk : Key)
    (prop : List UInt8) : Except Status Msg3 :=
  match dhVerifyMessage2 f e msg2 gA smk with
  | .ok () => dhGenerateMessage3 interpret f e msg2 gA smk prop
  | .error x =>
    match lav2VerifyMessage2 f e msg2 smk with
    | none => .error x
    | some ps => lav2GenerateMessage3 interpret f e ps msg2 gA smk prop

/-- `dh_verify_message3`. -/
def dhVerifyMessage3 (f : Faults) (e : Identity) (msg3 : Msg3) (gA gB : Blob) (smk : Key) :
    Except Status Unit := do
  ask f .cmac
  require (msg3.cmac = .cmac smk (.body msg3.report msg3.prop)) .macMismatch
  ask f .verifyReport
  require (VerifyReport e msg3.report) .macMismatch
  ask f .sha256
  require (msg3.report.data.IsHashOf gB gA) .macMismatch

/-- `LAv2_verify_message3`. -/
def lav2VerifyMessage3 (f : Faults) (e : Identity) (msg3 : Msg3) (gA _gB : Blob) (smk : Key) :
    Except Status Unit := do
  require (msg3.report.data = hashOrZeros f gA (.spec lav2ProtoSpec) ∧ f .verifyReport = none ∧
    VerifyReport e msg3.report) .unexpected
  require (f .cmac = none) .outOfMemory
  require (msg3.cmac = .cmac smk (.point msg3.prop gA)) .macMismatch

def verifyMessage3 : Version → Faults → Identity → Msg3 → Blob → Blob → Key → Except Status Unit
  | .v1 => dhVerifyMessage3
  | .v2 => lav2VerifyMessage3

end Messages

/-! ### Sessions -/

/-- `sgx_internal_dh_session_t`; `none` stands for zeros. -/
structure Session where
  role : Role
  state : SessionState
  prvKey : Option Exponent
  pubKey : Option Blob
  peerPubKey : Option Blob
  smk : Option Key
  sharedKey : Option Secret
  deriving DecidableEq

namespace Session

/-- The memory after `memset_s`, with a new state. -/
def cleared (state : SessionState) : Session := ⟨.initiator, state, none, none, none, none, none⟩

/-- `sgx_dh_init_session`. -/
def init : Role → Session
  | .initiator => { cleared .initiatorWaitM1 with role := .initiator }
  | .responder => { cleared .reset with role := .responder }

/-- No private key, no shared key and no SMK. -/
def Clean (s : Session) : Prop := s.prvKey = none ∧ s.sharedKey = none ∧ s.smk = none

theorem cleared_clean (state : SessionState) : (cleared state).Clean := ⟨rfl, rfl, rfl⟩

end Session

section Calls

variable (interpret : ProtoSpec → Report → Except Status TargetInfo) (f : Faults) (e : Identity)
  (valid : Bool) (s : Session)

/-- `sgx_dh_responder_gen_msg1` in the enclave `e`; `n` is the private key it draws, `valid` if the
pointers are.  -/
def genMsg1 (n : Exponent) : Session × Except Status Msg1 :=
  let result : Except Status Msg1 := do
    require (valid = true ∧ s.role = .responder) .invalidParameter
    require (s.state = .reset) .invalidState
    (generateMessage1 f e n).mapError outward
  match result with
  | .error x => (.cleared .error, .error x)
  | .ok msg1 =>
    ({ s with prvKey := some n, pubKey := some (.pub n), state := .responderWaitM2 }, .ok msg1)

/-- `dh_initiator_proc_msg1`, with the key pair of `n`. -/
def procMsg1 (v : Version) (n : Exponent) (msg1 : Msg1) : Session × Except Status Msg2 :=
  let secret : Secret := dh n msg1.gA
  let result : Except Status Msg2 := do
    require (valid = true ∧ s.role = .initiator) .invalidParameter
    require (s.state = .initiatorWaitM1) .invalidState
    let generated : Except Status Msg2 := do
      ask f .openContext
      ask f .createKeyPair
      ask f .sharedDhkey
      ask f (.derive .smk)
      generateMessage2 v f e msg1 (.pub n) ⟨secret, .smk⟩
    let msg2 ← generated.mapError outward
    require (f .closeContext = none) .unexpected
    return msg2
  match result with
  | .error x => (.cleared .error, .error x)
  | .ok msg2 =>
    ({ s with
        pubKey := some (.pub n)
        peerPubKey := some msg1.gA
        smk := some ⟨secret, .smk⟩
        sharedKey := some secret
        state := .initiatorWaitM3 }, .ok msg2)

/-- What a responder gives out; five fields of the caller's `buffer` for the identity are
overwritten. -/
def outputOfMsg2 (secret : Secret) (msg2 : Msg2) (buffer : EnclaveIdentity) : Output :=
  let id := msg2.report.identity
  ⟨⟨secret, .aek⟩,
    { buffer with
      isvSvn := id.isvSvn
      isvProdId := id.isvProdId
      attributes := id.attributes
      mrSigner := id.mrSigner
      mrEnclave := id.mrEnclave },
    msg2.gB⟩

/-- What an initiator gives out, with the whole identity in the report. -/
def outputOfMsg3 (secret : Secret) (gA : Blob) (msg3 : Msg3) : Output :=
  let id := msg3.report.identity
  ⟨⟨secret, .aek⟩,
    ⟨id.cpuSvn, id.miscSelect, id.attributes, id.mrEnclave, id.mrSigner, id.isvProdId, id.isvSvn⟩,
    gA⟩

/-- `sgx_dh_responder_proc_msg2` up to its last call. -/
def answerMsg2 (msg2 : Msg2) (prop : List UInt8) (buffer : EnclaveIdentity) :
    Except Status (Msg3 × Output) := do
  require (valid = true ∧ s.role = .responder) .invalidParameter
  require (s.state = .responderWaitM2) .invalidState
  let answered : Except Status (Msg3 × Output) :=
    match s.prvKey, s.pubKey with
    | some n, some gA => do
      let secret : Secret := dh n msg2.gB
      let smk : Key := ⟨secret, .smk⟩
      ask f .openContext
      ask f .sharedDhkey
      ask f (.derive .smk)
      let msg3 ← verifyAndAnswer interpret f e msg2 gA smk prop
      ask f (.derive .aek)
      return (msg3, outputOfMsg2 secret msg2 buffer)
    | _, _ => .error .unexpected
  answered.mapError outwardResponder

/-- `sgx_dh_responder_proc_msg2`.  The key is in the caller's buffer even if the last call fails. -/
def procMsg2 (msg2 : Msg2) (prop : List UInt8) (buffer : EnclaveIdentity) :
    Session × Except Status Msg3 × Option Output :=
  match answerMsg2 interpret f e valid s msg2 prop buffer with
  | .error x => (.cleared .error, .error x, none)
  | .ok (msg3, output) =>
    if f .closeContext = none then (.cleared .active, .ok msg3, some output)
    else (.cleared .error, .error .unexpected, some output)

/-- `dh_initiator_proc_msg3` until the session is cleared. -/
def confirmMsg3 (v : Version) (msg3 : Msg3) : Except Status Output := do
  require (valid = true ∧ s.role = .initiator) .invalidParameter
  require (s.state = .initiatorWaitM3) .invalidState
  let verified : Except Status Output :=
    match s.pubKey, s.peerPubKey, s.smk, s.sharedKey with
    | some gB, some gA, some smk, some secret => do
      verifyMessage3 v f e msg3 gA gB smk
      ask f (.derive .aek)
      return outputOfMsg3 secret gA msg3
    | _, _, _, _ => .error .unexpected
  verified.mapError outward

/-- `dh_initiator_proc_msg3`. -/
def procMsg3 (v : Version) (msg3 : Msg3) : Session × Except Status Output :=
  match confirmMsg3 f e valid s v msg3 with
  | .error x => (.cleared .error, .error x)
  | .ok output => (.cleared .active, .ok output)

end Calls

/-! ### What the calls do -/

variable {interpret : ProtoSpec → Report → Except Status TargetInfo} {f : Faults} {e : Identity}
  {valid : Bool} {s : Session} {v : Version} {n : Exponent} {gA gB : Blob} {smk : Key}

/-- The second message, if it is sent. -/
def message2 (v : Version) (f : Faults) (e : Identity) (msg1 : Msg1) (gB : Blob) (smk : Key) :
    Msg2 :=
  match v with
  | .v1 =>
    let report := createReport e msg1.target (.digest msg1.gA gB aesCmacKdfId)
    ⟨gB, report, .cmac smk (.report report)⟩
  | .v2 =>
    let report := reportOrUnset f e msg1.target (hashOrZeros f (.spec lav2ProtoSpec) gB)
    ⟨gB, { report with data := .spec lav2ProtoSpec }, .cmac smk (.point [] gB)⟩

variable {msg1 : Msg1}

theorem message2_gB : (message2 v f e msg1 gB smk).gB = gB := by
  cases v with
  | v1 | v2 => rfl

variable {msg2 : Msg2}

theorem generateMessage2_eq_ok (h : generateMessage2 v f e msg1 gB smk = .ok msg2) :
    msg2 = message2 v f e msg1 gB smk := by
  cases v with
  | v1 =>
    simp only [generateMessage2, dhGenerateMessage2, ask_bind] at h
    exact (Except.ok.inj h.2.2.2).symm
  | v2 =>
    simp only [generateMessage2, lav2GenerateMessage2, ask_bind] at h
    exact (Except.ok.inj h.2).symm

/-- A responder is ready for the second message after the first one, or has failed. -/
theorem genMsg1_spec (f : Faults) (e : Identity) (valid : Bool) (s : Session) (n : Exponent) :
    (∃ x, genMsg1 f e valid s n = (.cleared .error, .error x)) ∨
      s.role = .responder ∧ s.state = .reset ∧
        genMsg1 f e valid s n
          = ({ s with prvKey := some n, pubKey := some (.pub n), state := .responderWaitM2 },
            .ok ⟨.pub n, e.targetInfo⟩) := by
  rw [genMsg1]
  split
  · next x _ => exact .inl ⟨x, rfl⟩
  · next msg1 h =>
    simp only [require_bind, mapError_eq_ok, generateMessage1, ask_bind] at h
    obtain ⟨hvalid, hstate, -, -, -, -, h⟩ := h
    rw [← Except.ok.inj h]
    exact .inr ⟨hvalid.2, hstate, rfl⟩

/-- An initiator is ready for the third message after the second one, or has failed. -/
theorem procMsg1_spec (f : Faults) (e : Identity) (valid : Bool) (s : Session) (v : Version)
    (n : Exponent) (msg1 : Msg1) :
    (∃ x, procMsg1 f e valid s v n msg1 = (.cleared .error, .error x)) ∨
      s.role = .initiator ∧ s.state = .initiatorWaitM1 ∧
        procMsg1 f e valid s v n msg1
          = ({ s with
                pubKey := some (.pub n)
                peerPubKey := some msg1.gA
                smk := some ⟨dh n msg1.gA, .smk⟩
                sharedKey := some (dh n msg1.gA)
                state := .initiatorWaitM3 },
              .ok (message2 v f e msg1 (.pub n) ⟨dh n msg1.gA, .smk⟩)) := by
  rw [procMsg1]
  split
  · next x _ => exact .inl ⟨x, rfl⟩
  · next msg2 h =>
    simp only [require_bind] at h
    obtain ⟨hvalid, hstate, h⟩ := h
    obtain ⟨msg2', hmsg2, h⟩ := bind_eq_ok.mp h
    cases (require_bind.mp h).2
    simp only [mapError_eq_ok, ask_bind] at hmsg2
    rw [generateMessage2_eq_ok hmsg2.2.2.2.2]
    exact .inr ⟨hvalid.2, hstate, rfl⟩

/-- What a responder with the public key `gA` has checked, and what its answer is like. -/
inductive Answered (f : Faults) (e : Identity) (gA : Blob) (smk : Key) (msg2 : Msg2) :
    Msg3 → Prop where
  | v1 {target : TargetInfo} {prop : List UInt8} :
    msg2.report.data.kdfId = aesCmacKdfId → msg2.cmac = .cmac smk (.report msg2.report) →
      VerifyReport e msg2.report → msg2.report.data.IsHashOf gA msg2.gB →
      Answered f e gA smk msg2
        ⟨.cmac smk (.body (createReport e target (.digest msg2.gB gA 0)) prop),
          createReport e target (.digest msg2.gB gA 0), prop⟩
  | v2 {ps : ProtoSpec} {target : TargetInfo} {prop : List UInt8} :
    msg2.report.data.protoSpec = some ps →
      VerifyReport e { msg2.report with data := hashOrZeros f (.spec ps) msg2.gB } →
      msg2.cmac = .cmac smk (.point [] msg2.gB) →
      Answered f e gA smk msg2
        ⟨.cmac smk (.point prop gA), reportOrUnset f e target (hashOrZeros f gA (.spec ps)), prop⟩

theorem protoSpec_eq_some {d : Blob} {ps : ProtoSpec} (h : d.protoSpec = some ps) : d = .spec ps := by
  rw [Blob.protoSpec.eq_def] at h
  split at h
  · obtain ⟨-, h⟩ := Option.ite_none_right_eq_some.mp h
    rw [Option.some.inj h]
  · cases h

variable {msg3 : Msg3} {prop : List UInt8}

theorem answered_of_verifyAndAnswer
    (h : verifyAndAnswer interpret f e msg2 gA smk prop = .ok msg3) :
    Answered f e gA smk msg2 msg3 := by
  rw [verifyAndAnswer] at h
  split at h
  · next hverify =>
    simp only [dhVerifyMessage2, require_bind, ask_bind, require_eq_ok] at hverify
    obtain ⟨hkdf, -, hmac, -, hreport, -, hhash⟩ := hverify
    obtain ⟨target, -, h⟩ := bind_eq_ok.mp (ask_bind.mp h).2
    simp only [ask_bind] at h
    cases h.2.2
    exact Answered.v1 hkdf hmac hreport hhash
  · split at h
    · cases h
    · next ps hps =>
      obtain ⟨⟨-, -, hreport, hmac⟩, hps⟩ := Option.ite_none_right_eq_some.mp hps
      obtain ⟨target, -, h⟩ := bind_eq_ok.mp h
      cases (ask_bind.mp h).2
      rw [protoSpec_eq_some hps] at hreport
      exact Answered.v2 hps hreport hmac

/-- A responder that has given out a key has forgotten everything else, and so has one that failed. -/
theorem procMsg2_spec (interpret : ProtoSpec → Report → Except Status TargetInfo) (f : Faults)
    (e : Identity) (valid : Bool) (s : Session) (msg2 : Msg2) (prop : List UInt8)
    (buffer : EnclaveIdentity) :
    (∃ x, procMsg2 interpret f e valid s msg2 prop buffer = (.cleared .error, .error x, none)) ∨
      ∃ n gA msg3 o, s.role = .responder ∧ s.state = .responderWaitM2 ∧ s.prvKey = some n ∧
        s.pubKey = some gA ∧ Answered f e gA ⟨dh n msg2.gB, .smk⟩ msg2 msg3 ∧
        o.aek = ⟨dh n msg2.gB, .aek⟩ ∧ o.identity.IsOf msg2.report.identity ∧
        o.peerKey = msg2.gB ∧
        (procMsg2 interpret f e valid s msg2 prop buffer = (.cleared .active, .ok msg3, some o) ∨
          procMsg2 interpret f e valid s msg2 prop buffer
            = (.cleared .error, .error .unexpected, some o)) := by
  rw [procMsg2]
  split
  · next x _ => exact .inl ⟨x, rfl⟩
  · next msg3 o h =>
    right
    simp only [answerMsg2, require_bind, mapError_eq_ok] at h
    obtain ⟨hvalid, hstate, h⟩ := h
    split at h
    · next n gA hn hgA =>
      simp only [ask_bind] at h
      obtain ⟨msg3', hmsg3, h⟩ := bind_eq_ok.mp h.2.2.2
      have h := (ask_bind.mp h).2
      obtain ⟨rfl, ho⟩ := Prod.mk.inj (Except.ok.inj h)
      refine ⟨n, gA, msg3', o, hvalid.2, hstate, hn, hgA, answered_of_verifyAndAnswer hmsg3,
        ho ▸ rfl, ho ▸ ⟨rfl, rfl, rfl, rfl, rfl⟩, ho ▸ rfl, ?_⟩
      split
      · exact .inl rfl
      · exact .inr rfl
    · cases h

/-- What an initiator has checked in the third message. -/
def Confirmed (f : Faults) (v : Version) (e : Identity) (gA gB : Blob) (smk : Key) (msg3 : Msg3) : Prop :=
  VerifyReport e msg3.report ∧
    match v with
    | .v1 => msg3.cmac = .cmac smk (.body msg3.report msg3.prop) ∧ msg3.report.data.IsHashOf gB gA
    | .v2 => msg3.report.data = hashOrZeros f gA (.spec lav2ProtoSpec) ∧
      msg3.cmac = .cmac smk (.point msg3.prop gA)

theorem confirmed_of_verify (h : verifyMessage3 v f e msg3 gA gB smk = .ok ()) :
    Confirmed f v e gA gB smk msg3 := by
  cases v with
  | v1 =>
    simp only [verifyMessage3, dhVerifyMessage3, ask_bind, require_bind, require_eq_ok] at h
    obtain ⟨-, hmac, -, hreport, -, hhash⟩ := h
    exact ⟨hreport, hmac, hhash⟩
  | v2 =>
    simp only [verifyMessage3, lav2VerifyMessage3, require_bind, require_eq_ok] at h
    obtain ⟨⟨hdata, -, hreport⟩, -, hmac⟩ := h
    exact ⟨hreport, hdata, hmac⟩

/-- An initiator that has given out a key has forgotten everything else, and so has one that
failed. -/
theorem procMsg3_spec (f : Faults) (e : Identity) (valid : Bool) (s : Session) (v : Version)
    (msg3 : Msg3) :
    (∃ x, procMsg3 f e valid s v msg3 = (.cleared .error, .error x)) ∨
      ∃ gB gA smk secret o, s.role = .initiator ∧ s.state = .initiatorWaitM3 ∧ s.pubKey = some gB ∧
        s.peerPubKey = some gA ∧ s.smk = some smk ∧ s.sharedKey = some secret ∧
        Confirmed f v e gA gB smk msg3 ∧ o.aek = ⟨secret, .aek⟩ ∧
        o.identity.IsOf msg3.report.identity ∧ o.peerKey = gA ∧
        procMsg3 f e valid s v msg3 = (.cleared .active, .ok o) := by
  rw [procMsg3]
  split
  · next x _ => exact .inl ⟨x, rfl⟩
  · next o h =>
    right
    simp only [confirmMsg3, require_bind, mapError_eq_ok] at h
    obtain ⟨hvalid, hstate, h⟩ := h
    split at h
    · next gB gA smk secret hgB hgA hsmk hsecret =>
      obtain ⟨_, hverify, h⟩ := bind_eq_ok.mp h
      have h := (ask_bind.mp h).2
      have ho := Except.ok.inj h
      exact ⟨gB, gA, smk, secret, o, hvalid.2, hstate, hgB, hgA, hsmk, hsecret,
        confirmed_of_verify hverify, ho ▸ rfl, ho ▸ ⟨rfl, rfl, rfl, rfl, rfl⟩, ho ▸ rfl, rfl⟩
    · cases h

/-! ### An undisturbed session -/

/-- A responder after the first message. -/
def Session.waitM2 (n : Exponent) : Session :=
  ⟨.responder, .responderWaitM2, some n, some (.pub n), none, none, none⟩

/-- An initiator after the second message, which was an answer to `gA`. -/
def Session.waitM3 (n : Exponent) (gA : Blob) : Session :=
  ⟨.initiator, .initiatorWaitM3, none, some (.pub n), some gA, some ⟨dh n gA, .smk⟩,
    some (dh n gA)⟩

/-- The third message of the enclave `e` to `peer`. -/
def message3 (v : Version) (e peer : Identity) (gA gB : Blob) (smk : Key) (prop : List UInt8) :
    Msg3 :=
  match v with
  | .v1 =>
    let report := createReport e peer.targetInfo (.digest gB gA 0)
    ⟨.cmac smk (.body report prop), report, prop⟩
  | .v2 =>
    let report := createReport e peer.targetInfo (.digest gA (.spec lav2ProtoSpec) 0)
    ⟨.cmac smk (.point prop gA), report, prop⟩

theorem genMsg1_noFaults :
    genMsg1 noFaults e true (.init .responder) n = (.waitM2 n, .ok ⟨.pub n, e.targetInfo⟩) :=
  rfl

theorem procMsg1_noFaults :
    procMsg1 noFaults e true (.init .initiator) v n msg1
      = (.waitM3 n msg1.gA, .ok (message2 v noFaults e msg1 (.pub n) ⟨dh n msg1.gA, .smk⟩)) := by
  cases v with
  | v1 | v2 => rfl

/-- The responder finds out the version of an honest message. -/
theorem verifyAndAnswer_noFaults {peer : Identity} :
    verifyAndAnswer interpret noFaults e (message2 v noFaults peer ⟨gA, e.targetInfo⟩ gB smk) gA smk prop
      = .ok (message3 v e peer gA gB smk prop) := by
  cases v with
  | v1 =>
    have hverify : dhVerifyMessage2 noFaults e (message2 .v1 noFaults peer ⟨gA, e.targetInfo⟩ gB smk) gA smk
        = .ok () := by
      simp [dhVerifyMessage2, message2, createReport, VerifyReport, Blob.kdfId, Blob.IsHashOf,
        aesCmacKdfId, require, ask, noFaults, bind, Except.bind]
    rw [verifyAndAnswer, hverify]
    rfl
  | v2 =>
    -- the specification says nothing about the derivation of keys where the digest does
    have hverify : dhVerifyMessage2 noFaults e (message2 .v2 noFaults peer ⟨gA, e.targetInfo⟩ gB smk) gA smk
        = .error .kdfMismatch := rfl
    have hlav2 : lav2VerifyMessage2 noFaults e (message2 .v2 noFaults peer ⟨gA, e.targetInfo⟩ gB smk) smk
        = some lav2ProtoSpec := by
      rw [lav2VerifyMessage2, if_pos ⟨rfl, rfl, rfl, rfl⟩]
      rfl
    rw [verifyAndAnswer, hverify]
    rw [hlav2]
    rfl

theorem procMsg2_noFaults {buffer : EnclaveIdentity}
    (hanswer : verifyAndAnswer interpret noFaults e msg2 (.pub n) ⟨dh n msg2.gB, .smk⟩ prop
      = .ok msg3) :
    procMsg2 interpret noFaults e true (.waitM2 n) msg2 prop buffer
      = (.cleared .active, .ok msg3, some (outputOfMsg2 (dh n msg2.gB) msg2 buffer)) := by
  have hok : answerMsg2 interpret noFaults e true (.waitM2 n) msg2 prop buffer
      = .ok (msg3, outputOfMsg2 (dh n msg2.gB) msg2 buffer) := by
    show Except.mapError outwardResponder
      (verifyAndAnswer interpret noFaults e msg2 (.pub n) ⟨dh n msg2.gB, .smk⟩ prop >>=
        fun msg3 => .ok (msg3, outputOfMsg2 (dh n msg2.gB) msg2 buffer)) = _
    rw [hanswer]
    rfl
  rw [procMsg2, hok]
  rfl

theorem verifyMessage3_noFaults {peer : Identity} :
    verifyMessage3 v noFaults e (message3 v peer e gA gB smk prop) gA gB smk = .ok () := by
  cases v with
  | v1 =>
    simp [verifyMessage3, dhVerifyMessage3, message3, createReport, VerifyReport, Blob.IsHashOf,
      require, ask, noFaults, bind, Except.bind]
  | v2 =>
    simp [verifyMessage3, lav2VerifyMessage3, message3, createReport, VerifyReport, hashOrZeros,
      require, noFaults, bind, Except.bind]

theorem procMsg3_noFaults
    (hverify : verifyMessage3 v noFaults e msg3 gA (.pub n) ⟨dh n gA, .smk⟩ = .ok ()) :
    procMsg3 noFaults e true (.waitM3 n gA) v msg3
      = (.cleared .active, .ok (outputOfMsg3 (dh n gA) gA msg3)) := by
  have hok : confirmMsg3 noFaults e true (.waitM3 n gA) v msg3
      = .ok (outputOfMsg3 (dh n gA) gA msg3) := by
    show Except.mapError outward
      (verifyMessage3 v noFaults e msg3 gA (.pub n) ⟨dh n gA, .smk⟩ >>= fun _ =>
        .ok (outputOfMsg3 (dh n gA) gA msg3)) = _
    rw [hverify]
    rfl
  rw [procMsg3, hok]

end LocalAttest
