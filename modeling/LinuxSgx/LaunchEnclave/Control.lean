/-
Launch control (`launch_enclave.cpp`).

The launch enclave keeps one white list and makes launch tokens.  A history is any sequence of
registrations and requests; the calls of the trusted libraries may fail in each of them.

* `leGetLaunchTokenWrapper` — a request;
* `Admitted` — whom a token of a production launch enclave may be for, in terms of the bytes of a
  certificate chain;
* `Action`, `cacheAfter` — histories;
* **`launch_control`** — after every history the white list is absent or that of a genuine chain, it
  is replaced by newer ones only, and tokens are for enclaves that may be launched.
-/
import LinuxSgx.LaunchEnclave.Certificates

open Checks FlatFile

namespace LaunchEnclave

/-! ### Launch tokens -/

/-- `launch_body_t`, without the reserved bytes -/
structure LaunchBody where
  valid : UInt32
  attributes : Attributes
  mrEnclave : Measurement
  mrSigner : Measurement
deriving DecidableEq, Repr

/-- `token_t`, without the reserved bytes -/
structure Token where
  body : LaunchBody
  cpuSvnLe : List UInt8
  isvProdIdLe : UInt16
  isvSvnLe : UInt16
  maskedMiscSelectLe : UInt32
  attributesLe : Attributes
  keyId : List UInt8
  mac : List UInt8
deriving DecidableEq, Repr

def Measurement.zero : Measurement := ⟨List.replicate 32 0, List.length_replicate⟩

def Token.zero : Token where
  body := ⟨0, ⟨0, 0⟩, .zero, .zero⟩
  cpuSvnLe := List.replicate 16 0
  isvProdIdLe := 0
  isvSvnLe := 0
  maskedMiscSelectLe := 0
  attributesLe := ⟨0, 0⟩
  keyId := List.replicate 32 0
  mac := List.replicate 16 0

/-- `sgx_key_request_t`, for the key with the name `SGX_KEYSELECT_EINITTOKEN` -/
structure KeyRequest where
  keyId : List UInt8
  cpuSvn : List UInt8
  isvSvn : UInt16
  attributeMask : Attributes
  miscMask : UInt32
deriving DecidableEq, Repr

def sgxFlagsInitted : UInt64 := 0x01

def sgxFlagsDebug : UInt64 := 0x02

def sgxFlagsMode64bit : UInt64 := 0x04

def sgxFlagsProvisionKey : UInt64 := 0x10

def sgxFlagsEinittokenKey : UInt64 := 0x20

def sgxFlagsKss : UInt64 := 0x80

def flagsNonSecurityBits : UInt64 :=
  0xFFFFFFFFFFFFC0 ||| sgxFlagsMode64bit ||| sgxFlagsProvisionKey ||| sgxFlagsEinittokenKey

def flagsSecurityBitsReserved : UInt64 :=
  ~~~(flagsNonSecurityBits ||| sgxFlagsInitted ||| sgxFlagsDebug ||| sgxFlagsKss)

/-- The signers of production launch enclaves. -/
def gLeMrsigner : List Measurement :=
  [⟨[0xac, 0xb7, 0x70, 0x12, 0x05, 0x3e, 0x05, 0xa6, 0x3d, 0x41, 0x3b, 0x8b, 0xba, 0xe8, 0xfb, 0x6c,
    0x5d, 0x73, 0xb3, 0xf2, 0x99, 0x6d, 0x91, 0xc4, 0x3b, 0xbb, 0xf9, 0x09, 0x59, 0xc0, 0xf8, 0xd4],
    rfl⟩]

/-- The signers of the provisioning enclave and of the provisioning certification enclave. -/
def gServiceEnclaveMrsigner : List Measurement :=
  [⟨[0xec, 0x15, 0xb1, 0x07, 0x87, 0xd2, 0xf8, 0x46, 0x67, 0xce, 0xb0, 0xb5, 0x98, 0xff, 0xc4, 0x4a,
    0x1f, 0x1c, 0xb8, 0x0f, 0x67, 0x0a, 0xae, 0x5d, 0xf9, 0xe8, 0xfa, 0x9f, 0x63, 0x76, 0xe1, 0xf8],
    rfl⟩,
  ⟨[0xC5, 0x4A, 0x62, 0xF2, 0xBE, 0x9E, 0xF7, 0x6E, 0xFB, 0x1F, 0x39, 0x30, 0xAD, 0x81, 0xEA, 0x7F,
    0x60, 0xDE, 0xFC, 0x1F, 0x5F, 0x25, 0xE0, 0x9B, 0x7C, 0x06, 0x7A, 0x81, 0x5A, 0xE0, 0xC6, 0xCB],
    rfl⟩]

/-- The entry of an index in `mr_signer_list`. -/
def WlCert.mrSigner (w : WlCert) (i : ℕ) : Measurement :=
  ⟨List.ofFn fun j : Fin 32 => w.mrSignerList.getD (32 * i + j) 0, List.length_ofFn⟩

def isProduction (report : Report) : Bool := gLeMrsigner.any (· = report.mrSigner)

/-- The part of `le_generate_launch_token` before the token is written.  The loops over the tables
stop at the first entry that is equal, with the length of the table if there is none. -/
def checkLaunch (report : Report) (fails : Faults) (cache : WlCert) (mrsigner : Measurement)
    (attr : Attributes) : Except AeError Unit := do
  require (attr.flags &&& flagsSecurityBitsReserved = 0) .invalidAttribute
  require (fails .createReport = false) .unexpectedError
  let service := gServiceEnclaveMrsigner.findIdx (· = mrsigner)
  require (¬(isProduction report = true ∧ attr.flags &&& sgxFlagsProvisionKey ≠ 0 ∧
    service = gServiceEnclaveMrsigner.length)) .invalidAttribute
  let listed : Bool := attr.flags &&& sgxFlagsDebug = 0 ∧ isProduction report = true
  require (¬(listed = true ∧ cache.version = 0)) .whitelistUninitializedError
  -- an empty first entry is the wild card
  let entry := (List.range cache.entryNumber.toNat).findIdx (cache.mrSigner · = mrsigner)
  require (¬(listed = true ∧ cache.mrSigner 0 ≠ .zero ∧ entry = cache.entryNumber.toNat))
    .invalidPrivilegeError

/-- EGETKEY and CMAC are `mac`, and `rand` the bytes of `sgx_read_rand`. -/
def leCalcLicToken (mac : KeyRequest → LaunchBody → List UInt8) (fails : Faults) (rand : List UInt8)
    (lictoken : Token) : Except AeError Unit × Token :=
  if fails .readRand then (.error .unexpectedError, lictoken)
  else
    let request : KeyRequest :=
      { keyId := rand
        cpuSvn := lictoken.cpuSvnLe
        isvSvn := lictoken.isvSvnLe
        attributeMask := ⟨~~~sgxFlagsMode64bit, 0⟩
        miscMask := 0xFFFFFFFF }
    let masked : Token :=
      { lictoken with
        keyId := rand
        maskedMiscSelectLe := lictoken.maskedMiscSelectLe &&& request.miscMask
        attributesLe :=
          ⟨lictoken.attributesLe.flags &&& request.attributeMask.flags,
            lictoken.attributesLe.xfrm &&& request.attributeMask.xfrm⟩ }
    if fails .getKey then (.error .getEinittokenKeyError, masked)
    else if fails .cmacInit || fails .cmacUpdate || fails .cmacFinal then (.error .failure, masked)
    else (.ok ⟨⟩, { masked with mac := mac request masked.body })

def leGenerateLaunchToken (mac : KeyRequest → LaunchBody → List UInt8) (report : Report)
    (fails : Faults) (cache : WlCert) (rand : List UInt8) (mrenclave mrsigner : Measurement)
    (attr : Attributes) (lictoken : Token) : Except AeError Unit × Token :=
  match checkLaunch report fails cache mrsigner attr with
  | .error e => (.error e, lictoken)
  | .ok _ =>
    let unsigned : Token :=
      { Token.zero with
        body := ⟨1, attr, mrenclave, mrsigner⟩
        cpuSvnLe := report.cpuSvn
        isvSvnLe := report.isvSvn
        isvProdIdLe := report.isvProdId
        attributesLe := report.attributes
        maskedMiscSelectLe := report.miscSelect }
    match leCalcLicToken mac fails rand unsigned with
    | (.ok _, token) => (.ok ⟨⟩, token)
    | (.error e, _) => (.error e, .zero)

/-- `none` is the pointer `NULL`. -/
def leGetLaunchTokenWrapper (mac : KeyRequest → LaunchBody → List UInt8) (report : Report)
    (fails : Faults) (cache : WlCert) (rand : List UInt8) (mrenclave mrsigner : Option Measurement)
    (attr : Option Attributes) (lictoken : Option Token) :
    Except AeError Unit × Option Token :=
  match mrenclave, mrsigner, attr, lictoken with
  | some mrenclave, some mrsigner, some attr, some lictoken =>
    let r := leGenerateLaunchToken mac report fails cache rand mrenclave mrsigner attr lictoken
    (r.1, some r.2)
  | _, _, _, _ => (.error .invalidParameter, lictoken)

/-! ### Whom a token is for -/

/-- The entry of an index in the list of a chain. -/
def signerOf (b : List UInt8) (i : ℕ) : List UInt8 := slice b (152 + 32 * i) 32

/-- The enclave of a token may be launched with the white list: an enclave that is not for
debugging has a signer of a genuine chain, or the first entry of this chain is empty, and only
service enclaves have the provisioning key. -/
structure Admitted (ec : Ecdsa) (cache : WlCert) (body : LaunchBody) : Prop where
  listed : body.attributes.flags &&& sgxFlagsDebug = 0 →
    ∃ b, Genuine ec b ∧ cache = cacheOf b ∧
      (signerOf b 0 = List.replicate 32 0 ∨ ∃ i < entryCount b, signerOf b i = body.mrSigner.bytes)
  service : body.attributes.flags &&& sgxFlagsProvisionKey ≠ 0 →
    body.mrSigner ∈ gServiceEnclaveMrsigner

/-- The white list was never written, or it is the list of a genuine chain. -/
def CacheOk (ec : Ecdsa) (cache : WlCert) : Prop :=
  cache = .zero ∨ ∃ b, Genuine ec b ∧ cache = cacheOf b

variable {ec : Ecdsa} {mac : KeyRequest → LaunchBody → List UInt8} {report : Report} {fails : Faults}
  {cache : WlCert} {b rand : List UInt8} {mrsigner : Measurement} {attr : Attributes}

theorem Genuine.version_ne (h : Genuine ec b) : (cacheOf b).version ≠ 0 := by
  show u16 b 136 ≠ 0
  rw [h.version_eq]
  decide

theorem mrSigner_cacheOf (h : Genuine ec b) {i : ℕ} (hi : i < entryCount b) :
    ((cacheOf b).mrSigner i).bytes = signerOf b i := by
  have hlen := h.length_eq
  have hsize : (signerOf b i).length = 32 := by
    rw [signerOf, length_slice]
    omega
  refine List.ext_getElem (((cacheOf b).mrSigner i).length_eq.trans hsize.symm) fun j hj hj' => ?_
  have hlt : j < 32 := hsize ▸ hj'
  have hlist : (slice b 152 (32 * entryCount b)).getD (32 * i + j) 0 = (signerOf b i).getD j 0 := by
    rw [getD_slice b 152 (by omega), signerOf, getD_slice b _ hlt, Nat.add_assoc]
  rw [List.getD_eq_getElem _ _ hj'] at hlist
  rw [← hlist]
  simp only [WlCert.mrSigner, cacheOf, List.getElem_ofFn]

theorem findIdx_ne_length {α : Type} {p : α → Bool} {l : List α} (h : ¬l.findIdx p = l.length) :
    ∃ x ∈ l, p x = true :=
  List.findIdx_lt_length.mp (lt_of_le_of_ne List.findIdx_le_length h)

/-- The checks of `le_generate_launch_token`. -/
theorem admitted_of_checkLaunch (hcache : CacheOk ec cache) (hprod : isProduction report = true)
    (h : checkLaunch report fails cache mrsigner attr = .ok ⟨⟩) (mrenclave : Measurement) :
    Admitted ec cache ⟨1, attr, mrenclave, mrsigner⟩ := by
  simp only [checkLaunch, require_bind, require_eq_ok] at h
  obtain ⟨-, -, hservice, hinit, hentry⟩ := h
  constructor
  · intro hdebug
    have hlisted : decide (attr.flags &&& sgxFlagsDebug = 0 ∧ isProduction report = true) = true :=
      decide_eq_true ⟨hdebug, hprod⟩
    rcases hcache with rfl | ⟨b, hgen, rfl⟩
    · exact absurd ⟨hlisted, rfl⟩ hinit
    · refine ⟨b, hgen, rfl, ?_⟩
      have hcount : (cacheOf b).entryNumber.toNat = entryCount b := toNat_ntohl_u32 b 148
      by_cases hwild : (cacheOf b).mrSigner 0 = .zero
      · refine .inl ?_
        rw [← mrSigner_cacheOf hgen hgen.one_le, hwild]
        rfl
      · refine .inr ?_
        have hfound := findIdx_ne_length (l := List.range (cacheOf b).entryNumber.toNat)
          fun heq => hentry ⟨hlisted, hwild, heq.trans List.length_range⟩
        obtain ⟨i, hi, heq⟩ := hfound
        rw [List.mem_range, hcount] at hi
        exact ⟨i, hi, by rw [← mrSigner_cacheOf hgen hi, of_decide_eq_true heq]⟩
  · intro hprov
    obtain ⟨m, hm, heq⟩ := findIdx_ne_length fun heq => hservice ⟨hprod, hprov, heq⟩
    rwa [of_decide_eq_true heq] at hm

theorem body_leCalcLicToken (t : Token) : (leCalcLicToken mac fails rand t).2.body = t.body := by
  rw [leCalcLicToken]
  split_ifs <;> rfl

/-- A valid token is left only by a request that was admitted. -/
theorem admitted_of_leGenerateLaunchToken (hcache : CacheOk ec cache)
    (hprod : isProduction report = true) {mrenclave : Measurement} {lictoken : Token}
    (hzero : lictoken.body.valid = 0)
    (hvalid : (leGenerateLaunchToken mac report fails cache rand mrenclave mrsigner attr
      lictoken).2.body.valid ≠ 0) :
    Admitted ec cache (leGenerateLaunchToken mac report fails cache rand mrenclave mrsigner attr
      lictoken).2.body := by
  rw [leGenerateLaunchToken] at hvalid ⊢
  cases hcheck : checkLaunch report fails cache mrsigner attr with
  | error e =>
    rw [hcheck] at hvalid
    exact absurd hzero hvalid
  | ok r =>
    rw [hcheck] at hvalid
    have hadm := admitted_of_checkLaunch hcache hprod hcheck mrenclave
    simp only at hvalid ⊢
    split at hvalid
    · rename_i token hcalc
      have hbody := congrArg (fun r => r.2.body) hcalc
      simp only [body_leCalcLicToken] at hbody
      simp only [← hbody]
      exact hadm
    · exact absurd rfl hvalid

/-! ### Histories -/

/-- The calls of the host. -/
inductive Action where
  | initWhiteList (fails : Faults) (chain : Option ChainBuffer) (inside : Bool)
  | getLaunchToken (fails : Faults) (rand : List UInt8) (mrenclave mrsigner : Option Measurement)
      (attr : Option Attributes) (lictoken : Option Token)

/-- The white list after a call; requests do not write it. -/
def next (ec : Ecdsa) (report : Report) (cache : WlCert) : Action → WlCert
  | .initWhiteList fails chain inside =>
    (leInitWhiteListWrapper ec report fails cache chain inside).2
  | .getLaunchToken _ _ _ _ _ _ => cache

/-- The white list after some calls, from the loading of the launch enclave on. -/
def cacheAfter (ec : Ecdsa) (report : Report) (history : List Action) : WlCert :=
  history.foldl (next ec report) .zero

/-- The white list is the one before, or it is newer. -/
def Newer (cache cache' : WlCert) : Prop :=
  cache' = cache ∨ cache = .zero ∨ cache.wlVersion < cache'.wlVersion

theorem cacheOk_next (h : CacheOk ec cache) (a : Action) : CacheOk ec (next ec report cache a) := by
  cases a with
  | initWhiteList fails chain inside =>
    rcases leInitWhiteListWrapper_spec ec report fails cache chain inside with
      ⟨e, he⟩ | ⟨b, -, hgen, hb, -⟩
    · rw [next, he]
      exact h
    · rw [next, hb]
      exact .inr ⟨b.1, hgen, rfl⟩
  | getLaunchToken => exact h

theorem newer_next (h : CacheOk ec cache) (a : Action) : Newer cache (next ec report cache a) := by
  cases a with
  | initWhiteList fails chain inside =>
    rcases leInitWhiteListWrapper_spec ec report fails cache chain inside with
      ⟨e, he⟩ | ⟨b, -, hgen, hb, hnew⟩
    · exact .inl (by rw [next, he])
    · rcases h with hzero | ⟨b', hgen', heq⟩
      · exact .inr (.inl hzero)
      · refine .inr (.inr ?_)
        rw [next, hb]
        exact hnew (heq ▸ hgen'.version_ne)
  | getLaunchToken => exact .inl rfl

theorem cacheOk_foldl (h : CacheOk ec cache) (l : List Action) :
    CacheOk ec (l.foldl (next ec report) cache) := by
  induction l generalizing cache with
  | nil => exact h
  | cons a l ih => exact ih (cacheOk_next h a)

theorem Newer.trans {cache' cache'' : WlCert} (h : Newer cache cache') (h' : Newer cache' cache'') :
    Newer cache cache'' := by
  rcases h with rfl | hzero | hlt
  · exact h'
  · exact .inr (.inl hzero)
  · rcases h' with rfl | rfl | hlt'
    · exact .inr (.inr hlt)
    · exact absurd hlt (UInt32.not_lt.mpr (UInt32.zero_le))
    · exact .inr (.inr (UInt32.lt_trans hlt hlt'))

theorem newer_foldl (h : CacheOk ec cache) (l : List Action) :
    Newer cache (l.foldl (next ec report) cache) := by
  induction l generalizing cache with
  | nil => exact .inl rfl
  | cons a l ih => exact (newer_next h a).trans (ih (cacheOk_next h a))

/-- **Launch control.**  After every history the white list is absent or that of a genuine chain;
later ones are newer; a registration that fails does not change it, and one that succeeds replaces
it by a newer one; and if the launch enclave is a production enclave, a request turns a buffer
without a valid token into a valid token only for an enclave that this list admits. -/
theorem launch_control (ec : Ecdsa) (report : Report) (mac : KeyRequest → LaunchBody → List UInt8)
    (history : List Action) :
    CacheOk ec (cacheAfter ec report history) ∧
    (∀ later, Newer (cacheAfter ec report history) (cacheAfter ec report (history ++ later))) ∧
    (∀ fails chain inside result cache',
      leInitWhiteListWrapper ec report fails (cacheAfter ec report history) chain inside =
        (result, cache') →
      (∀ e, result = .error e → cache' = cacheAfter ec report history) ∧
      (result = .ok ⟨⟩ → cacheAfter ec report history = .zero ∨
        (cacheAfter ec report history).wlVersion < cache'.wlVersion)) ∧
    (∀ fails rand mrenclave mrsigner attr lictoken result token,
      leGetLaunchTokenWrapper mac report fails (cacheAfter ec report history) rand mrenclave mrsigner
        attr (some lictoken) = (result, some token) →
      lictoken.body.valid = 0 → token.body.valid ≠ 0 → isProduction report = true →
      Admitted ec (cacheAfter ec report history) token.body) := by
  have hok : CacheOk ec (cacheAfter ec report history) := cacheOk_foldl (.inl rfl) history
  refine ⟨hok, fun later => ?_, ?_, ?_⟩
  · rw [cacheAfter, cacheAfter, List.foldl_append]
    exact newer_foldl hok later
  · intro fails chain inside result cache' h
    rcases leInitWhiteListWrapper_spec ec report fails (cacheAfter ec report history) chain inside with
      ⟨e, he⟩ | ⟨b, -, hgen, hb, hnew⟩
    · obtain ⟨rfl, rfl⟩ := Prod.mk.inj (he.symm.trans h)
      refine ⟨fun _ _ => rfl, fun herr => ?_⟩
      cases herr
    · obtain ⟨rfl, rfl⟩ := Prod.mk.inj (hb.symm.trans h)
      refine ⟨fun _ herr => ?_, fun _ => ?_⟩
      · cases herr
      rcases hok with hzero | ⟨b', hgen', heq⟩
      · exact .inl hzero
      · exact .inr (hnew (heq ▸ hgen'.version_ne))
  · intro fails rand mrenclave mrsigner attr lictoken result token h hzero hvalid hprod
    rcases mrenclave with _ | mrenclave
    · cases h
      exact absurd hzero hvalid
    rcases mrsigner with _ | mrsigner
    · cases h
      exact absurd hzero hvalid
    rcases attr with _ | attr
    · cases h
      exact absurd hzero hvalid
    cases h
    exact admitted_of_leGenerateLaunchToken hok hprod hzero hvalid

/-- A chain with the version 7 and the one entry `1, 1, …`, and a request of its signer. -/
example :
    let chain : List UInt8 := [0, 1] ++ List.replicate 134 0 ++
      [0, 1, 0, 1, 0, 0, 0, 0x20, 0, 0, 0, 7, 0, 0, 0, 1] ++ List.replicate 32 1 ++
      List.replicate 64 0
    let signer : Measurement := ⟨List.replicate 32 1, rfl⟩
    let report : Report := ⟨gLeMrsigner.headD .zero, 0x20, 1, [], ⟨0, 0⟩, 0⟩
    let cache := (leInitWhiteListWrapper ⟨fun _ => true, fun _ _ _ => true⟩ report (fun _ => false)
      .zero (some ⟨chain, by decide +kernel⟩) true).2
    cache.wlVersion = 7 ∧
    (leGetLaunchTokenWrapper (fun _ _ => []) report (fun _ => false) cache [] (some .zero)
      (some signer) (some ⟨4, 3⟩) (some .zero)).2.map (fun t => t.body.valid) = some 1 := by
  decide +kernel

end LaunchEnclave
