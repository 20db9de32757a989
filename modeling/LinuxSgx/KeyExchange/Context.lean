/-
Remote attestation contexts (`tkey_exchange.cpp`, `simple_vector.cpp`).

A context is a slot of a table.  The slot points to an item with the keys of one exchange and
its state: `sgx_ra_init_ex` makes one, `sgx_ra_get_ga` draws a key pair,
`sgx_ra_proc_msg2_trusted` checks the answer of the service provider and derives the keys, and
`sgx_ra_get_keys` hands them out.  `sgx_ra_close` frees the item and empties the slot.

Every operation is a sequence of sections: the table is read under one lock, the item under
another one, and between them nothing is held.  The sections are functions here, so that
they can be put together as calls or as steps of threads.

* `Item`, `Db` — an item; the table and the memory of the items;
* `fetch`, `getGaItem`, `snapshot`, `verifyMsg2`, `commitMsg2`, … — the sections;
* `Crypto`, `Faults` — the crypto library, and which of its calls fail.
-/
import Mathlib.Data.List.Basic

namespace KeyExchange

abbrev Bytes := List UInt8

def zeros (n : ℕ) : Bytes := List.replicate n 0

inductive Status where
  | invalidParameter
  | invalidState
  | unexpected
  | outOfMemory
  | invalidSignature
  | kdfMismatch
  | macMismatch
  deriving DecidableEq

/-- `ra_state`. -/
inductive RaState where
  | inited
  | getGaed
  | procMsg2ed
  deriving DecidableEq

/-- The parts of `sgx_target_info_t` that are compared with a report. -/
structure TargetInfo where
  attributes : Bytes
  mrEnclave : Bytes
  deriving DecidableEq

/-- `ra_db_item_t`, without its lock. -/
structure Item where
  gA : Bytes
  gB : Bytes
  vkKey : Bytes
  spPubkey : Bytes
  a : Bytes
  psSecProp : Bytes
  mkKey : Bytes
  skKey : Bytes
  smkKey : Bytes
  quoteNonce : Bytes
  qeTarget : TargetInfo
  state : RaState
  deriveKeyCb : UInt64
  deriving DecidableEq

/-- An item filled with zeros. -/
def Item.zero : Item where
  gA := zeros 64
  gB := zeros 64
  vkKey := zeros 16
  spPubkey := zeros 64
  a := zeros 32
  psSecProp := zeros 256
  mkKey := zeros 16
  skKey := zeros 16
  smkKey := zeros 16
  quoteNonce := zeros 16
  qeTarget := ⟨zeros 16, zeros 32⟩
  state := .inited
  deriveKeyCb := 0

/-- `sgx_ra_msg2_t`, without the revocation list, which is not read. -/
structure Msg2 where
  gB : Bytes
  spid : Bytes
  quoteType : UInt16
  kdfId : UInt16
  signGbGa : Bytes
  mac : Bytes
  deriving DecidableEq

/-- A number as two bytes, the lower one first. -/
def le16 (n : UInt16) : Bytes := [n.toUInt8, (n >>> 8).toUInt8]

/-- All that stands before the MAC. -/
def Msg2.maced (m : Msg2) : Bytes := m.gB ++ m.spid ++ le16 m.quoteType ++ le16 m.kdfId ++ m.signGbGa

/-- The keys of an exchange. -/
structure Keys where
  smkey : Bytes
  skey : Bytes
  mkey : Bytes
  vkey : Bytes
  deriving DecidableEq

/-- What the crypto library and the user's key derivation compute. -/
structure Crypto where
  publicOf : Bytes → Bytes
  checkPoint : Bytes → Bool
  sharedDhkey : Bytes → Bytes → Except Status Bytes
  ecdsaVerify : Bytes → Bytes → Bytes → Bool
  deriveKey : Bytes → String → Bytes
  callback : UInt64 → Bytes → UInt16 → Except Status Keys
  cmac : Bytes → Bytes → Bytes
  sha256 : Bytes → Bytes
  report : TargetInfo → Bytes → Bytes

/-- The calls that may fail for want of memory or of random numbers. -/
inductive Call where
  | openContext
  | createKeyPair
  | ecdsaVerify
  | checkPoint
  | derive (label : String)
  | cmac
  | readRand
  | sha256
  | createReport
  deriving DecidableEq

abbrev Faults := Call → Option Status

/-- The errors that are passed on. -/
def outward : Status → Status
  | .outOfMemory => .outOfMemory
  | _ => .unexpected

/-- A call that may fail. -/
def ask (f : Faults) (c : Call) : Except Status Unit :=
  match f c with
  | none => .ok ()
  | some e => .error (outward e)

/-- A check. -/
def require (p : Prop) [Decidable p] (e : Status) : Except Status Unit :=
  if p then .ok () else .error e

/-! ### The item of a context -/

/-- The locked part of `sgx_ra_get_ga`; `priv` is the new private key. -/
def getGaItem (cr : Crypto) (f : Faults) (priv : Bytes) (it : Item) :
    Except Status (Item × Bytes) := do
  require (it.state = .inited) .invalidState
  ask f .openContext
  ask f .createKeyPair
  return ({ it with a := priv, gA := cr.publicOf priv, state := .getGaed }, cr.publicOf priv)

/-- What `sgx_ra_proc_msg2_trusted` copies from the item before it checks the message. -/
structure Snapshot where
  a : Bytes
  gA : Bytes
  spPubkey : Bytes
  keyCb : UInt64
  deriving DecidableEq

/-- `DEC_KDF_POINTER`. -/
def decKdfPointer (cookie x : UInt64) : UInt64 := x ^^^ cookie

/-- The first locked part of `sgx_ra_proc_msg2_trusted`. -/
def snapshot (cookie : UInt64) (it : Item) : Except Status Snapshot :=
  if it.state ≠ .getGaed then .error .invalidState
  else .ok ⟨it.a, it.gA, it.spPubkey, decKdfPointer cookie it.deriveKeyCb⟩

/-- The errors of the user's key derivation that are passed on. -/
def outwardKdf : Status → Status
  | .outOfMemory => .outOfMemory
  | .invalidParameter => .invalidParameter
  | .kdfMismatch => .kdfMismatch
  | _ => .unexpected

/-- The keys that follow from a shared secret, without failures. -/
def keysOf (cr : Crypto) (keyCb : UInt64) (dh : Bytes) (kdfId : UInt16) : Except Status Keys :=
  if keyCb ≠ 0 then
    match cr.callback keyCb dh kdfId with
    | .ok keys => .ok keys
    | .error e => .error (outwardKdf e)
  else if kdfId = 1 then
    .ok ⟨cr.deriveKey dh "SMK", cr.deriveKey dh "SK", cr.deriveKey dh "MK", cr.deriveKey dh "VK"⟩
  else .error .kdfMismatch

/-- The calls of `derive_key`, if they are made. -/
def deriveCalls (f : Faults) (keyCb : UInt64) (kdfId : UInt16) : Except Status Unit :=
  if keyCb = 0 ∧ kdfId = 1 then do
    ask f (.derive "SMK")
    ask f (.derive "SK")
    ask f (.derive "MK")
    ask f (.derive "VK")
  else .ok ()

def sharedDhkey (cr : Crypto) (a gB : Bytes) : Except Status Bytes :=
  match cr.sharedDhkey a gB with
  | .ok dh => .ok dh
  | .error e => .error (outward e)

/-- The part of `sgx_ra_proc_msg2_trusted` between its locked parts: the signature over
`g_b || g_a`, the keys and the MAC. -/
def verifyMsg2 (cr : Crypto) (f : Faults) (snap : Snapshot) (m : Msg2) : Except Status Keys := do
  ask f .openContext
  let dh ← sharedDhkey cr snap.a m.gB
  ask f .ecdsaVerify
  require (cr.ecdsaVerify snap.spPubkey (m.gB ++ snap.gA) m.signGbGa = true) .invalidSignature
  deriveCalls f snap.keyCb m.kdfId
  let keys ← keysOf cr snap.keyCb dh m.kdfId
  ask f .cmac
  require (cr.cmac keys.smkey m.maced = m.mac) .macMismatch
  ask f .readRand
  return keys

/-- The keys are written before the report is made, the state after it. -/
def writeKeys (it : Item) (m : Msg2) (keys : Keys) (qeTarget : TargetInfo) (nonce : Bytes) : Item :=
  { it with
    gB := m.gB
    smkKey := keys.smkey
    skKey := keys.skey
    mkKey := keys.mkey
    vkKey := keys.vkey
    qeTarget := qeTarget
    quoteNonce := nonce }

/-- The last locked part of `sgx_ra_proc_msg2_trusted`. -/
def commitMsg2 (cr : Crypto) (f : Faults) (m : Msg2) (keys : Keys) (qeTarget : TargetInfo)
    (nonce : Bytes) (it : Item) : Item × Except Status Bytes :=
  if it.state ≠ .getGaed then (it, .error .invalidState)
  else
    let it := writeKeys it m keys qeTarget nonce
    match (do ask f .sha256; ask f .createReport : Except Status Unit) with
    | .error e => (it, .error e)
    | .ok () =>
      ({ it with state := .procMsg2ed },
        .ok (cr.report qeTarget (cr.sha256 (it.gA ++ it.gB ++ it.vkKey))))

/-- `sgx_ra_key_type_t`. -/
inductive KeyType where
  | sk
  | mk
  | other
  deriving DecidableEq

/-- The locked part of `sgx_ra_get_keys`. -/
def getKeysItem (type : KeyType) (it : Item) : Except Status Bytes :=
  if it.state ≠ .procMsg2ed then .error .invalidState
  else
    match type with
    | .mk => .ok it.mkKey
    | .sk => .ok it.skKey
    | .other => .error .invalidParameter

/-- A report of the quoting enclave; `genuine` if `sgx_verify_report` accepts it. -/
structure QeReport where
  attributes : Bytes
  mrEnclave : Bytes
  reportData : Bytes
  genuine : Except Status Unit

/-- The parts of `sgx_ra_msg3_t` that are not the quote. -/
structure Msg3 where
  mac : Bytes
  gA : Bytes
  psSecProp : Bytes
  deriving DecidableEq

/-- The locked part of `sgx_ra_get_msg3_trusted`: `g_a`, `ps_sec_prop` and the key of the MAC. -/
def getMsg3Item (r : QeReport) (it : Item) : Except Status (Bytes × Bytes × Bytes) :=
  if it.state ≠ .procMsg2ed then .error .invalidState
  else if r.attributes ≠ it.qeTarget.attributes ∨ r.mrEnclave ≠ it.qeTarget.mrEnclave then
    .error .invalidParameter
  else .ok (it.gA, it.psSecProp, it.smkKey)

/-- The rest of `sgx_ra_get_msg3_trusted`, with the nonce as it is read from the item and the
quote as it is read from the host's memory. -/
def finishMsg3 (cr : Crypto) (f : Faults) (r : QeReport) (quote nonce : Bytes)
    (x : Bytes × Bytes × Bytes) : Except Status Msg3 := do
  ask f .sha256
  ask f .cmac
  require (r.reportData = cr.sha256 (nonce ++ quote)) .macMismatch
  return ⟨cr.cmac x.2.2 (x.1 ++ x.2.1 ++ quote), x.1, x.2.1⟩

/-! ### The table -/

/-- A block of memory for an item; `gen` tells the items apart that have been in it. -/
structure Cell where
  live : Bool
  gen : ℕ
  item : Item
  deriving DecidableEq

/-- `g_ra_db`, `g_kdf_cookie` and the memory of the items. -/
structure Db where
  data : List (Option ℕ)
  capacity : ℕ
  cookie : UInt64
  cell : ℕ → Cell
  nextGen : ℕ

def initSize : ℕ := 10

def maxSize : ℕ := 10000

def int32Max : ℕ := 0x7fffffff

namespace Db

def empty : Db := ⟨[], 0, 0, fun _ => ⟨false, 0, Item.zero⟩, 0⟩

variable (s : Db)

/-- The item pointer of a context: the table is read under its lock. -/
def fetch (context : ℕ) : Option ℕ := (s.data[context]?).join

def setItem (addr : ℕ) (it : Item) : Db :=
  { s with cell := Function.update s.cell addr { s.cell addr with item := it } }

/-- `vector_push_back`; `grow` is the outcome of `malloc` or `realloc`. -/
def pushBack (grow : Bool) (p : Option ℕ) : Option Db :=
  if s.capacity = 0 then
    if grow then some { s with capacity := initSize, data := s.data ++ [p] } else none
  else if s.data.length = s.capacity then
    if s.capacity ≥ maxSize - initSize then none
    else if grow then some { s with capacity := s.capacity + initSize, data := s.data ++ [p] }
    else none
  else some { s with data := s.data ++ [p] }

/-- The cookie is drawn by the first call; `rand` is not zero. -/
def setCookie (rand : UInt64) : Db := if s.cookie = 0 then { s with cookie := rand } else s

/-- `ENC_KDF_POINTER`. -/
def encKdfPointer (cookie x : UInt64) : UInt64 := x ^^^ cookie

/-- The new item of `sgx_ra_init_ex`. -/
def newItem (cookie : UInt64) (pubKey : Bytes) (deriveKeyCb : UInt64) : Item :=
  { Item.zero with
    spPubkey := pubKey
    deriveKeyCb := encKdfPointer cookie deriveKeyCb
    state := .inited }

def alloc (addr : ℕ) (it : Item) : Db :=
  { s with cell := Function.update s.cell addr ⟨true, s.nextGen, it⟩, nextGen := s.nextGen + 1 }

def free (addr : ℕ) : Db :=
  { s with cell := Function.update s.cell addr { s.cell addr with live := false } }

/-- The locked part of `sgx_ra_init_ex`: the first empty slot, or a new one. -/
def insert (grow : Bool) (addr : ℕ) : Db × Except Status ℕ :=
  match s.data.findIdx? (· = none) with
  | some i => ({ s with data := s.data.set i (some addr) }, .ok i)
  | none =>
    if s.data.length ≥ int32Max then (s.free addr, .error .outOfMemory)
    else
      match s.pushBack grow (some addr) with
      | none => (s.free addr, .error .outOfMemory)
      | some s' => (s', .ok s.data.length)

/-- The locked part of `sgx_ra_close`: the item is cleared and freed, the slot emptied. -/
def close (context : ℕ) : Db × Except Status Unit :=
  match s.fetch context with
  | none => (s, .error .invalidParameter)
  | some addr =>
    ({ s with
        cell := Function.update s.cell addr ⟨false, (s.cell addr).gen, Item.zero⟩
        data := s.data.set context none }, .ok ())

end Db

/-- The arguments of `sgx_ra_init_ex`: the key of the service provider and whether the pointers
are valid. -/
structure InitArgs where
  pubKey : Option Bytes
  contextPtr : Bool
  pubKeyWithin : Bool
  deriveKeyCb : UInt64
  deriveKeyWithin : Bool

/-- The checks of `sgx_ra_init_ex`. -/
def checkInit (cr : Crypto) (f : Faults) (x : InitArgs) : Except Status Bytes :=
  match x.pubKey with
  | none => .error .invalidParameter
  | some pubKey => do
    require (x.contextPtr = true) .invalidParameter
    require (x.pubKeyWithin = true) .invalidParameter
    require (x.deriveKeyCb ≠ 0 → x.deriveKeyWithin = true) .invalidParameter
    ask f .openContext
    ask f .checkPoint
    require (cr.checkPoint pubKey = true) .invalidParameter
    return pubKey

/-- The arguments of `sgx_ra_get_msg3_trusted`; `valid` if no pointer is null, `noWrap` if the
message does not wrap around, `outside` if it lies outside the enclave. -/
structure Msg3Args where
  quoteSize : UInt32
  msg3Size : UInt32
  valid : Bool
  noWrap : Bool
  outside : Bool
  report : QeReport
  quote : Bytes

/-- `sizeof(sgx_ra_msg3_t)`. -/
def sizeofMsg3 : UInt32 := 336

/-- The checks of `sgx_ra_get_msg3_trusted` behind the lookup of the item. -/
def checkMsg3 (x : Msg3Args) : Except Status Unit := do
  require (x.noWrap = true ∧ ¬ 0xffffffff - x.quoteSize < sizeofMsg3 ∧
    sizeofMsg3 + x.quoteSize = x.msg3Size) .invalidParameter
  require (x.outside = true) .invalidParameter
  match x.report.genuine with
  | .ok () => .ok ()
  | .error .macMismatch => .error .macMismatch
  | .error e => .error (outward e)

end KeyExchange
