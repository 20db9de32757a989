/-
Round trip and authenticity of sealed data.

A run is a sequence of calls that seal data; the state keeps what was encrypted and, for each
blob, what was read for it.

* **`seal_round_trip`** — a blob is opened, with the text and the additional data it holds, exactly if
  the additional data was the same both times it was read and no callee fails; and whatever is opened
  is the text and the additional data of an earlier call;
* **`sealed_not_openable`** — a blob that its maker cannot open.
-/
import LinuxSgx.Lib.Checks
import LinuxSgx.Lib.Runs
import LinuxSgx.Sealing.Seal
import Mathlib.Data.List.GetD
import Mathlib.Data.Vector.Defs

open Runs
open List hiding Vector

namespace Sealing

variable {K T : Type} {pf : Platform K T}

/-! ### Lengths and slices -/

theorem length_read (m : UInt64 → UInt8) (p : UInt64) (n : UInt32) :
    (read m p n).length = n.toNat := by
  rw [read, length_map, length_range]

theorem toNat_uint32Max_sub (y : UInt32) : (uint32Max - y).toNat = 2 ^ 32 - 1 - y.toNat := by
  have hy : y ≤ uint32Max := by
    rw [UInt32.le_iff_toNat_le]
    exact Nat.le_of_lt_succ y.toNat_lt
  rw [UInt32.toNat_sub_of_le _ _ hy]
  rfl

variable {x y : UInt32}

/-- The checks on the size of a blob exclude an overflow. -/
theorem lt_of_calcSealedDataSize (h : calcSealedDataSize x y ≠ uint32Max) :
    x.toNat + y.toNat + 560 < 2 ^ 32 - 1 := by
  rw [calcSealedDataSize] at h
  split at h
  · exact absurd rfl h
  · rename_i hxy
    rw [UInt32.not_lt, UInt32.le_iff_toNat_le, toNat_uint32Max_sub] at hxy
    have hy := y.toNat_lt
    have hadd : (x + y).toNat = x.toNat + y.toNat := by
      rw [UInt32.toNat_add]
      omega
    dsimp only at h
    split at h
    · exact absurd rfl h
    · rename_i hpay
      rw [UInt32.not_lt, UInt32.le_iff_toNat_le, toNat_uint32Max_sub, hadd,
        show sizeofSealedData.toNat = 560 from rfl] at hpay
      have hne : (sizeofSealedData + (x + y)).toNat ≠ 2 ^ 32 - 1 := fun he =>
        h (UInt32.toNat_inj.mp he)
      rw [UInt32.toNat_add, hadd, show sizeofSealedData.toNat = 560 from rfl] at hne
      omega

/-- The lengths of a new blob are read back. -/
theorem getAddMacTxtLen_add {d : SealedData T} (h : x.toNat + y.toNat < 2 ^ 32)
    (hsize : d.payloadSize = x + y) (hoffset : d.plainTextOffset = y) : getAddMacTxtLen d = x := by
  have hsub : x + y - y = x := UInt32.add_sub_cancel x y
  have hadd : (x + y).toNat = x.toNat + y.toNat := by
    rw [UInt32.toNat_add]
    omega
  rw [getAddMacTxtLen, hsize, hoffset, hsub]
  refine if_neg ?_
  rw [UInt32.not_lt, UInt32.le_iff_toNat_le, hadd]
  omega

/-- The first bytes of a payload are the text, the next ones the additional data. -/
theorem slice_append {t a : List UInt8} (ht : t.length = y.toNat) (ha : a.length = x.toNat) :
    slice (fun i => (t ++ a).getD i 0) 0 y = t ∧ slice (fun i => (t ++ a).getD i 0) y x = a := by
  constructor
  · refine ext_getElem ?_ fun i h₁ h₂ => ?_
    · rw [slice, length_map, length_range, ht]
    · simp only [slice, getElem_map, getElem_range]
      show (t ++ a).getD (0 + i) 0 = t[i]
      rw [Nat.zero_add, getD_append _ _ _ _ h₂, getD_eq_getElem _ _ h₂]
  · refine ext_getElem ?_ fun i h₁ h₂ => ?_
    · rw [slice, length_map, length_range, ha]
    · simp only [slice, getElem_map, getElem_range]
      show (t ++ a).getD (y.toNat + i) 0 = a[i]
      rw [← ht, getD_append_right _ _ _ _ (Nat.le_add_right _ _), Nat.add_sub_cancel_left,
        getD_eq_getElem _ _ h₂]

/-! ### Blobs that were made -/

theorem check_bind {b : Bool} {e : Status} {α : Type} {f : Unit → Except Status α} {r : α} :
    (check b e >>= f) = .ok r ↔ b = true ∧ f () = .ok r := by
  cases b with
  | true | false => simp [check, bind, Except.bind]

theorem of_answer {α : Type} {fault : Option Status} {x : Except Status α} {r : α}
    (h : answer fault x = .ok r) : fault = none ∧ x = .ok r := by
  cases fault with
  | none => exact ⟨rfl, h⟩
  | some e => cases h

/-- A blob that holds the encryption `r.entry`, and `copied` as its additional data. -/
structure Made (pf : Platform K T) (r : Sealed K T) (aadLength textLength : UInt32)
    (copied : List UInt8) : Prop where
  key : pf.getKey r.blob.keyRequest = .ok r.entry.key
  accepts : pf.gcmAccepts textLength aadLength = true
  offset : r.blob.plainTextOffset = textLength
  payloadSize : r.blob.payloadSize = aadLength + textLength
  tag : r.blob.payloadTag = (pf.gcm.encrypt r.entry.key r.entry.aad r.entry.text).2
  payload : r.blob.payload
    = fun i => ((pf.gcm.encrypt r.entry.key r.entry.aad r.entry.text).1 ++ copied).getD i 0
  text : r.entry.text.length = textLength.toNat
  copied : copied.length = aadLength.toNat
  size : calcSealedDataSize aadLength textLength ≠ uint32Max

variable {r : Sealed K T}

theorem made_of_sealDataIv {f : Faults} {aadLength textLength : UInt32}
    {aad text copied : List UInt8} {request : KeyRequest}
    (h : sealDataIv pf f aadLength textLength aad text copied request = .ok r)
    (htext : text.length = textLength.toNat) (hcopied : copied.length = aadLength.toNat)
    (hsize : calcSealedDataSize aadLength textLength ≠ uint32Max) :
    Made pf r aadLength textLength copied ∧ r.entry.aad = aad ∧ r.entry.text = text := by
  rw [sealDataIv] at h
  cases hkey : answer f.getKey (pf.getKey request) with
  | error e =>
    rw [hkey] at h
    cases h
  | ok key =>
    rw [hkey] at h
    dsimp only at h
    by_cases haccepts : pf.gcmAccepts textLength aadLength = true
    · rw [if_pos haccepts] at h
      cases (of_answer h).2
      exact ⟨⟨(of_answer hkey).2, haccepts, rfl, rfl, rfl, rfl, htext, hcopied, hsize⟩, rfl, rfl⟩
    · rw [if_neg haccepts] at h
      cases h

/-- A successful call of `sgx_seal_data_ex`. -/
theorem made_of_sealDataEx {a : SealArgs} {x : Chance} (h : sealDataEx pf a x = .ok r) :
    Made pf r a.aadLength a.textLength (read x.late a.aadPtr a.aadLength) ∧ a.textLength ≠ 0 ∧
      r.entry.aad = read x.early a.aadPtr a.aadLength := by
  rw [sealDataEx] at h
  simp only [check_bind] at h
  obtain ⟨hsize, -, -, -, htext, -, -, -, h⟩ := h
  obtain ⟨keyId, -, h⟩ := Checks.bind_eq_ok.mp h
  obtain ⟨hmade, haad, -⟩ := made_of_sealDataIv h (length_read ..) (length_read ..)
    (by simpa using hsize)
  refine ⟨hmade, fun h0 => ?_, haad⟩
  rw [h0] at htext
  simp at htext

/-- A successful call of `sgx_mac_aadata_ex`. -/
theorem made_of_macAadataEx {a : SealArgs} {x : Chance} (h : macAadataEx pf a x = .ok r) :
    Made pf r a.aadLength 0 (read x.late a.aadPtr a.aadLength) ∧ a.aadLength ≠ 0 := by
  rw [macAadataEx] at h
  simp only [check_bind] at h
  obtain ⟨hsize, -, -, haad, -, -, -, h⟩ := h
  obtain ⟨keyId, -, h⟩ := Checks.bind_eq_ok.mp h
  obtain ⟨hmade, -, -⟩ := made_of_sealDataIv h rfl (length_read ..) (by simpa using hsize)
  refine ⟨hmade, fun h0 => ?_⟩
  rw [h0] at haad
  simp at haad

/-! ### Opening them -/

section Open

variable [DecidableEq K] [DecidableEq T] {log : List (Aead.Entry K UInt8)}

/-- The buffers of the caller lie apart and fit the lengths in the header. -/
structure Fits (pf : Platform K T) (d : SealedData T) (a : UnsealArgs) : Prop where
  apart : Apart d a
  header : a.sealedPtr ≠ 0 ∧ pf.within a.sealedPtr sizeofSealedData = true
  blob : pf.within a.sealedPtr (calcSealedDataSize (getAddMacTxtLen d) (getEncryptTxtLen d)) = true
  text : getEncryptTxtLen d ≠ 0 → a.textPtr ≠ 0 ∧ a.textLengthPtr ≠ 0 ∧
    pf.within a.textLengthPtr 4 = true ∧ getEncryptTxtLen d ≤ a.textLength ∧
    pf.within a.textPtr a.textLength = true
  aad : getAddMacTxtLen d ≠ 0 → a.aadPtr ≠ 0 ∧ a.aadLengthPtr ≠ 0 ∧
    getAddMacTxtLen d ≤ a.aadLength ∧ oneSide pf a.aadPtr a.aadLength = true
  aadLength : a.aadLengthPtr ≠ 0 → oneSide pf a.aadLengthPtr 4 = true

variable {aadLength textLength : UInt32} {r : Sealed K T} {copied : List UInt8}

/-- A blob is opened if its additional data is the one of the encryption. -/
theorem unsealDataHelper_of_made (h : Made pf r aadLength textLength copied)
    (hlog : r.entry ∈ log) :
    unsealDataHelper pf log .none r.blob aadLength textLength
      = if r.entry.aad = copied then .ok (r.entry.text, copied) else .error .macMismatch := by
  have hlength := pf.gcm.length_encrypt r.entry.key r.entry.aad r.entry.text
  obtain ⟨htext, haad⟩ := slice_append (hlength.trans h.text) h.copied
  rw [unsealDataHelper, Faults.none, answer, h.key]
  dsimp only
  rw [if_pos h.accepts, h.payload, htext, haad, h.tag]
  by_cases he : r.entry.aad = copied
  · have hdecrypt : pf.gcm.decrypt log r.entry.key copied
        (pf.gcm.encrypt r.entry.key r.entry.aad r.entry.text).1
        (pf.gcm.encrypt r.entry.key r.entry.aad r.entry.text).2 = some r.entry.text := by
      rw [Aead.decrypt_eq_some, ← he]
      exact ⟨hlog, rfl⟩
    rw [hdecrypt, if_pos he]
    rfl
  · rw [Aead.decrypt_ne_aad pf.gcm he, if_neg he]

theorem check_true {e : Status} {α : Type} {f : Unit → Except Status α} {b : Bool} (h : b = true) :
    (check b e >>= f) = f () := by
  rw [h]
  rfl

omit [DecidableEq K] [DecidableEq T] in
/-- The lengths in the header of a blob that was made. -/
theorem Made.lengths (h : Made pf r aadLength textLength copied) :
    getEncryptTxtLen r.blob = textLength ∧ getAddMacTxtLen r.blob = aadLength ∧
      textLength ≠ uint32Max ∧ aadLength ≠ uint32Max := by
  have hlt := lt_of_calcSealedDataSize h.size
  have hmax : uint32Max.toNat = 2 ^ 32 - 1 := rfl
  refine ⟨h.offset, getAddMacTxtLen_add (by omega) h.payloadSize h.offset, fun he => ?_, fun he => ?_⟩
  · rw [he] at hlt
    omega
  · rw [he] at hlt
    omega

variable {a : UnsealArgs}

theorem unsealData_of_made (h : Made pf r aadLength textLength copied) (htext : textLength ≠ 0)
    (hfits : Fits pf r.blob a) :
    unsealData pf log r.blob a = unsealDataHelper pf log a.faults r.blob aadLength textLength := by
  obtain ⟨hoffset, haad, hmax, hmax'⟩ := h.lengths
  obtain ⟨-, hheader, hblob, hbuf, hadd, haddl⟩ := hfits
  rw [hoffset, haad] at hblob
  rw [hoffset] at hbuf
  rw [haad] at hadd
  obtain ⟨htextPtr, htextLengthPtr, hwithin, hle, htextWithin⟩ := hbuf htext
  have hpos : 0 < textLength := UInt32.pos_iff_ne_zero.mpr htext
  have hone : ¬ textLength < 1 := by
    rw [UInt32.lt_iff_toNat_lt] at hpos ⊢
    exact Nat.not_lt.mpr hpos
  have hlength : (!(a.aadLengthPtr != 0 && !oneSide pf a.aadLengthPtr 4)) = true := by
    by_cases hp : a.aadLengthPtr = 0
    · simp [hp]
    · simp [haddl hp]
  rw [unsealData, hoffset, haad]
  rw [check_true (by simp [hheader]), check_true (by simpa using hmax),
    check_true (by simpa using hmax'), check_true (by simpa using h.size), check_true hblob]
  by_cases h0 : aadLength = 0
  · subst h0
    rw [check_true (by simp), check_true (by simp [hone, htextPtr, htextLengthPtr]),
      check_true hwithin, check_true (by simpa using hle), check_true htextWithin,
      check_true hlength, check_true (by simp), check_true (by simp)]
  · obtain ⟨haadPtr, haadLengthPtr, haadLe, haadSide⟩ := hadd h0
    rw [check_true (by simp [haadPtr, haadLengthPtr]),
      check_true (by simp [hone, htextPtr, htextLengthPtr]),
      check_true hwithin, check_true (by simpa using hle), check_true htextWithin,
      check_true hlength, check_true (by simpa [haadLengthPtr] using haadLe),
      check_true (by simp [haadLengthPtr, haadSide])]

theorem unmacAadata_of_made (h : Made pf r aadLength 0 copied) (haad : aadLength ≠ 0)
    (hfits : Fits pf r.blob a) :
    unmacAadata pf log r.blob a = unsealDataHelper pf log a.faults r.blob aadLength 0 := by
  obtain ⟨hoffset, hlen, -, hmax⟩ := h.lengths
  obtain ⟨-, hheader, hblob, -, hadd, haddl⟩ := hfits
  rw [hoffset, hlen] at hblob
  rw [hlen] at hadd
  obtain ⟨haadPtr, haadLengthPtr, haadLe, haadSide⟩ := hadd haad
  rw [unmacAadata, hoffset, hlen]
  rw [check_true (by simp [hheader]), check_true (by simp), check_true (by simp [hmax, haad]),
    check_true (by simpa using h.size), check_true hblob,
    check_true (by simp [haadPtr, haadLengthPtr]), check_true (haddl haadLengthPtr),
    check_true (by simpa using haadLe), check_true haadSide]

variable {d : SealedData T} {aad text : List UInt8}

/-- What is opened was encrypted, and nothing has failed. -/
theorem mem_of_unsealDataHelper {f : Faults}
    (h : unsealDataHelper pf log f d aadLength textLength = .ok (text, aad)) :
    f = .none ∧ ∃ key, ⟨key, aad, text⟩ ∈ log := by
  rw [unsealDataHelper] at h
  cases hkey : answer f.getKey (pf.getKey d.keyRequest) with
  | error e =>
    rw [hkey] at h
    cases h
  | ok key =>
    rw [hkey] at h
    dsimp only at h
    split at h
    · split at h
      · cases h
      · rename_i text' hdecrypt
        obtain ⟨hgcm, h⟩ := of_answer h
        cases h
        obtain ⟨hget, -⟩ := of_answer hkey
        exact ⟨congrArg₂ Faults.mk hget hgcm, key, ((Aead.decrypt_eq_some pf.gcm).mp hdecrypt).1⟩
    · cases h

theorem mem_of_unsealData (h : unsealData pf log d a = .ok (text, aad)) :
    ∃ key, ⟨key, aad, text⟩ ∈ log := by
  rw [unsealData] at h
  simp only [check_bind] at h
  obtain ⟨-, -, -, -, -, -, -, -, -, -, -, -, -, h⟩ := h
  exact (mem_of_unsealDataHelper h).2

theorem mem_of_unmacAadata (h : unmacAadata pf log d a = .ok (text, aad)) :
    ∃ key, ⟨key, aad, text⟩ ∈ log := by
  rw [unmacAadata] at h
  simp only [check_bind] at h
  obtain ⟨-, -, -, -, -, -, -, -, -, h⟩ := h
  exact (mem_of_unsealDataHelper h).2

end Open

/-! ### Runs -/

/-- A blob that was returned, and the additional data that was copied into it; `mac` if it has
no text. -/
structure Record (K T : Type) where
  made : Sealed K T
  copied : List UInt8
  mac : Bool

inductive Action where
  | sealDataEx (a : SealArgs) (x : Chance)
  | macAadataEx (a : SealArgs) (x : Chance)

/-- The result of a call is recorded if it is a blob. -/
def record (copied : List UInt8) (mac : Bool) (s : List (Record K T)) :
    Except Status (Sealed K T) → List (Record K T)
  | .ok r => ⟨r, copied, mac⟩ :: s
  | .error _ => s

def step (pf : Platform K T) : Action → List (Record K T) → Option (List (Record K T))
  | .sealDataEx a x, s =>
    some (record (read x.late a.aadPtr a.aadLength) false s (sealDataEx pf a x))
  | .macAadataEx a x, s =>
    some (record (read x.late a.aadPtr a.aadLength) true s (macAadataEx pf a x))

/-- All that was encrypted. -/
def log (s : List (Record K T)) : List (Aead.Entry K UInt8) := s.map fun r => r.made.entry

/-- The call that opens what a call has made. -/
def openBlob [DecidableEq K] [DecidableEq T] (pf : Platform K T) (s : List (Record K T))
    (r : Record K T) (a : UnsealArgs) : Except Status (List UInt8 × List UInt8) :=
  if r.mac then unmacAadata pf (log s) r.made.blob a else unsealData pf (log s) r.made.blob a

/-- Every record is of a blob that was made. -/
def Good (pf : Platform K T) (r : Record K T) : Prop :=
  ∃ aadLength textLength, Made pf r.made aadLength textLength r.copied ∧
    if r.mac then textLength = 0 ∧ aadLength ≠ 0 else textLength ≠ 0

theorem good_of_run {actions : List Action} {s : List (Record K T)}
    (hrun : run (step pf) actions [] = some s) : ∀ r ∈ s, Good pf r := by
  refine invariant_of_run (I := fun s => ∀ r ∈ s, Good pf r) ?_ hrun fun r hr => ?_
  · intro a s s' h hs
    cases a with
    | sealDataEx a x =>
      cases hs
      cases hseal : sealDataEx pf a x with
      | error e => exact h
      | ok made =>
        obtain ⟨hmade, htext, -⟩ := made_of_sealDataEx hseal
        intro r hr
        rcases mem_cons.mp hr with rfl | hr
        · exact ⟨_, _, hmade, htext⟩
        · exact h r hr
    | macAadataEx a x =>
      cases hs
      cases hmac : macAadataEx pf a x with
      | error e => exact h
      | ok made =>
        obtain ⟨hmade, haad⟩ := made_of_macAadataEx hmac
        intro r hr
        rcases mem_cons.mp hr with rfl | hr
        · exact ⟨_, _, hmade, rfl, haad⟩
        · exact h r hr
  · cases hr

variable [DecidableEq K] [DecidableEq T]

/-- **Sealed data.**  After every run of calls that seal data, a blob that was returned is opened with
its text and the additional data it holds, by every caller with fitting buffers, exactly if
the additional data was the same both times it was read and neither `sgx_get_key` nor AES-GCM fails;
and everything that is opened into buffers that lie apart, from whatever bytes, is the text and
the additional data of an earlier call. -/
theorem seal_round_trip {actions : List Action} {s : List (Record K T)}
    (hrun : run (step pf) actions [] = some s) :
    (∀ r ∈ s, ∀ a, Fits pf r.made.blob a →
      (openBlob pf s r a = .ok (r.made.entry.text, r.copied) ↔
        r.made.entry.aad = r.copied ∧ a.faults = .none)) ∧
    ∀ d a text aad, Apart d a → unsealData pf (log s) d a = .ok (text, aad) ∨
        unmacAadata pf (log s) d a = .ok (text, aad) →
      ∃ r ∈ s, r.made.entry.text = text ∧ r.made.entry.aad = aad := by
  constructor
  · intro r hr a hfits
    obtain ⟨aadLength, textLength, hmade, hlengths⟩ := good_of_run hrun r hr
    have hlog : r.made.entry ∈ log s := List.mem_map_of_mem hr
    have hopen : openBlob pf s r a
        = unsealDataHelper pf (log s) a.faults r.made.blob aadLength textLength := by
      rw [openBlob]
      by_cases hmac : r.mac = true
      · rw [if_pos hmac] at hlengths ⊢
        obtain ⟨rfl, haad⟩ := hlengths
        exact unmacAadata_of_made hmade haad hfits
      · rw [if_neg hmac] at hlengths ⊢
        exact unsealData_of_made hmade hlengths hfits
    rw [hopen]
    constructor
    · intro h
      obtain ⟨hfaults, -⟩ := mem_of_unsealDataHelper h
      refine ⟨?_, hfaults⟩
      by_contra hne
      rw [hfaults, unsealDataHelper_of_made hmade hlog, if_neg hne] at h
      cases h
    · rintro ⟨he, hfaults⟩
      rw [hfaults, unsealDataHelper_of_made hmade hlog, if_pos he]
  · intro d a text aad _ h
    obtain ⟨key, hmem⟩ : ∃ key, ⟨key, aad, text⟩ ∈ log s := by
      rcases h with h | h
      · exact mem_of_unsealData h
      · exact mem_of_unmacAadata h
    obtain ⟨r, hr, he⟩ := List.mem_map.mp hmem
    exact ⟨r, hr, congrArg Aead.Entry.text he, congrArg Aead.Entry.aad he⟩

/-! ### A blob and its additional data -/

/-- An enclave from 0x10000 on, with the key identifier as its key. -/
def plainPlatform : Platform (Vector UInt8 32) (List UInt8 × List UInt8) where
  within p _ := 0x10000 ≤ p
  outside p _ := p < 0x10000
  cpuSvn := Vector.replicate 16 0
  isvSvn := 1
  configSvn := 0
  getKey request := .ok request.keyId
  gcm := {
    encrypt := fun _ a p => (p, (a, p))
    length_encrypt := fun _ _ _ => rfl
    injective := fun _ _ _ _ _ h => by
      rw [Prod.mk.injEq, Prod.mk.injEq] at h
      exact h.2 }
  gcmAccepts _ _ := true

/-- Two bytes in the enclave, with one byte outside of it as additional data. -/
def outsideArgs : SealArgs where
  keyPolicy := 2
  attributeFlags := 3
  attributeXfrm := 0
  miscMask := 0
  aadLength := 1
  aadPtr := 0x8000
  textLength := 2
  textPtr := 0x20000
  sealedDataSize := 563
  sealedPtr := 0x30000

def outsideChance (late : UInt8) : Chance where
  keyId := .ok (Vector.replicate 32 7)
  early _ := 1
  late _ := late
  faults := .none

def openArgs : UnsealArgs where
  sealedPtr := 0x30000
  aadPtr := 0x40000
  aadLengthPtr := 0x50000
  aadLength := 1
  textPtr := 0x60000
  textLengthPtr := 0x70000
  textLength := 2
  faults := .none

/-- The call succeeds whatever the byte is when it is copied. -/
theorem sealDataEx_outside (late : UInt8) :
    ∃ r, sealDataEx plainPlatform outsideArgs (outsideChance late) = .ok r ∧
      Fits plainPlatform r.blob openArgs := by
  refine ⟨_, rfl, ?_⟩
  have hsealed : sealDataEx plainPlatform outsideArgs (outsideChance late) = .ok _ := rfl
  obtain ⟨htext, haad, -, -⟩ := (made_of_sealDataEx hsealed).1.lengths
  refine ⟨?_, by decide, ?_, fun _ => ?_, fun _ => ?_, fun _ => by decide⟩
  · rw [Apart, haad, htext]
    decide
  · rw [haad, htext]
    decide
  · rw [htext]
    decide
  · rw [haad]
    decide

/-- With a byte that does not change, the blob is opened. -/
theorem seal_round_trip_stable :
    ∃ s r, run (step plainPlatform) [.sealDataEx outsideArgs (outsideChance 1)] [] = some s ∧
      r ∈ s ∧ openBlob plainPlatform s r openArgs = .ok (r.made.entry.text, r.copied) := by
  obtain ⟨made, hmade, hfits⟩ := sealDataEx_outside 1
  obtain ⟨-, -, haad⟩ := made_of_sealDataEx hmade
  have hrun : run (step plainPlatform) [.sealDataEx outsideArgs (outsideChance 1)] []
      = some [⟨made, read (outsideChance 1).late 0x8000 1, false⟩] := by
    show (some (record _ _ _ (sealDataEx _ _ _))).bind _ = _
    rw [hmade]
    rfl
  refine ⟨_, _, hrun, mem_singleton_self _, ?_⟩
  exact ((seal_round_trip hrun).1 _ (mem_singleton_self _) openArgs hfits).mpr ⟨haad, rfl⟩

/-- **A blob that cannot be opened.**  The host changes the additional data between the encryption
and the copy. -/
theorem sealed_not_openable :
    ∃ s r, run (step plainPlatform) [.sealDataEx outsideArgs (outsideChance 2)] [] = some s ∧
      r ∈ s ∧ Fits plainPlatform r.made.blob openArgs ∧
      openBlob plainPlatform s r openArgs = .error .macMismatch := by
  obtain ⟨made, hmade, hfits⟩ := sealDataEx_outside 2
  obtain ⟨h, htext, haad⟩ := made_of_sealDataEx hmade
  have hrun : run (step plainPlatform) [.sealDataEx outsideArgs (outsideChance 2)] []
      = some [⟨made, read (outsideChance 2).late 0x8000 1, false⟩] := by
    show (some (record _ _ _ (sealDataEx _ _ _))).bind _ = _
    rw [hmade]
    rfl
  have hlog : made.entry ∈ log [⟨made, read (outsideChance 2).late 0x8000 1, false⟩] :=
    mem_singleton_self _
  refine ⟨_, _, hrun, mem_singleton_self _, hfits, ?_⟩
  show unsealData _ _ made.blob _ = _
  rw [unsealData_of_made h htext hfits, show openArgs.faults = .none from rfl,
    unsealDataHelper_of_made h hlog]
  refine if_neg fun he => ?_
  rw [haad] at he
  revert he
  decide

end Sealing
