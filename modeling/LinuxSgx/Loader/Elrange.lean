/-
The linear address range of an enclave (`loader.cpp` and the signing tool's `manage_metadata.cpp`).

A range may be configured for the enclave that is larger than the enclave's image.  The signing tool
checks it and stores it in the metadata; the loader checks it again.

* `setElrangeConfig` — the loader's check, the tool's is `vaildateElrangeConfig`;
* `ElrangeOk` — what both ask for;
* **`elrange_agreed`** — the loader accepts what the tool does, and then the image lies in the range;
* `zero_elrange_refused` — a range of size zero is no range.
-/
import Mathlib

/-! ### The signing tool -/

namespace SignTool

/-- `xml_parameter_t`: a value, and whether the configuration file sets it. -/
structure XmlParameter where
  value : UInt64
  flag : Bool
  deriving DecidableEq, Repr

/-- The parameters that say where the enclave's range is. -/
structure Parameters where
  enclaveImageAddress : XmlParameter
  elrangeStartAddress : XmlParameter
  elrangeSize : XmlParameter
  deriving DecidableEq, Repr

/-- The parameters without a configuration file. -/
def Parameters.defaults : Parameters := ⟨⟨0, false⟩, ⟨0, false⟩, ⟨0, false⟩⟩

def isPowerOfTwo (n : UInt64) : Bool := n ≠ 0 ∧ n &&& (n - 1) = 0

/-- The check of the signing tool; `rva` is the end of the layout. -/
def vaildateElrangeConfig (p : Parameters) (rva : UInt64) : Bool :=
  let image := p.enclaveImageAddress.value
  let start := p.elrangeStartAddress.value
  let size := p.elrangeSize.value
  size = 0 ∨
    (image % 4096 = 0 ∧ start % 4096 = 0 ∧ size % 4096 = 0 ∧ start &&& (size - 1) = 0 ∧
      start ≤ image ∧ ¬(image + rva < image ∨ image + rva < rva) ∧
      ¬(start + size < start ∨ start + size < size) ∧ image + rva ≤ start + size ∧
      isPowerOfTwo size)

/-- The version that is written to the metadata. -/
def metadataVersion (p : Parameters) : UInt64 :=
  if p.elrangeSize.value = 0 then 0x200000004 else 0xC00000004

end SignTool

/-! ### The loader -/

namespace Loader

open SignTool

/-- `elrange_config_entry_t`. -/
structure ElrangeConfigEntry where
  enclaveImageAddress : UInt64
  elrangeStartAddress : UInt64
  elrangeSize : UInt64
  deriving DecidableEq

/-- `SGX_MAJOR_VERSION_GAP`. -/
def sgxMajorVersionGap : UInt64 := 10

/-- `set_elrange_config`: `none` is `SGX_ERROR_INVALID_METADATA`, otherwise it is the range that is
set. -/
def setElrangeConfig (version : UInt64) (e : ElrangeConfigEntry) (enclaveSize : UInt64) :
    Option (Option ElrangeConfigEntry) :=
  if version >>> 32 ≤ sgxMajorVersionGap then some none
  else if e.elrangeSize = 0 then none
  else if e.elrangeStartAddress > e.enclaveImageAddress then none
  else if e.elrangeSize % 4096 ≠ 0 ∨ e.elrangeStartAddress % 4096 ≠ 0 ∨
      e.enclaveImageAddress % 4096 ≠ 0 then none
  else if isPowerOfTwo e.elrangeSize = false then none
  else if e.elrangeStartAddress &&& (e.elrangeSize - 1) ≠ 0 then none
  else
    let elrangeEnd := e.elrangeStartAddress + e.elrangeSize
    if elrangeEnd < e.elrangeStartAddress ∨ elrangeEnd < e.elrangeSize then none
    -- unlike the tool, this does not check the sum for an overflow
    else if e.enclaveImageAddress ≥ elrangeEnd ∨ e.enclaveImageAddress + enclaveSize > elrangeEnd then
      none
    else some (some e)

/-- The entry of `build_elrange_config_entry`. -/
def elrangeConfigEntry (p : Parameters) : ElrangeConfigEntry where
  enclaveImageAddress := p.enclaveImageAddress.value
  elrangeStartAddress := p.elrangeStartAddress.value
  elrangeSize := p.elrangeSize.value

/-- What both sides ask of the range, whatever the enclave's size is. -/
structure ElrangeOk (e : ElrangeConfigEntry) : Prop where
  image : e.enclaveImageAddress % 4096 = 0
  start : e.elrangeStartAddress % 4096 = 0
  size : e.elrangeSize % 4096 = 0
  natural : e.elrangeStartAddress &&& (e.elrangeSize - 1) = 0
  order : e.elrangeStartAddress ≤ e.enclaveImageAddress
  noWrap : ¬(e.elrangeStartAddress + e.elrangeSize < e.elrangeStartAddress ∨
    e.elrangeStartAddress + e.elrangeSize < e.elrangeSize)
  power : isPowerOfTwo e.elrangeSize = true

namespace ElrangeConfigEntry

variable (e : ElrangeConfigEntry) (rva enclaveSize : UInt64)

/-- The range's end, as a number. -/
def elrangeEnd : ℕ := e.elrangeStartAddress.toNat + e.elrangeSize.toNat

/-- The image's end, as a number. -/
def imageEnd : ℕ := e.enclaveImageAddress.toNat + enclaveSize.toNat

end ElrangeConfigEntry

section Checks

variable {e : ElrangeConfigEntry} {version rva enclaveSize : UInt64} {p : Parameters}

theorem ElrangeOk.toNat_add (h : ElrangeOk e) :
    (e.elrangeStartAddress + e.elrangeSize).toNat = e.elrangeEnd := by
  have hwrap := h.noWrap
  have hstart := e.elrangeStartAddress.toNat_lt
  have hsize := e.elrangeSize.toNat_lt
  rw [ElrangeConfigEntry.elrangeEnd]
  simp only [UInt64.lt_iff_toNat_lt, UInt64.toNat_add] at hwrap ⊢
  omega

/-- The loader's checks. -/
theorem setElrangeConfig_isSome_iff (hversion : ¬version >>> 32 ≤ sgxMajorVersionGap)
    (hsize : e.elrangeSize ≠ 0) :
    (setElrangeConfig version e enclaveSize).isSome = true ↔ ElrangeOk e ∧
      e.enclaveImageAddress < e.elrangeStartAddress + e.elrangeSize ∧
      e.enclaveImageAddress + enclaveSize ≤ e.elrangeStartAddress + e.elrangeSize := by
  rw [setElrangeConfig, if_neg hversion, if_neg hsize]
  dsimp only
  constructor
  · intro h
    split_ifs at h with horder halign hpower hnatural hwrap hinside
    iterate 6 exact absurd h Bool.false_ne_true
    simp only [ne_eq, not_or, not_not] at halign
    simp only [not_or, ge_iff_le, gt_iff_lt, UInt64.not_le, UInt64.not_lt] at hinside
    refine ⟨⟨halign.2.2, halign.2.1, halign.1, not_not.mp hnatural, UInt64.not_lt.mp horder, hwrap, ?_⟩,
      hinside⟩
    simpa using hpower
  · rintro ⟨hok, himage, hinside⟩
    rw [if_neg (UInt64.not_lt.mpr hok.order), if_neg (by simp [hok.size, hok.start, hok.image]),
      if_neg (by simp [hok.power]), if_neg (by simp [hok.natural]), if_neg hok.noWrap, if_neg]
    · rfl
    · rintro (hge | hgt)
      · exact UInt64.not_lt.mpr hge himage
      · exact UInt64.not_lt.mpr hinside hgt

/-- The tool's checks. -/
theorem vaildateElrangeConfig_iff (hsize : p.elrangeSize.value ≠ 0) :
    vaildateElrangeConfig p rva = true ↔ ElrangeOk (elrangeConfigEntry p) ∧
      (elrangeConfigEntry p).imageEnd rva ≤ (elrangeConfigEntry p).elrangeEnd := by
  have himage := p.enclaveImageAddress.value.toNat_lt
  have hrva := rva.toNat_lt
  simp only [vaildateElrangeConfig, decide_eq_true_eq, hsize, false_or]
  constructor
  · rintro ⟨h₁, h₂, h₃, h₄, h₅, hfits, hwrap, hle, hpower⟩
    have hok : ElrangeOk (elrangeConfigEntry p) := ⟨h₁, h₂, h₃, h₄, h₅, hwrap, hpower⟩
    refine ⟨hok, ?_⟩
    rw [← hok.toNat_add]
    simp only [UInt64.lt_iff_toNat_lt, UInt64.le_iff_toNat_le, UInt64.toNat_add] at hfits hle
    simp only [ElrangeConfigEntry.imageEnd, elrangeConfigEntry, UInt64.toNat_add]
    omega
  · rintro ⟨hok, hle⟩
    have hend := (p.elrangeStartAddress.value + p.elrangeSize.value).toNat_lt
    rw [← hok.toNat_add] at hle
    simp only [ElrangeConfigEntry.imageEnd, elrangeConfigEntry] at hle
    have hsum : (p.enclaveImageAddress.value + rva).toNat =
        p.enclaveImageAddress.value.toNat + rva.toNat := by
      rw [UInt64.toNat_add]
      omega
    refine ⟨hok.image, hok.start, hok.size, hok.natural, hok.order, ?_, hok.noWrap, ?_, hok.power⟩
    · simp only [UInt64.lt_iff_toNat_lt, hsum]
      omega
    · rw [UInt64.le_iff_toNat_le, hsum]
      exact hle

/-- Without an overflow, the loader's comparison is that of the numbers. -/
theorem add_le_elrangeEnd (hok : ElrangeOk e) (hfits : e.imageEnd enclaveSize < 2 ^ 64) :
    e.enclaveImageAddress + enclaveSize ≤ e.elrangeStartAddress + e.elrangeSize ↔
      e.imageEnd enclaveSize ≤ e.elrangeEnd := by
  rw [UInt64.le_iff_toNat_le, hok.toNat_add, UInt64.toNat_add]
  rw [ElrangeConfigEntry.imageEnd] at hfits ⊢
  rw [Nat.mod_eq_of_lt hfits]

end Checks

/-- The version of metadata with a range. -/
theorem not_le_gap_of_elrangeSize {p : Parameters} (hsize : p.elrangeSize.value ≠ 0) :
    ¬metadataVersion p >>> 32 ≤ sgxMajorVersionGap := by
  rw [metadataVersion, if_neg hsize]
  decide

/-- **The loader and the signing tool agree.**  Let a range be configured, of which the end is not
between that of the layout (`rva`, which the tool checks) and that of the enclave, and let the
enclave's end be a 64-bit number.  If the loader accepts, then the enclave lies in the range; and it
accepts exactly if the tool does.  Without a range the tool accepts, and the loader sets none; it
refuses an entry of size zero. -/
theorem elrange_agreed (p : Parameters) (rva enclaveSize : UInt64) :
    let e := elrangeConfigEntry p
    let accepted := setElrangeConfig (metadataVersion p) e enclaveSize
    (e.elrangeSize ≠ 0 → e.imageEnd enclaveSize < 2 ^ 64 →
      (accepted.isSome = true →
        e.elrangeStartAddress.toNat ≤ e.enclaveImageAddress.toNat ∧
          e.imageEnd enclaveSize ≤ e.elrangeEnd) ∧
      (0 < rva → rva ≤ enclaveSize →
        ¬(e.imageEnd rva ≤ e.elrangeEnd ∧ e.elrangeEnd < e.imageEnd enclaveSize) →
        (accepted.isSome = true ↔ vaildateElrangeConfig p rva = true))) ∧
    (e.elrangeSize = 0 → vaildateElrangeConfig p rva = true ∧ accepted = some none ∧
      ∀ version : UInt64, ¬version >>> 32 ≤ sgxMajorVersionGap →
        setElrangeConfig version e enclaveSize = none) := by
  intro e accepted
  refine ⟨?_, ?_⟩
  · intro hsize hfits
    have haccepted : accepted.isSome = true ↔ _ :=
      setElrangeConfig_isSome_iff (not_le_gap_of_elrangeSize hsize) hsize
    refine ⟨?_, ?_⟩
    · intro h
      obtain ⟨hok, -, hinside⟩ := haccepted.mp h
      exact ⟨UInt64.le_iff_toNat_le.mp hok.order, (add_le_elrangeEnd hok hfits).mp hinside⟩
    · intro hpos hle hgap
      rw [UInt64.lt_iff_toNat_lt, UInt64.toNat_zero] at hpos
      rw [UInt64.le_iff_toNat_le] at hle
      rw [haccepted, vaildateElrangeConfig_iff hsize]
      have hrva : e.imageEnd rva ≤ e.imageEnd enclaveSize := Nat.add_le_add_left hle _
      constructor
      · rintro ⟨hok, -, hinside⟩
        exact ⟨hok, hrva.trans ((add_le_elrangeEnd hok hfits).mp hinside)⟩
      · rintro ⟨hok, hend⟩
        -- a layout is not empty, so the image starts in front of the range's end
        have himage : e.enclaveImageAddress.toNat < e.elrangeEnd :=
          lt_of_lt_of_le (Nat.lt_add_of_pos_right hpos) hend
        refine ⟨hok, ?_, (add_le_elrangeEnd hok hfits).mpr ?_⟩
        · rw [UInt64.lt_iff_toNat_lt, hok.toNat_add]
          exact himage
        · exact not_lt.mp fun hlt => hgap ⟨hend, hlt⟩
  · intro hsize
    refine ⟨?_, ?_, ?_⟩
    · simp only [vaildateElrangeConfig, decide_eq_true_eq]
      exact .inl hsize
    · have hversion : metadataVersion p = 0x200000004 := if_pos hsize
      show setElrangeConfig (metadataVersion p) e enclaveSize = some none
      rw [setElrangeConfig, hversion]
      exact if_pos (by decide)
    · intro version hversion
      rw [setElrangeConfig, if_neg hversion, if_pos hsize]

/-- A range of 1 MiB at 1 MiB, for a layout of `0x71000` bytes. -/
def configured : Parameters := ⟨⟨0x100000, true⟩, ⟨0x100000, true⟩, ⟨0x100000, true⟩⟩

theorem elrange_agreed_configured :
    (setElrangeConfig (metadataVersion configured) (elrangeConfigEntry configured) 0x80000).isSome
        = true ∧
      vaildateElrangeConfig configured 0x71000 = true ∧
      (elrangeConfigEntry configured).imageEnd 0x80000 ≤ (elrangeConfigEntry configured).elrangeEnd := by
  obtain ⟨hinside, hiff⟩ := (elrange_agreed configured 0x71000 0x80000).1 (by decide) (by decide)
  have htool : vaildateElrangeConfig configured 0x71000 = true := by decide
  have hloader := (hiff (by decide) (by decide) (by decide)).mpr htool
  exact ⟨hloader, htool, (hinside hloader).2⟩

/-- The tool validates a range of size zero, the loader does not. -/
theorem zero_elrange_refused :
    ∃ p : Parameters, ∃ rva : UInt64, vaildateElrangeConfig p rva = true ∧
      setElrangeConfig 0xC00000004 (elrangeConfigEntry p) rva = none :=
  ⟨Parameters.defaults, 4096, by decide, by decide⟩

end Loader
