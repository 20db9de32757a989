/-
Enclave metadata and its validation (`metadata.h`, `loader.cpp`).

The loader takes the metadata as it lies in memory: a header, two directories
and the tables they point to.  `Metadata.parse` reads a header and its tables from a
memory image, at the offsets of `metadata_t`; beyond the size the header states, the
image is whatever follows in memory.

The layout table consists of entries, which place pages in the enclave, and groups,
which repeat a number of entries before them.  `validateMetadata` is the check that
everything after it relies on.
-/
import LinuxSgx.Lib.Prog

namespace Loader

/-! ### Structures -/

section Structures

/-- `layout_entry_t`. -/
structure LayoutEntry where
  id : UInt16
  attributes : UInt16
  pageCount : UInt32
  rva : UInt64
  contentSize : UInt32
  contentOffset : UInt32
  siFlags : UInt64
deriving DecidableEq, Repr

/-- `layout_group_t`. -/
structure LayoutGroup where
  id : UInt16
  entryCount : UInt16
  loadTimes : UInt32
  loadStep : UInt64
deriving DecidableEq, Repr

/-- `layout_t`, told apart by its identifier. -/
inductive Layout
  | entry (e : LayoutEntry)
  | group (g : LayoutGroup)
deriving DecidableEq, Repr

/-- `patch_entry_t`. -/
structure PatchEntry where
  dst : UInt64
  src : UInt32
  size : UInt32
deriving DecidableEq, Repr

/-- `data_directory_t`. -/
structure DataDirectory where
  offset : UInt32
  size : UInt32
deriving DecidableEq, Repr

/-- The fields of `metadata_t` that the loader validates, with the tables. -/
structure Metadata where
  version : UInt64
  size : UInt32
  tcsPolicy : UInt32
  ssaFrameSize : UInt32
  enclaveSize : UInt64
  patchDir : DataDirectory
  layoutDir : DataDirectory
  patches : List PatchEntry
  layouts : List Layout
deriving DecidableEq, Repr

def pageShift : UInt64 := 12

/-- `page_count << SE_PAGE_SHIFT` in 64 bits. -/
def LayoutEntry.bytes (e : LayoutEntry) : UInt64 := e.pageCount.toUInt64 <<< pageShift

theorem LayoutEntry.toNat_bytes (e : LayoutEntry) : e.bytes.toNat = e.pageCount.toNat * 4096 := by
  have h := e.pageCount.toNat_lt
  have hshift : pageShift.toNat % 64 = 12 := rfl
  rw [bytes, UInt64.toNat_shiftLeft, UInt32.toNat_toUInt64, Nat.shiftLeft_eq, hshift]
  omega

/-- The entry as it stands when loaded `step` bytes further up. -/
def LayoutEntry.shift (e : LayoutEntry) (step : UInt64) : LayoutEntry :=
  { e with rva := e.rva + step }

/-- `IS_GROUP_ID`. -/
def isGroupId (id : UInt16) : Bool := id &&& 0x1000 ≠ 0

def pageAttrEadd : UInt16 := 0x01
def pageAttrEextend : UInt16 := 0x02
def pageAttrEremove : UInt16 := 0x04
def pageAttrPostAdd : UInt16 := 0x08
def pageAttrPostRemove : UInt16 := 0x10

def siFlagNone : UInt64 := 0
def siFlagsRw : UInt64 := 0x203
def siFlagsTcs : UInt64 := 0x100

def layoutIdTcsDyn : UInt16 := 14
def layoutIdRsrvMin : UInt16 := 20
def layoutIdRsrvInit : UInt16 := 21

end Structures

/-! ### Memory images -/

section Image

/-- Bytes from the start of the metadata on. -/
abbrev Image := ℕ → UInt8

/-- A little-endian number of `n` bytes. -/
def Image.number (m : Image) (off : ℕ) : ℕ → ℕ
  | 0 => 0
  | n + 1 => (m off).toNat + 256 * m.number (off + 1) n

def Image.u16 (m : Image) (off : ℕ) : UInt16 := UInt16.ofNat (m.number off 2)
def Image.u32 (m : Image) (off : ℕ) : UInt32 := UInt32.ofNat (m.number off 4)
def Image.u64 (m : Image) (off : ℕ) : UInt64 := UInt64.ofNat (m.number off 8)

/-- `sizeof(layout_t)` and `sizeof(patch_entry_t)`. -/
def entrySize : ℕ := 32

def Image.layout (m : Image) (off : ℕ) : Layout :=
  if isGroupId (m.u16 off) then
    .group ⟨m.u16 off, m.u16 (off + 2), m.u32 (off + 4), m.u64 (off + 8)⟩
  else
    .entry ⟨m.u16 off, m.u16 (off + 2), m.u32 (off + 4), m.u64 (off + 8), m.u32 (off + 16),
      m.u32 (off + 20), m.u64 (off + 24)⟩

def Image.patch (m : Image) (off : ℕ) : PatchEntry :=
  ⟨m.u64 off, m.u32 (off + 8), m.u32 (off + 12)⟩

/-- `offset + size`, computed in 32 bits. -/
def DataDirectory.fin (d : DataDirectory) : UInt32 := d.offset + d.size

/-- How many entries the loops over a table read, from `offset` while the pointer is
below the end: a last entry that sticks out is one of them. -/
def DataDirectory.count (d : DataDirectory) : ℕ :=
  (d.fin.toNat - d.offset.toNat + (entrySize - 1)) / entrySize

/-- The offset of an entry. -/
def DataDirectory.entryAt (d : DataDirectory) (i : ℕ) : ℕ := d.offset.toNat + entrySize * i

def Image.dir (m : Image) (off : ℕ) : DataDirectory := ⟨m.u32 off, m.u32 (off + 4)⟩

/-- `offsetof(metadata_t, dirs)` and `offsetof(metadata_t, data)`. -/
def dirsOffset : ℕ := 1872
def dataOffset : UInt32 := 1888

def Metadata.parse (m : Image) : Metadata where
  version := m.u64 8
  size := m.u32 16
  tcsPolicy := m.u32 20
  ssaFrameSize := m.u32 24
  enclaveSize := m.u64 40
  patchDir := m.dir dirsOffset
  layoutDir := m.dir (dirsOffset + 8)
  patches := (List.range (m.dir dirsOffset).count).map fun i =>
    m.patch ((m.dir dirsOffset).entryAt i)
  layouts := (List.range (m.dir (dirsOffset + 8)).count).map fun i =>
    m.layout ((m.dir (dirsOffset + 8)).entryAt i)

variable {a b : Image} {off i : ℕ}

theorem Metadata.length_layouts :
    (parse a).layouts.length = (parse a).layoutDir.count := by
  simp [parse]

theorem Metadata.getElem?_layouts (hi : i < (parse a).layoutDir.count) :
    (parse a).layouts[i]? = some (a.layout ((parse a).layoutDir.entryAt i)) := by
  have hi : i < (a.dir (dirsOffset + 8)).count := hi
  simp [parse, List.getElem?_range hi]

theorem Metadata.mem_patches (hi : i < (parse a).patchDir.count) :
    a.patch ((parse a).patchDir.entryAt i) ∈ (parse a).patches :=
  List.mem_map_of_mem (List.mem_range.mpr hi)

theorem Image.number_congr (n : ℕ) :
    ∀ {off : ℕ}, (∀ i, off ≤ i → i < off + n → a i = b i) → a.number off n = b.number off n := by
  induction n with
  | zero => exact fun _ => rfl
  | succ n ih =>
    intro off h
    rw [number, number, h off le_rfl (by omega), ih fun i h₁ h₂ => h i (by omega) (by omega)]

/-- A number inside an entry depends on the bytes of the entry only. -/
theorem Image.number_entry (h : ∀ i, off ≤ i → i < off + entrySize → a i = b i) (k n : ℕ)
    (hk : k + n ≤ entrySize) : a.number (off + k) n = b.number (off + k) n :=
  number_congr n fun i h₁ h₂ => h i (by omega) (by omega)

theorem Image.layout_congr (h : ∀ i, off ≤ i → i < off + entrySize → a i = b i) :
    a.layout off = b.layout off := by
  have h16 : ∀ k, k + 2 ≤ entrySize → a.u16 (off + k) = b.u16 (off + k) := fun k hk =>
    congrArg UInt16.ofNat (number_entry h k 2 hk)
  have h32 : ∀ k, k + 4 ≤ entrySize → a.u32 (off + k) = b.u32 (off + k) := fun k hk =>
    congrArg UInt32.ofNat (number_entry h k 4 hk)
  have h64 : ∀ k, k + 8 ≤ entrySize → a.u64 (off + k) = b.u64 (off + k) := fun k hk =>
    congrArg UInt64.ofNat (number_entry h k 8 hk)
  have hid : a.u16 off = b.u16 off := h16 0 (by decide)
  rw [layout, layout, hid, h16 2 (by decide), h32 4 (by decide), h64 8 (by decide),
    h32 16 (by decide), h32 20 (by decide), h64 24 (by decide)]

theorem Image.patch_congr (h : ∀ i, off ≤ i → i < off + entrySize → a i = b i) :
    a.patch off = b.patch off := by
  have hdst : a.u64 off = b.u64 off := congrArg UInt64.ofNat (number_entry h 0 8 (by decide))
  rw [patch, patch, hdst]
  simp only [u32, number_entry h 8 4 (by decide), number_entry h 12 4 (by decide)]

theorem Image.dir_congr (h : ∀ i, off ≤ i → i < off + 8 → a i = b i) : a.dir off = b.dir off := by
  simp only [dir, u32]
  rw [number_congr (a := a) (b := b) 4 fun i h₁ h₂ => h i (by omega) (by omega),
    number_congr (a := a) (b := b) 4 fun i h₁ h₂ => h i (by omega) (by omega)]

end Image

/-! ### Validation -/

section Validation

def isMetadataBuffer (m : Metadata) (offset size : UInt32) : Bool :=
  if dataOffset > offset ∨ offset ≥ m.size then false
  else
    let fin := offset + size
    ¬(fin < offset ∨ fin < size ∨ fin > m.size)

def isEnclaveBuffer (m : Metadata) (offset size : UInt64) : Bool :=
  if offset ≥ m.enclaveSize then false
  else
    let fin := offset + size
    ¬(fin < offset ∨ fin < size ∨ fin > m.enclaveSize)

/-- One repetition of a group, which may not contain groups. -/
def placeEntries (loadStep : UInt64) : List Layout → Option (List LayoutEntry)
  | [] => some []
  | .group _ :: _ => none
  | .entry e :: l => (placeEntries loadStep l).map (e.shift loadStep :: ·)

/-- The repetitions of a group; `acc` is the `load_step` so far. -/
def placeGroup (m : Metadata) (g : LayoutGroup) (l : List Layout) :
    ℕ → UInt64 → Option (List LayoutEntry)
  | 0, _ => some []
  | n + 1, acc =>
    let loadStep := acc + g.loadStep
    if loadStep > m.enclaveSize then none
    else do
      let now ← placeEntries loadStep l
      let later ← placeGroup m g l n loadStep
      some (now ++ later)

/-- The last `n` elements of a list. -/
def lastEntries {α : Type} (n : ℕ) (l : List α) : List α := l.drop (l.length - n)

/-- The vector that `validate_layout_table` collects, each element with the entry it
stems from; `pre` is the part of the table before the pointer. -/
def placeTable (m : Metadata) : List Layout → List Layout → Option (List LayoutEntry)
  | _, [] => some []
  | pre, .entry e :: rest =>
    if e.contentOffset ≠ 0 ∧ ¬isMetadataBuffer m e.contentOffset e.contentSize then none
    else (placeTable m (pre ++ [.entry e]) rest).map (e :: ·)
  | pre, .group g :: rest =>
    if g.entryCount.toNat > pre.length then none
    else do
      let now ← placeGroup m g (lastEntries g.entryCount.toNat pre) g.loadTimes.toNat 0
      let later ← placeTable m (pre ++ [.group g]) rest
      some (now ++ later)

/-- The order of `std::pair`. -/
def pairLe (p q : UInt64 × UInt64) : Prop := p.1 < q.1 ∨ p.1 = q.1 ∧ p.2 ≤ q.2

instance : DecidableRel pairLe := fun _ _ => inferInstanceAs (Decidable (_ ∨ _))

/-- The comparison with the next element of the sorted vector, if there is one. -/
def fitsBefore (p : UInt64 × UInt64) : List (UInt64 × UInt64) → Bool
  | [] => true
  | q :: _ => ¬(p.1 + p.2 > q.1)

/-- The loop over the sorted vector. -/
def checkRanges (m : Metadata) : List (UInt64 × UInt64) → Bool
  | [] => true
  | p :: l =>
    p.1 &&& 0xFFF = 0 && isEnclaveBuffer m p.1 p.2 && fitsBefore p l && checkRanges m l

def ranges (l : List LayoutEntry) : List (UInt64 × UInt64) := l.map fun e => (e.rva, e.bytes)

def validateLayoutTable (m : Metadata) : Bool :=
  match placeTable m [] m.layouts with
  | none => false
  | some l => checkRanges m ((ranges l).insertionSort pairLe)

def validatePatchTable (m : Metadata) : Bool :=
  m.patches.all fun p => isMetadataBuffer m p.src p.size ∧ isEnclaveBuffer m p.dst p.size.toUInt64

/-- `size` without its trailing zero bits. -/
def oddPart : ℕ → UInt64 → UInt64
  | 0, size => size
  | n + 1, size => if size ≠ 0 ∧ size &&& 1 ≠ 1 then oddPart n (size >>> 1) else size

/-- `MAJOR_VERSION_OF_METADATA(version) % SGX_MAJOR_VERSION_GAP`; the loader's is 2. -/
def versionOk (version : UInt64) : Bool := (version >>> 32) % 10 ≤ 2

/-- `maxSize` is what the parser reports as the largest size for the format of the file. -/
def validateMetadata (maxSize : UInt64) (m : Metadata) : Bool :=
  versionOk m.version ∧ m.tcsPolicy ≤ 1 ∧ 1 ≤ m.ssaFrameSize ∧ m.ssaFrameSize ≤ 2 ∧
    m.enclaveSize ≤ maxSize ∧ oddPart 64 m.enclaveSize = 1 ∧
    isMetadataBuffer m m.patchDir.offset m.patchDir.size ∧
    isMetadataBuffer m m.layoutDir.offset m.layoutDir.size ∧
    validateLayoutTable m ∧ validatePatchTable m

end Validation

end Loader
