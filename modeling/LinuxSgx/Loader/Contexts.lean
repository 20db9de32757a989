/-
Building, trimming and protecting the entries of a layout table (`loader.cpp`,
`trts_add_trim.cpp`, `trts_ecall.cpp`).

`buildContext` adds the pages of one entry, in one of three ways: a TCS page from its
template, a region from its content, or pages filled with a pattern or with zeros.  The
other functions act on whole ranges.  Every one of them is `walk` with its own action.

Page data is kept symbolically: `Source` says which bytes of the metadata a page is
filled with.  `touch` is an access to the metadata, without outcome beyond the bytes that
may be accessed.
-/
import LinuxSgx.Loader.Validated
import LinuxSgx.Loader.Walk

namespace Loader

open Prog

/-! ### The environment -/

section Environment

/-- What a page is filled with. -/
inductive Source
  /-- A null pointer: zeros. -/
  | null
  /-- `size` bytes at `offset` of the metadata, from `at` in the page on. -/
  | raw (offset size start : ℕ)
  /-- The TCS template, with its offsets moved by `rva`. -/
  | tcs (offset size : ℕ) (rva : UInt64)
  /-- One word, repeated. -/
  | fill (word : UInt32)
deriving DecidableEq, Repr

/-- What is asked of the driver, the kernel, the processor and the rest of the runtime. -/
inductive Call
  | addEnclavePage (rva : UInt64) (source : Source) (flags : UInt64) (attr : UInt16)
  | trimRange (first last : UInt64)
  | trimAccept (addr : UInt64)
  | mprotect (addr len prot : UInt64)
  | emodpr (addr len prot : UInt64)
  | acceptForward (flags lo hi : UInt64)
  | saveTcs (addr : UInt64)
  /-- The steps that have no part in the layout table. -/
  | getMiscAttr | buildSecs | getRelocBitmap | buildSections | initEnclave | destroyEnclave
  | initializeEnclave | protectSections | restrictSections
deriving DecidableEq, Repr

/-- What does not change while an enclave is loaded. -/
structure Config where
  startAddr : UInt64
  /-- Whether the driver and the processor support EDMM. -/
  edmm : Bool
  useSeHw : Bool
  /-- How many bytes of the metadata may be accessed. -/
  limit : ℕ
  /-- Where the metadata lies in the mapped file. -/
  metaOffset : ℕ
  fileSize : ℕ
  /-- The answer to the last of the requests so far. -/
  answer : List Call → Int

structure World where
  calls : List Call
  /-- `m_tcs_list`, with the mark of dynamic threads. -/
  tcsList : List (UInt64 × Bool)
  /-- The mapped file and what follows it in memory. -/
  mem : Image

variable (c : Config)

def request (call : Call) : Prog World Int := do
  let w ← get
  set { w with calls := w.calls ++ [call] }
  pure (c.answer (w.calls ++ [call]))

/-- A request whose failure is reported as `status`. -/
def requestOr (status : Int) (call : Call) : Prog World Int := do
  let ret ← request c call
  pure (if ret ≠ 0 then status else 0)

/-- An access to `size` bytes of the metadata. -/
def touch (offset size : ℕ) : Prog World Unit :=
  if offset + size ≤ c.limit then pure () else failure

def pushTcs (addr : UInt64) (dynamic : Bool) : Prog World Unit :=
  modify fun w => { w with tcsList := w.tcsList ++ [(addr, dynamic)] }

end Environment

/-! ### Adding pages -/

section Pages

variable (c : Config)

def addExtendPage : UInt16 := pageAttrEadd ||| pageAttrEextend

/-- The loop of `build_pages`, for `n` more pages. -/
def buildPagesLoop (source : Source) (flags : UInt64) (attr : UInt16) : ℕ → UInt64 → Prog World Int
  | 0, _ => pure 0
  | n + 1, rva =>
    andThen (request c (.addEnclavePage rva source flags attr))
      (buildPagesLoop source flags attr n (rva + 4096))

/-- `while(offset < size)`, in steps of a page. -/
def buildPages (startRva size : UInt64) (source : Source) (flags : UInt64) (attr : UInt16) :
    Prog World Int :=
  buildPagesLoop c source flags attr ((size.toNat + 4095) / 4096) startRva

def pageOffset (a : UInt64) : UInt64 := a &&& 0xFFF
def trimToPage (a : UInt64) : UInt64 := a &&& ~~~0xFFF
def roundToPage (a : UInt64) : UInt64 := (a + 0xFFF) &&& ~~~0xFFF

def buildPartialPage (rva size : UInt64) (rawData : ℕ) (flags : UInt64) (attr : UInt16) :
    Prog World Int :=
  buildPages c (trimToPage rva) 4096 (.raw rawData size.toNat (pageOffset rva).toNat) flags attr

/-- `section_info_t`; `rawData` is an offset in the metadata. -/
structure SectionInfo where
  rawData : ℕ
  rawDataSize : UInt64
  rva : UInt64
  virtualSize : UInt64
  flag : UInt64
  bitmap : Option (List UInt8)

def isRelocationPage (rva : UInt64) (bitmap : Option (List UInt8)) : Bool :=
  let pageFrame := rva >>> 12
  match bitmap.bind fun l => l[(pageFrame / 8).toNat]? with
  | some byte => byte &&& ((1 : UInt8) <<< UInt8.ofNat (pageFrame % 8).toNat) ≠ 0
  | none => false

/-- `MIN`. -/
def minOf (x y : UInt64) : UInt64 := if x > y then y else x

def siFlagW : UInt64 := 2
def siMaskMemAttribute : UInt64 := 7

def sgxErrorUnexpected : Int := 1

/-- A page with relocations has to be writable; the simulation does not change it. -/
def makeWritable (rva flags : UInt64) : Prog World Int :=
  if c.useSeHw then
    requestOr c sgxErrorUnexpected
      (.mprotect (trimToPage rva + c.startAddr) 4096 (flags &&& siMaskMemAttribute))
  else pure 0

/-- A page of initialised data, whole or in part. -/
def buildData (rva size : UInt64) (rawData : ℕ) (flags : UInt64) : Prog World Int := do
  touch c rawData size.toNat
  if size = 4096 then buildPages c rva size (.raw rawData 4096 0) flags addExtendPage
  else buildPartialPage c rva size rawData flags addExtendPage

/-- One round of the loop over the initialised data. -/
def buildRawPage (sec : SectionInfo) (offset : UInt64) : Prog World Int :=
  let rva := sec.rva + offset
  let size := minOf (4096 - pageOffset rva) (sec.rawDataSize - offset)
  let relocated : Bool := isRelocationPage rva sec.bitmap ∧ sec.flag &&& siFlagW = 0
  let flags := if relocated then sec.flag ||| siFlagW else sec.flag
  andThen (if relocated then makeWritable c rva flags else pure 0)
    (buildData c rva size (sec.rawData + offset.toNat) flags)

/-- The data that is not initialised. -/
def buildUninitialized (sec : SectionInfo) (offset : UInt64) : Prog World Int :=
  if sec.virtualSize > offset then
    let rva := sec.rva + offset
    buildPages c (trimToPage rva) (roundToPage (sec.virtualSize - offset + pageOffset rva)) .null
      sec.flag addExtendPage
  else pure 0

/-- The loop of `build_mem_region`, with the step after it. -/
def buildMemRegionLoop (sec : SectionInfo) : ℕ → UInt64 → Prog World Int
  | 0, _ => failure
  | n + 1, offset =>
    if offset < sec.rawDataSize then
      andThen (buildRawPage c sec offset)
        (buildMemRegionLoop sec n (offset + (4096 - pageOffset (sec.rva + offset))))
    else buildUninitialized c sec offset

/-- After a first round that may be shorter, every round takes a page. -/
def buildMemRegion (sec : SectionInfo) : Prog World Int :=
  buildMemRegionLoop c sec (sec.rawDataSize.toNat / 4096 + 3) 0

end Pages

/-! ### Actions -/

section Actions

variable (c : Config)

def hasAttr (e : LayoutEntry) (a : UInt16) : Bool := e.attributes &&& a ≠ 0

/-- A thread that is removed again is not listed. -/
def listTcs (rva : UInt64) (e : LayoutEntry) : Prog World Unit :=
  if hasAttr e pageAttrEremove then pure () else pushTcs (c.startAddr + rva) false

/-- A TCS page; `memcpy_s` copies nothing if the template is larger than a page. -/
def buildTcs (rva : UInt64) (e : LayoutEntry) : Prog World Int := do
  let size := if e.contentSize.toNat ≤ 4096 then e.contentSize.toNat else 0
  touch c e.contentOffset.toNat size
  listTcs c rva e
  buildPages c rva e.bytes (.tcs e.contentOffset.toNat size rva) e.siFlags e.attributes

def buildRegion (rva : UInt64) (e : LayoutEntry) : Prog World Int :=
  buildMemRegion c ⟨e.contentOffset.toNat, e.contentSize.toUInt64, rva, e.bytes, e.siFlags, none⟩

def buildFilled (rva : UInt64) (e : LayoutEntry) : Prog World Int :=
  buildPages c rva e.bytes (if e.contentSize ≠ 0 then .fill e.contentSize else .null) e.siFlags
    e.attributes

/-- The pages that are added while the enclave is built. -/
def eaddContext (rva : UInt64) (e : LayoutEntry) : Prog World Int :=
  if hasAttr e pageAttrEadd then
    if e.contentOffset ≠ 0 then
      if e.siFlags = siFlagsTcs then buildTcs c rva e else buildRegion c rva e
    else if e.siFlags ≠ siFlagNone then buildFilled c rva e
    else pure 0
  else pure 0

/-- A thread that is added later is listed as dynamic. -/
def listDynamicTcs (rva : UInt64) (e : LayoutEntry) : Prog World Unit :=
  if hasAttr e pageAttrPostAdd ∧ e.id = layoutIdTcsDyn then pushTcs (c.startAddr + rva) true
  else pure ()

def buildContext (startRva : UInt64) (e : LayoutEntry) : Prog World Int :=
  let rva := startRva + e.rva
  andThen (eaddContext c rva e) do
    listDynamicTcs c rva e
    pure 0

def trimEntry (delta : UInt64) (e : LayoutEntry) : Prog World Int :=
  let startAddr := e.rva + delta + c.startAddr
  request c (.trimRange startAddr (startAddr + e.bytes))

def commitEntry (delta : UInt64) (e : LayoutEntry) : Prog World Int :=
  let startAddr := e.rva + delta + c.startAddr
  tryAll (fun i : ℕ => request c (.trimAccept (startAddr + UInt64.ofNat i <<< 12)))
    (List.range e.pageCount.toNat)

/-- A page that is removed while loading may not be accessed. -/
def contextProt (e : LayoutEntry) : UInt64 :=
  if e.siFlags = siFlagNone then siFlagNone &&& siMaskMemAttribute
  else if hasAttr e pageAttrEadd ∧ hasAttr e pageAttrEremove then siFlagNone &&& siMaskMemAttribute
  else siFlagsRw &&& siMaskMemAttribute

def protectEntry (delta : UInt64) (e : LayoutEntry) : Prog World Int :=
  requestOr c sgxErrorUnexpected
    (.mprotect (c.startAddr + (e.rva + delta)) e.bytes (contextProt e))

def siFlagTrim : UInt64 := 0x400
def siFlagModified : UInt64 := 0x10

def acceptEntry (offset : UInt64) (e : LayoutEntry) : Prog World Int :=
  let startAddr := e.rva + offset + c.startAddr
  request c (.acceptForward (siFlagTrim ||| siFlagModified) startAddr (startAddr + e.bytes))

def saveThread (offset : UInt64) (e : LayoutEntry) : Prog World Int :=
  requestOr c (-1) (.saveTcs (e.rva + offset + c.startAddr))

end Actions

/-! ### Walkers -/

section Walkers

variable (c : Config) (fetch : ℕ → Prog World Layout) (n : ℕ)

/-- Act on the entries that satisfy `p` and pass over the others. -/
def only (p : LayoutEntry → Bool) (act : UInt64 → LayoutEntry → Prog World Int) (delta : UInt64)
    (e : LayoutEntry) : Prog World Int :=
  if p e then act delta e else pure 0

def isPostRemove (e : LayoutEntry) : Bool := hasAttr e pageAttrPostRemove

/-- Without EDMM the reserved memory keeps its protection. -/
def isProtected (e : LayoutEntry) : Bool :=
  ¬(c.edmm = false ∧ (e.id = layoutIdRsrvMin ∨ e.id = layoutIdRsrvInit))

def isStaticThread (e : LayoutEntry) : Bool :=
  e.siFlags &&& siFlagsTcs ≠ 0 ∧ e.attributes = pageAttrEadd ||| pageAttrEextend

def buildContexts : Prog World Int := walkTable fetch (buildContext c) n

def postInitAction : Prog World Int := walkTable fetch (only isPostRemove (trimEntry c)) n

def postInitActionCommit : Prog World Int := walkTable fetch (only isPostRemove (commitEntry c)) n

def setContextProtection : Prog World Int :=
  walkTable fetch (only (isProtected c) (protectEntry c)) n

def acceptPostRemove : Prog World Int := walkTable fetch (only isPostRemove (acceptEntry c)) n

def addStaticThreads : Prog World Int := walkTable fetch (only isStaticThread (saveThread c)) n

end Walkers

/-! ### Agreement -/

section Agreement

variable {m : Metadata} {l : List LayoutEntry}

theorem buildContext_shift (c : Config) (delta : UInt64) (e : LayoutEntry) :
    buildContext c delta e = buildContext c 0 (e.shift delta) := by
  have h : delta + e.rva = 0 + (e.shift delta).rva := by
    rw [LayoutEntry.shift, UInt64.zero_add, UInt64.add_comm]
  rw [buildContext, h]
  rfl

@[simp] theorem shift_rva_add_zero (e : LayoutEntry) (delta : UInt64) :
    (e.shift delta).rva + 0 = e.rva + delta := UInt64.add_zero _

@[simp] theorem shift_bytes (e : LayoutEntry) (delta : UInt64) :
    (e.shift delta).bytes = e.bytes := rfl

theorem trimEntry_shift (c : Config) (delta : UInt64) (e : LayoutEntry) :
    trimEntry c delta e = trimEntry c 0 (e.shift delta) := by
  simp only [trimEntry, shift_rva_add_zero, shift_bytes]

theorem commitEntry_shift (c : Config) (delta : UInt64) (e : LayoutEntry) :
    commitEntry c delta e = commitEntry c 0 (e.shift delta) := by
  simp only [commitEntry, shift_rva_add_zero]
  rfl

theorem protectEntry_shift (c : Config) (delta : UInt64) (e : LayoutEntry) :
    protectEntry c delta e = protectEntry c 0 (e.shift delta) := by
  simp only [protectEntry, shift_rva_add_zero, shift_bytes]
  rfl

theorem acceptEntry_shift (c : Config) (delta : UInt64) (e : LayoutEntry) :
    acceptEntry c delta e = acceptEntry c 0 (e.shift delta) := by
  simp only [acceptEntry, shift_rva_add_zero, shift_bytes]

theorem saveThread_shift (c : Config) (delta : UInt64) (e : LayoutEntry) :
    saveThread c delta e = saveThread c 0 (e.shift delta) := by
  simp only [saveThread, shift_rva_add_zero]

/-- A walker that selects entries acts on the selected entries of the expanded table. -/
theorem walkTable_only {p : LayoutEntry → Bool} {act : UInt64 → LayoutEntry → Prog World Int}
    (hp : ∀ delta e, p (e.shift delta) = p e)
    (hact : ∀ delta e, act delta e = act 0 (e.shift delta))
    (hl : placeTable m [] m.layouts = some l) :
    walkTable (listed m.layouts) (only p act) m.layouts.length = tryAll (act 0) (l.filter p) := by
  have honly : ∀ delta e, only p act delta e = only p act 0 (e.shift delta) := by
    intro delta e
    rw [only, only, hp, hact]
  rw [walk_listed honly hl]
  exact tryAll_filter _ _ _

end Agreement

/-- **All walkers agree.**  On every accepted table each of them is the plain loop of its
own action over the entries that the validator collected, restricted to those it selects;
and these entries are page-aligned, inside the enclave and pairwise disjoint. -/
theorem walkers_agree (m : Metadata) (h : validateLayoutTable m = true) :
    ∃ l, placeTable m [] m.layouts = some l ∧
      (∀ c, buildContexts c (listed m.layouts) m.layouts.length = tryAll (buildContext c 0) l ∧
        postInitAction c (listed m.layouts) m.layouts.length
          = tryAll (trimEntry c 0) (l.filter isPostRemove) ∧
        postInitActionCommit c (listed m.layouts) m.layouts.length
          = tryAll (commitEntry c 0) (l.filter isPostRemove) ∧
        setContextProtection c (listed m.layouts) m.layouts.length
          = tryAll (protectEntry c 0) (l.filter (isProtected c)) ∧
        acceptPostRemove c (listed m.layouts) m.layouts.length
          = tryAll (acceptEntry c 0) (l.filter isPostRemove) ∧
        addStaticThreads c (listed m.layouts) m.layouts.length
          = tryAll (saveThread c 0) (l.filter isStaticThread)) ∧
      (∀ e ∈ l, 4096 ∣ e.start) ∧
      (∀ e ∈ l, e.start < m.enclaveSize.toNat ∧ e.stop ≤ m.enclaveSize.toNat) ∧
      l.Pairwise LayoutEntry.Apart := by
  obtain ⟨l, hl, hfits⟩ := fits_of_validateLayoutTable h
  refine ⟨l, hl, fun c => ⟨walk_listed (buildContext_shift c) hl, ?_⟩, hfits.aligned,
    hfits.inside, hfits.apart⟩
  have hsame : ∀ delta e, isPostRemove (LayoutEntry.shift e delta) = isPostRemove e :=
    fun _ _ => rfl
  exact ⟨walkTable_only hsame (trimEntry_shift c) hl, walkTable_only hsame (commitEntry_shift c) hl,
    walkTable_only (fun _ _ => rfl) (protectEntry_shift c) hl,
    walkTable_only hsame (acceptEntry_shift c) hl,
    walkTable_only (fun _ _ => rfl) (saveThread_shift c) hl⟩

/-- A table of one thread that a group loads twice more. -/
def threadTable : Metadata where
  version := 0x200000004
  size := 20480
  tcsPolicy := 1
  ssaFrameSize := 1
  enclaveSize := 0x40000
  patchDir := ⟨1888, 0⟩
  layoutDir := ⟨1888, 96⟩
  patches := []
  layouts :=
    [.entry ⟨3, 3, 4, 0x10000, 0, 0, 0x203⟩, .entry ⟨4, 3, 1, 0x15000, 72, 1984, 0x100⟩,
      .group ⟨0x1007, 2, 2, 0x8000⟩]

theorem walkers_agree_threads :
    validateLayoutTable threadTable = true ∧
      ∃ l, placeTable threadTable [] threadTable.layouts = some l ∧ l.length = 6 ∧
        (∀ c, addStaticThreads c (listed threadTable.layouts) threadTable.layouts.length
          = tryAll (saveThread c 0) (l.filter isStaticThread)) ∧
        l.Pairwise LayoutEntry.Apart := by
  have hvalid : validateLayoutTable threadTable = true := by decide +kernel
  have hlen : (placeTable threadTable [] threadTable.layouts).map List.length = some 6 := by
    decide +kernel
  obtain ⟨l, hl, hwalk, _, _, hapart⟩ := walkers_agree threadTable hvalid
  rw [hl] at hlen
  exact ⟨hvalid, l, hl, Option.some.inj hlen, fun c => (hwalk c).2.2.2.2.2, hapart⟩

end Loader
