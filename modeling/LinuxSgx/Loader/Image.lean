/-
Loading an enclave from its file (`loader.cpp`, `urts_com.h`).

The metadata is a part of the mapped file.  After validation the loader patches the file,
adds the pages and sets their protection; the tables are read again from memory at each
of these steps.  An access has no outcome if it is outside the bytes of the metadata that
may be accessed (`touch`) or, for a patch, outside the file (`touchFile`); nothing else
here is without outcome on a validated table.

* **`accesses_bounded`** — every access to a table or to a content of accepted metadata
  lies in its `size` bytes, and every patch in the file, if and only if the last entries of
  both tables do and the destinations of the patches; as long as no patch changes the
  tables after they were validated.
* `accesses_unbounded` — validation establishes none of these conditions.
-/
import LinuxSgx.Loader.Pages

namespace Loader

open Prog

/-! ### Reading the metadata -/

section Reading

variable (c : Config)

/-- The bytes from the start of the metadata on. -/
def World.metadata (w : World) : Image := fun i => w.mem (c.metaOffset + i)

/-- The metadata in memory, with its tables. -/
abbrev World.parsed (w : World) : Metadata := Metadata.parse (w.metadata c)

def readDir (offset : ℕ) : Prog World DataDirectory := do
  touch c offset 8
  let w ← get
  pure ((w.metadata c).dir offset)

def fetchLayout (d : DataDirectory) (i : ℕ) : Prog World Layout := do
  touch c (d.entryAt i) entrySize
  let w ← get
  pure ((w.metadata c).layout (d.entryAt i))

def fetchPatch (d : DataDirectory) (i : ℕ) : Prog World PatchEntry := do
  touch c (d.entryAt i) entrySize
  let w ← get
  pure ((w.metadata c).patch (d.entryAt i))

/-- Call a function with the start and the end of the layout table. -/
def overLayouts (walker : (ℕ → Prog World Layout) → ℕ → Prog World Int) : Prog World Int := do
  let d ← readDir c (dirsOffset + 8)
  walker (fetchLayout c d) d.count

end Reading

/-! ### Patching the file -/

section Patching

variable (c : Config)

/-- An access to `size` bytes of the mapped file. -/
def touchFile (offset size : ℕ) : Prog World Unit :=
  if offset + size ≤ c.fileSize then pure () else failure

/-- The memory after a patch. -/
def World.patch (w : World) (p : PatchEntry) : World :=
  { w with
    mem := fun i =>
      if p.dst.toNat ≤ i ∧ i < p.dst.toNat + p.size.toNat then
        w.metadata c (p.src.toNat + (i - p.dst.toNat))
      else w.mem i }

def applyPatch (p : PatchEntry) : Prog World Unit := do
  touch c p.src.toNat p.size.toNat
  touchFile c p.dst.toNat p.size.toNat
  modify fun w => w.patch c p

def patchLoop (d : DataDirectory) : ℕ → ℕ → Prog World Unit
  | _, 0 => pure ()
  | i, n + 1 => do
    let p ← fetchPatch c d i
    applyPatch c p
    patchLoop d (i + 1) n

def patchFile : Prog World Unit := do
  let d ← readDir c dirsOffset
  patchLoop c d 0 d.count

end Patching

/-! ### Loading -/

section Loading

variable (c : Config)

def sgxErrorInvalidEnclave : Int := 0x2001
def sgxErrorInvalidMetadata : Int := 0x2009
def sgxErrorInvalidVersion : Int := 0x200d

/-- The exit of `build_image` on failure. -/
def orDestroy (m : Prog World Int) : Prog World Int := do
  let ret ← m
  if ret ≠ 0 then do
    let _ ← request c .destroyEnclave
    pure ret
  else pure 0

def buildImage : Prog World Int :=
  andThen (request c .buildSecs) <|
    andThen (requestOr c sgxErrorInvalidEnclave .getRelocBitmap) do
      patchFile c
      orDestroy c <|
        andThen (request c .buildSections) <|
          andThen (overLayouts c (buildContexts c)) (request c .initEnclave)

/-- `maxSize` is what the processor supports. -/
def loadEnclave (maxSize : UInt64) : Prog World Int := do
  let w ← get
  let m := w.parsed c
  if validateMetadata maxSize m then andThen (request c .getMiscAttr) (buildImage c)
  else if versionOk m.version then pure sgxErrorInvalidMetadata
  else pure sgxErrorInvalidVersion

def siFlagsRwx : UInt64 := 0x207

/-- The start and size of a reserved memory that is to be executable. -/
def executableRsrv : Layout → Option (UInt64 × UInt64)
  | .entry e =>
    if e.id = layoutIdRsrvMin ∧ e.siFlags = siFlagsRwx ∧ e.pageCount > 0 then some (e.rva, e.bytes)
    else none
  | .group _ => none

/-- The first such entry loses the right to be executed. -/
def restrictRsrv (fetch : ℕ → Prog World Layout) : ℕ → ℕ → Prog World Int
  | _, 0 => pure 0
  | i, n + 1 => do
    let layout ← fetch i
    match executableRsrv layout with
    | some (rva, len) => requestOr c sgxErrorUnexpected (.emodpr (c.startAddr + rva) len 3)
    | none => restrictRsrv fetch (i + 1) n

/-- `META_DATA_MAKE_VERSION(MAJOR_VERSION,MINOR_VERSION)`. -/
def urtsVersion : UInt64 := 0x200000004

/-- The part of `set_memory_protection` for platforms with EDMM. -/
def restrictPages : Prog World Int := do
  touch c 8 8
  let w ← get
  if urtsVersion ≤ (w.metadata c).u64 8 ∧ c.edmm then
    andThen (requestOr c sgxErrorUnexpected .restrictSections)
      (overLayouts c fun fetch n => restrictRsrv c fetch 0 n)
  else pure 0

def setMemoryProtection : Prog World Int :=
  andThen (requestOr c sgxErrorUnexpected .protectSections) <|
    andThen (restrictPages c) (overLayouts c (setContextProtection c))

/-- Only with EDMM are pages trimmed after the initialisation. -/
def ifEdmm (m : Prog World Int) : Prog World Int := if c.edmm then m else pure 0

def createEnclave (maxSize : UInt64) : Prog World Int :=
  andThen (loadEnclave c maxSize) <|
    andThen (ifEdmm c (overLayouts c (postInitAction c))) <|
      andThen (request c .initializeEnclave) <|
        andThen (ifEdmm c (overLayouts c (postInitActionCommit c))) (setMemoryProtection c)

end Loading

/-! ### What leaves the memory as it is -/

/-- The memory is the same. -/
def SameMem (w w' : World) : Prop := w'.mem = w.mem

instance : Std.Refl SameMem := ⟨fun _ => rfl⟩

instance : IsTrans World SameMem := ⟨fun _ _ _ h h' => h'.trans h⟩

section Memory

variable {c : Config} {e : LayoutEntry} {rva : UInt64}

theorem total_request (call : Call) : Total SameMem (request c call) := fun _ => rfl

theorem total_requestOr (status : Int) (call : Call) : Total SameMem (requestOr c status call) :=
  total_bind (total_request call) fun _ => total_pure _

theorem keeps_touch (offset size : ℕ) : Keeps SameMem (touch c offset size) :=
  keeps_ite (keeps_pure ()) keeps_failure

theorem total_touch {offset size : ℕ} (h : offset + size ≤ c.limit) :
    Total SameMem (touch c offset size) :=
  total_ite (fun _ => total_pure ()) fun h' => absurd h h'

variable {flags : UInt64} {attr : UInt16}

theorem total_buildPagesLoop {source : Source} (n : ℕ) :
    ∀ rva, Total SameMem (buildPagesLoop c source flags attr n rva) := by
  induction n with
  | zero => exact fun _ => total_pure 0
  | succ n ih => exact fun rva => total_andThen (total_request _) (ih _)

variable {size : UInt64}

theorem total_buildPages {start : UInt64} {source : Source} :
    Total SameMem (buildPages c start size source flags attr) :=
  total_buildPagesLoop _ _

theorem total_buildPartialPage {rva : UInt64} {raw : ℕ} :
    Total SameMem (buildPartialPage c rva size raw flags attr) := by
  exact total_buildPages

theorem total_listTcs : Total SameMem (listTcs c rva e) :=
  total_ite (fun _ => total_pure ()) fun _ _ => rfl

theorem total_listDynamicTcs : Total SameMem (listDynamicTcs c rva e) :=
  total_ite (fun _ _ => rfl) fun _ => total_pure ()

variable {sec : SectionInfo}

theorem total_buildUninitialized {offset : UInt64} :
    Total SameMem (buildUninitialized c sec offset) :=
  total_ite (fun _ => total_buildPages) fun _ => total_pure 0

theorem keeps_buildData {raw : ℕ} :
    Keeps SameMem (buildData c rva size raw flags) :=
  keeps_bind (keeps_touch _ _) fun _ =>
    keeps_ite total_buildPages.keeps total_buildPartialPage.keeps

theorem keeps_buildRawPage (sec : SectionInfo) (offset : UInt64) :
    Keeps SameMem (buildRawPage c sec offset) := by
  refine keeps_andThen (keeps_ite ?_ (keeps_pure 0)) keeps_buildData
  exact keeps_ite (total_requestOr _ _).keeps (keeps_pure 0)

theorem keeps_buildMemRegionLoop (sec : SectionInfo) (n : ℕ) :
    ∀ offset, Keeps SameMem (buildMemRegionLoop c sec n offset) := by
  induction n with
  | zero => exact fun _ => keeps_failure
  | succ n ih =>
    exact fun offset => keeps_ite (keeps_andThen (keeps_buildRawPage sec offset) (ih _))
      total_buildUninitialized.keeps

theorem keeps_buildContext (startRva : UInt64) (e : LayoutEntry) :
    Keeps SameMem (buildContext c startRva e) := by
  have htcs : ∀ rva, Keeps SameMem (buildTcs c rva e) := fun rva =>
    keeps_bind (keeps_touch _ _) fun _ => keeps_bind total_listTcs.keeps fun _ =>
      total_buildPages.keeps
  have hadd : ∀ rva, Keeps SameMem (eaddContext c rva e) := fun rva =>
    keeps_ite (keeps_ite (keeps_ite (htcs rva) (keeps_buildMemRegionLoop _ _ _))
      (keeps_ite total_buildPages.keeps (keeps_pure 0))) (keeps_pure 0)
  exact keeps_andThen (hadd _) (keeps_bind total_listDynamicTcs.keeps fun _ => keeps_pure 0)

/-- A content is read to its end, however many pages it takes. -/
theorem total_buildContext {m : Metadata} (hlimit : m.size.toNat ≤ c.limit)
    (hcontent : e.HasContent m) (halign : 4096 ∣ e.start) (hstop : e.stop ≤ 2 ^ 63) :
    Total SameMem (buildContext c 0 e) :=
  (keeps_buildContext 0 e).total (spec_buildContext hlimit hcontent halign hstop)

theorem total_commitEntry (delta : UInt64) (e : LayoutEntry) : Total SameMem (commitEntry c delta e) :=
  total_tryAll fun _ _ => total_request _

end Memory

/-! ### A driver that refuses nothing -/

section Willing

variable {c : Config} (hc : ∀ calls, c.answer calls = 0)
include hc

theorem succeeds_request (call : Call) : Succeeds (request c call) := fun _ => hc _

theorem succeeds_requestOr (status : Int) (call : Call) : Succeeds (requestOr c status call) :=
  fun _ => if_neg (not_not.mpr (hc _))

theorem succeeds_buildPages {start size flags : UInt64} {source : Source} {attr : UInt16} :
    Succeeds (buildPages c start size source flags attr) := by
  unfold buildPages
  generalize (size.toNat + 4095) / 4096 = n
  induction n generalizing start with
  | zero => exact succeeds_pure
  | succ n ih => exact (succeeds_request hc _).andThen ih

theorem succeeds_buildMemRegionLoop (sec : SectionInfo) (n : ℕ) :
    ∀ offset, Succeeds (buildMemRegionLoop c sec n offset) := by
  have hwritable : ∀ rva flags, Succeeds (makeWritable c rva flags) := fun _ _ =>
    succeeds_ite (succeeds_requestOr hc _ _) succeeds_pure
  have hdata : ∀ rva size raw flags, Succeeds (buildData c rva size raw flags) := fun _ _ _ _ =>
    succeeds_bind fun _ => succeeds_ite (succeeds_buildPages hc) (succeeds_buildPages hc)
  induction n with
  | zero => exact fun _ => succeeds_failure
  | succ n ih =>
    intro offset
    refine succeeds_ite (Succeeds.andThen ?_ (ih _)) (succeeds_ite (succeeds_buildPages hc) succeeds_pure)
    exact (succeeds_ite (hwritable _ _) succeeds_pure).andThen (hdata _ _ _ _)

theorem succeeds_buildContext (startRva : UInt64) (e : LayoutEntry) :
    Succeeds (buildContext c startRva e) := by
  have htcs : ∀ rva, Succeeds (buildTcs c rva e) := fun _ =>
    succeeds_bind fun _ => succeeds_bind fun _ => succeeds_buildPages hc
  have hadd : ∀ rva, Succeeds (eaddContext c rva e) := fun rva =>
    succeeds_ite (succeeds_ite (succeeds_ite (htcs rva) (succeeds_buildMemRegionLoop hc _ _ _))
      (succeeds_ite (succeeds_buildPages hc) succeeds_pure)) succeeds_pure
  exact (hadd _).andThen (succeeds_bind fun _ => succeeds_pure)

end Willing

/-! ### Reading validated metadata -/

/-- The bytes of the metadata that are read after validation to find everything else: the
directories and the tables. -/
def Metadata.InTables (m : Metadata) (i : ℕ) : Prop :=
  dirsOffset ≤ i ∧ i < dirsOffset + 16 ∨
    m.patchDir.offset.toNat ≤ i ∧ i < m.patchDir.entryAt m.patchDir.count ∨
    m.layoutDir.offset.toNat ≤ i ∧ i < m.layoutDir.entryAt m.layoutDir.count

/-- Accepted metadata, with only the bytes it claims to have accessible. -/
structure Accepted (c : Config) (maxSize : UInt64) (a : Image) : Prop where
  valid : validateMetadata maxSize (Metadata.parse a) = true
  limit : c.limit = (Metadata.parse a).size.toNat

/-- Its layout table ends inside it. -/
structure Whole (c : Config) (maxSize : UInt64) (a : Image) : Prop extends Accepted c maxSize a where
  layouts : (Metadata.parse a).layoutDir.Ends (Metadata.parse a)

/-- The tables in memory are still those that were validated. -/
def Intact (c : Config) (a : Image) (w : World) : Prop :=
  ∀ i, (Metadata.parse a).InTables i → w.metadata c i = a i

section Reading

variable {c : Config} {maxSize : UInt64} {a : Image} {w w' : World}

theorem Intact.of_sameMem (h : Intact c a w) (hmem : SameMem w w') : Intact c a w' := by
  intro i hi
  rw [← h i hi, World.metadata, World.metadata, hmem]

theorem keeps_intact {α : Type} {m : Prog World α} (h : Keeps SameMem m) :
    Keeps (Preserves (Intact c a)) m :=
  h.mono fun _ _ hmem hw => hw.of_sameMem hmem

variable {i : ℕ} {d : DataDirectory}

theorem spec_fetchLayout (h : (Metadata.parse a).layoutDir.entryAt i + entrySize ≤ c.limit)
    (hi : i < (Metadata.parse a).layoutDir.count) (hw : Intact c a w) :
    fetchLayout c (Metadata.parse a).layoutDir i w
      = some (a.layout ((Metadata.parse a).layoutDir.entryAt i), w) := by
  have hlayout : (w.metadata c).layout ((Metadata.parse a).layoutDir.entryAt i)
      = a.layout ((Metadata.parse a).layoutDir.entryAt i) := by
    refine Image.layout_congr fun j hj hj' => hw j (.inr (.inr ?_))
    simp only [DataDirectory.entryAt, entrySize] at hj hj' ⊢
    omega
  show (touch c _ entrySize >>= fun _ => _) w = _
  rw [touch, if_pos h, pure_bind, ← hlayout]
  rfl

theorem wp_fetchPatch {Q : PatchEntry → World → Prop} (hi : i < (Metadata.parse a).patchDir.count)
    (hw : Intact c a w) : wp False (fetchPatch c (Metadata.parse a).patchDir i) Q w ↔
      (Metadata.parse a).patchDir.entryAt i + entrySize ≤ c.limit ∧
        Q (a.patch ((Metadata.parse a).patchDir.entryAt i)) w := by
  have hpatch : (w.metadata c).patch ((Metadata.parse a).patchDir.entryAt i)
      = a.patch ((Metadata.parse a).patchDir.entryAt i) := by
    refine Image.patch_congr fun j hj hj' => hw j (.inr (.inl ?_))
    simp only [DataDirectory.entryAt, entrySize] at hj hj' ⊢
    omega
  rw [fetchPatch, wp_bind, wp_touch_iff, wp_bind, wp_get, wp_pure, hpatch]

theorem keeps_fetchLayout (d : DataDirectory) (i : ℕ) : Keeps SameMem (fetchLayout c d i) :=
  keeps_bind (keeps_touch _ _) fun _ => keeps_bind keeps_get fun _ => keeps_pure _

/-- The header lies in the metadata, as the directories point behind it. -/
theorem Accepted.header_le (h : Accepted c maxSize a) : 1888 ≤ c.limit := by
  obtain ⟨hbuf, _⟩ := dirs_of_validateMetadata h.valid
  have hbuf := isMetadataBuffer_iff.mp hbuf
  rw [h.limit]
  omega

theorem Accepted.spec_readDir (h : Accepted c maxSize a) {offset : ℕ} (hoff : dirsOffset ≤ offset)
    (hoff' : offset ≤ dirsOffset + 8) (hw : Intact c a w) :
    readDir c offset w = some (a.dir offset, w) := by
  have hheader := h.header_le
  have hdir : (w.metadata c).dir offset = a.dir offset :=
    Image.dir_congr fun i hi hi' => hw i (.inl (by omega))
  show (touch c offset 8 >>= fun _ => _) w = _
  rw [touch, if_pos (by rw [dirsOffset] at hoff'; omega), pure_bind, ← hdir]
  rfl

/-- The walkers get the directory that was validated. -/
theorem Accepted.wp_overLayouts (h : Accepted c maxSize a) (hw : Intact c a w)
    {f : (ℕ → Prog World Layout) → ℕ → Prog World Int} {Q : Int → World → Prop} :
    wp False (overLayouts c f) Q w ↔
      wp False (f (fetchLayout c (Metadata.parse a).layoutDir) (Metadata.parse a).layoutDir.count) Q w := by
  rw [overLayouts, wp_bind, wp_of_run (h.spec_readDir (Nat.le_add_right _ _) le_rfl hw)]
  rfl

variable (h : Whole c maxSize a)
include h

theorem Whole.entryAt_le (hi : i < (Metadata.parse a).layoutDir.count) :
    (Metadata.parse a).layoutDir.entryAt i + entrySize ≤ c.limit := by
  rw [h.limit]
  exact (DataDirectory.ends_iff (dirs_of_validateMetadata h.valid).2.1).mp h.layouts i hi

/-- Reading the table in memory is reading the table that was validated. -/
theorem Whole.agree_fetch (hi : i < (Metadata.parse a).layoutDir.count) :
    AgreeOn (Intact c a) (fetchLayout c (Metadata.parse a).layoutDir i)
      (listed (Metadata.parse a).layouts i) := by
  intro w hw
  rw [spec_fetchLayout (h.entryAt_le hi) hi hw, listed, Metadata.getElem?_layouts hi]
  rfl

/-- A walker over the table in memory has an outcome if it has one over the table that was
validated. -/
theorem Whole.spec_overLayouts {act : UInt64 → LayoutEntry → Prog World Int}
    (hact : ∀ delta e, Keeps SameMem (act delta e))
    (htotal : Total SameMem (walkTable (listed (Metadata.parse a).layouts) act
      (Metadata.parse a).layouts.length)) (hw : Intact c a w) :
    wp False (overLayouts c fun fetch n => walkTable fetch act n) (fun _ w' => SameMem w w') w := by
  rw [Metadata.length_layouts] at htotal
  rw [h.wp_overLayouts hw]
  have hagree := agree_walk (fun i hi => h.agree_fetch hi)
    (fun i => keeps_intact (keeps_fetchLayout _ i)) (fun delta e => keeps_intact (hact delta e))
    ((Metadata.parse a).layoutDir.count + 1) 0 (Metadata.parse a).layoutDir.count 0
    (Nat.zero_add _).le w hw
  have hwp := htotal w
  rw [wp, walkTable, ← hagree] at hwp
  exact hwp

end Reading

/-! ### Every access is bounded -/

section Bounds

variable {c : Config} {maxSize : UInt64} {a : Image} {w : World}

/-- A patch writes to none of the directories and tables. -/
def Spares (c : Config) (m : Metadata) (p : PatchEntry) : Prop :=
  ∀ i, m.InTables i → ¬(p.dst.toNat ≤ c.metaOffset + i ∧ c.metaOffset + i < p.dst.toNat + p.size.toNat)

theorem Intact.patch (hw : Intact c a w) {p : PatchEntry} (hp : Spares c (Metadata.parse a) p) :
    Intact c a (w.patch c p) := by
  intro i hi
  rw [← hw i hi]
  exact if_neg (hp i hi)

theorem wp_touchFile {Q : Unit → World → Prop} {offset size : ℕ} :
    wp False (touchFile c offset size) Q w ↔ offset + size ≤ c.fileSize ∧ Q () w := by
  unfold touchFile
  split
  · rename_i h
    exact (and_iff_right h).symm
  · rename_i h
    exact ⟨False.elim, fun h' => absurd h'.1 h⟩

/-- The loop over the patches has an outcome if and only if the entries lie in the metadata
and the destinations in the file; the tables are then still intact. -/
theorem Accepted.wp_patchLoop (h : Accepted c maxSize a)
    (hspare : ∀ p ∈ (Metadata.parse a).patches, Spares c (Metadata.parse a) p) (n : ℕ) :
    ∀ (i : ℕ) (w : World), i + n ≤ (Metadata.parse a).patchDir.count → Intact c a w →
      ∃ w', Intact c a w' ∧ ∀ Q : Unit → World → Prop,
        wp False (patchLoop c (Metadata.parse a).patchDir i n) Q w ↔
          (∀ j, i ≤ j → j < i + n →
            (Metadata.parse a).patchDir.entryAt j + entrySize ≤ c.limit ∧
            (a.patch ((Metadata.parse a).patchDir.entryAt j)).dst.toNat +
              (a.patch ((Metadata.parse a).patchDir.entryAt j)).size.toNat ≤ c.fileSize) ∧
          Q () w' := by
  obtain ⟨_, _, hpatches⟩ := dirs_of_validateMetadata h.valid
  induction n with
  | zero =>
    intro i w _ hw
    exact ⟨w, hw, fun Q => ⟨fun hQ => ⟨fun j h1 h2 => by omega, hQ⟩, And.right⟩⟩
  | succ n ih =>
    intro i w hi hw
    -- entry `i` is that of the validated table, and applying it leaves the rest of the table alone
    have hmem := Metadata.mem_patches (a := a) (i := i) (by omega)
    obtain ⟨_, _, hsrc⟩ := isMetadataBuffer_iff.mp (hpatches _ hmem).1
    obtain ⟨w', hw', hiff⟩ := ih (i + 1) _ (by omega) (hw.patch (hspare _ hmem))
    refine ⟨w', hw', fun Q => ?_⟩
    rw [patchLoop, wp_bind, wp_fetchPatch (by omega) hw, wp_bind, applyPatch, wp_bind,
      wp_touch (by rw [h.limit]; exact hsrc), wp_bind, wp_touchFile, wp_modify, hiff]
    constructor
    · rintro ⟨hentry, hdst, hrest, hQ⟩
      refine ⟨fun j h1 h2 => ?_, hQ⟩
      rcases Nat.eq_or_lt_of_le h1 with rfl | hlt
      · exact ⟨hentry, hdst⟩
      · exact hrest j hlt (by omega)
    · rintro ⟨hall, hQ⟩
      obtain ⟨hentry, hdst⟩ := hall i le_rfl (by omega)
      exact ⟨hentry, hdst, fun j h1 h2 => hall j (by omega) (by omega), hQ⟩

theorem Accepted.wp_patchFile (h : Accepted c maxSize a)
    (hspare : ∀ p ∈ (Metadata.parse a).patches, Spares c (Metadata.parse a) p)
    (hw : Intact c a w) : ∃ w', Intact c a w' ∧ ∀ Q : Unit → World → Prop,
      wp False (patchFile c) Q w ↔
        ((Metadata.parse a).patchDir.Ends (Metadata.parse a) ∧
          ∀ p ∈ (Metadata.parse a).patches, p.dst.toNat + p.size.toNat ≤ c.fileSize) ∧ Q () w' := by
  obtain ⟨w', hw', hiff⟩ := h.wp_patchLoop hspare _ 0 w (Nat.zero_add _).le hw
  refine ⟨w', hw', fun Q => ?_⟩
  rw [patchFile, wp_bind, wp_of_run (h.spec_readDir le_rfl (Nat.le_add_right _ _) hw)]
  refine (hiff Q).trans (and_congr_left' ?_)
  rw [DataDirectory.ends_iff (dirs_of_validateMetadata h.valid).1, ← h.limit]
  constructor
  · intro hall
    refine ⟨fun i hi => (hall i (Nat.zero_le i) (by omega)).1, fun p hp => ?_⟩
    obtain ⟨i, hi, rfl⟩ := List.mem_map.mp hp
    exact (hall i (Nat.zero_le i) (by rw [Nat.zero_add]; exact List.mem_range.mp hi)).2
  · rintro ⟨hentries, hdst⟩ j - hj
    rw [Nat.zero_add] at hj
    exact ⟨hentries j hj, hdst _ (Metadata.mem_patches hj)⟩

variable (h : Whole c maxSize a)
include h

theorem Whole.total_buildContexts :
    Total SameMem (walkTable (listed (Metadata.parse a).layouts) (buildContext c)
      (Metadata.parse a).layouts.length) := by
  obtain ⟨l, hl, hfits⟩ :=
    fits_of_validateLayoutTable (validateLayoutTable_of_validateMetadata h.valid)
  rw [walk_listed (buildContext_shift c) hl]
  exact total_tryAll fun e he => total_buildContext h.limit.ge (hfits.content e he)
    (hfits.aligned e he) ((hfits.inside e he).2.trans (enclaveSize_le_of_validateMetadata h.valid))

/-- A walker that only makes requests has an outcome. -/
theorem Whole.spec_only {p : LayoutEntry → Bool} {act : UInt64 → LayoutEntry → Prog World Int}
    (hp : ∀ delta e, p (e.shift delta) = p e)
    (hshift : ∀ delta e, act delta e = act 0 (e.shift delta))
    (hact : ∀ delta e, Total SameMem (act delta e)) (hw : Intact c a w) :
    wp False (overLayouts c fun fetch n => walkTable fetch (only p act) n)
      (fun _ w' => SameMem w w') w := by
  obtain ⟨l, hl, _⟩ :=
    fits_of_validateLayoutTable (validateLayoutTable_of_validateMetadata h.valid)
  refine h.spec_overLayouts (fun delta e => keeps_ite (hact delta e).keeps (keeps_pure 0)) ?_ hw
  rw [walkTable_only hp hshift hl]
  exact total_tryAll fun e _ => hact 0 e

theorem Whole.spec_restrictRsrv (n : ℕ) :
    ∀ (i : ℕ) (w : World), i + n ≤ (Metadata.parse a).layoutDir.count → Intact c a w →
      wp False (restrictRsrv c (fetchLayout c (Metadata.parse a).layoutDir) i n)
        (fun _ w' => SameMem w w') w := by
  induction n with
  | zero =>
    intro i w _ _
    rfl
  | succ n ih =>
    intro i w hi hw
    rw [restrictRsrv, wp_bind,
      wp_of_run (spec_fetchLayout (h.entryAt_le (by omega)) (by omega) hw)]
    split
    · exact total_requestOr _ _ w
    · exact ih (i + 1) w (by omega) hw

omit h

/-- From intact metadata `m` has an outcome, with the metadata still intact. -/
def Safe (c : Config) (a : Image) {α : Type} (m : Prog World α) : Prop :=
  ∀ w, Intact c a w → wp False m (fun _ w' => Intact c a w') w

theorem safe_of_sameMem {α : Type} {m : Prog World α}
    (hm : ∀ w, Intact c a w → wp False m (fun _ w' => SameMem w w') w) : Safe c a m :=
  fun w hw => wp_mono (hm w hw) fun _ _ hmem => hw.of_sameMem hmem

theorem safe_of_total {α : Type} {m : Prog World α} (hm : Total SameMem m) : Safe c a m :=
  safe_of_sameMem fun w _ => hm w

theorem Safe.bind {α β : Type} {m : Prog World α} {f : α → Prog World β} (hm : Safe c a m)
    (hf : ∀ x, Safe c a (f x)) : Safe c a (m >>= f) := by
  intro w hw
  rw [wp_bind]
  exact wp_mono (hm w hw) fun x w' hw' => hf x w' hw'

theorem Safe.andThen {m m' : Prog World Int} (hm : Safe c a m) (hm' : Safe c a m') :
    Safe c a (andThen m m') := by
  refine hm.bind fun r => ?_
  by_cases hr : r ≠ 0
  · rw [if_pos hr]
    exact safe_of_total (total_pure r)
  · rwa [if_neg hr]

theorem safe_ifEdmm {m : Prog World Int} (hm : Safe c a m) : Safe c a (ifEdmm c m) := by
  rw [ifEdmm]
  split
  · exact hm
  · exact safe_of_total (total_pure 0)

include h

theorem Whole.safe_buildImage
    (hspare : ∀ p ∈ (Metadata.parse a).patches, Spares c (Metadata.parse a) p)
    (hends : (Metadata.parse a).patchDir.Ends (Metadata.parse a))
    (hdst : ∀ p ∈ (Metadata.parse a).patches, p.dst.toNat + p.size.toNat ≤ c.fileSize) :
    Safe c a (buildImage c) := by
  have hpatch : Safe c a (patchFile c) := by
    intro w hw
    obtain ⟨w', hw', hiff⟩ := h.wp_patchFile hspare hw
    exact (hiff _).mpr ⟨⟨hends, hdst⟩, hw'⟩
  have hcontexts : Safe c a (overLayouts c (buildContexts c)) :=
    safe_of_sameMem fun w hw => h.spec_overLayouts keeps_buildContext h.total_buildContexts hw
  have hdestroy : ∀ {m : Prog World Int}, Safe c a m → Safe c a (orDestroy c m) := fun hm =>
    hm.bind fun r => safe_of_total
      (total_ite (fun _ => total_bind (total_request _) fun _ => total_pure r) fun _ => total_pure 0)
  refine (safe_of_total (total_request _)).andThen <|
    (safe_of_total (total_requestOr _ _)).andThen <| hpatch.bind fun _ => hdestroy ?_
  exact (safe_of_total (total_request _)).andThen <|
    hcontexts.andThen (safe_of_total (total_request _))

theorem Whole.safe_restrictPages : Safe c a (restrictPages c) := by
  have hheader := h.header_le
  refine (safe_of_total (total_touch (by omega))).bind fun _ =>
    (safe_of_total total_get).bind fun w => ?_
  split
  · refine (safe_of_total (total_requestOr _ _)).andThen (safe_of_sameMem fun w hw => ?_)
    rw [h.wp_overLayouts hw]
    exact h.spec_restrictRsrv _ 0 w (Nat.zero_add _).le hw
  · exact safe_of_total (total_pure 0)

theorem Whole.safe_setMemoryProtection : Safe c a (setMemoryProtection c) :=
  (safe_of_total (total_requestOr _ _)).andThen <| h.safe_restrictPages.andThen <|
    safe_of_sameMem fun _ hw => h.spec_only (fun _ _ => rfl) (protectEntry_shift c)
      (fun _ _ => total_requestOr _ _) hw

/-- The steps after the enclave is loaded. -/
theorem Whole.safe_afterLoad :
    Safe c a (andThen (ifEdmm c (overLayouts c (postInitAction c))) <|
      andThen (request c .initializeEnclave) <|
        andThen (ifEdmm c (overLayouts c (postInitActionCommit c))) (setMemoryProtection c)) := by
  have htrim : Safe c a (overLayouts c (postInitAction c)) :=
    safe_of_sameMem fun w hw => h.spec_only (fun _ _ => rfl) (trimEntry_shift c)
      (fun _ _ => total_request _) hw
  have hcommit : Safe c a (overLayouts c (postInitActionCommit c)) :=
    safe_of_sameMem fun w hw => h.spec_only (fun _ _ => rfl) (commitEntry_shift c)
      total_commitEntry hw
  exact (safe_ifEdmm htrim).andThen <| (safe_of_total (total_request _)).andThen <|
    (safe_ifEdmm hcommit).andThen h.safe_setMemoryProtection

omit h

/-- The step after a request that is not refused. -/
theorem Intact.next {m m' : Prog World Int} {Q : Int → World → Prop} (hw : Intact c a w)
    (hm : Succeeds m) (hmem : Total SameMem m) (h : wp False (andThen m m') Q w) :
    ∃ w', Intact c a w' ∧ wp False m' Q w' := by
  obtain ⟨r, w', hrun, -, h⟩ := wp_false_iff.mp (hm.wp_next h)
  exact ⟨w', hw.of_sameMem (hmem.keeps.of_run hrun), h⟩

/-- With a driver that refuses nothing, the loader reads all of the tables. -/
theorem Accepted.ends_of_loaded (h : Accepted c maxSize (w.metadata c))
    (hc : ∀ calls, c.answer calls = 0)
    (hspare : ∀ p ∈ (w.parsed c).patches, Spares c (w.parsed c) p)
    (hrun : wp False (loadEnclave c maxSize) (fun _ _ => True) w) :
    (w.parsed c).layoutDir.Ends (w.parsed c) ∧ (w.parsed c).patchDir.Ends (w.parsed c) ∧
      ∀ p ∈ (w.parsed c).patches, p.dst.toNat + p.size.toNat ≤ c.fileSize := by
  rw [loadEnclave, wp_bind, wp_get, if_pos h.valid] at hrun
  have hw : Intact c (w.metadata c) w := fun _ _ => rfl
  -- the requests before the patches
  obtain ⟨w₁, hw, hrun⟩ := hw.next (succeeds_request hc _) (total_request _) hrun
  obtain ⟨w₂, hw, hrun⟩ := hw.next (succeeds_request hc _) (total_request _) hrun
  obtain ⟨w₃, hw, hrun⟩ := hw.next (succeeds_requestOr hc _ _) (total_requestOr _ _) hrun
  rw [wp_bind] at hrun
  obtain ⟨w₄, hw, hiff⟩ := h.wp_patchFile hspare hw
  obtain ⟨hpatches, hrun⟩ := (hiff _).mp hrun
  refine ⟨?_, hpatches⟩
  -- the layout table is read after them
  rw [orDestroy, wp_bind] at hrun
  obtain ⟨w₅, hw, hrun⟩ := hw.next (succeeds_request hc _) (total_request _) hrun
  rw [wp_andThen, h.wp_overLayouts hw] at hrun
  rw [DataDirectory.ends_iff (dirs_of_validateMetadata h.valid).2.1, ← h.limit]
  intro i hi
  obtain ⟨w₆, hfetch⟩ := fetched_of_walkTable (succeeds_buildContext hc) hrun hi
  rw [fetchLayout, wp_bind, wp_touch_iff] at hfetch
  exact hfetch.1

end Bounds

/-- The byte at `i` of a list of fields, given by their offset, width and value. -/
def fieldByte (i : ℕ) : List (ℕ × ℕ × ℕ) → UInt8
  | [] => 0
  | (offset, width, value) :: fields =>
    if offset ≤ i ∧ i < offset + width then UInt8.ofNat (value / 256 ^ (i - offset))
    else fieldByte i fields

/-- A file with metadata at `0x1000`: `size` bytes, for an enclave of `0x40000`. -/
def fileWith (size patchSize layoutSize : ℕ) (fields : List (ℕ × ℕ × ℕ)) : World where
  calls := []
  tcsList := []
  mem := fun i => fieldByte (i - 0x1000) <|
    [(8, 8, 0x200000004), (16, 4, size), (20, 4, 1), (24, 4, 1), (40, 8, 0x40000),
      (1872, 4, 1888), (1876, 4, patchSize), (1880, 4, 1888 + patchSize),
      (1884, 4, layoutSize)] ++ fields

/-- A patch of 16 bytes and an entry of one page. -/
def patchTo (dst : ℕ) : World :=
  fileWith 2048 32 32
    [(1888, 8, dst), (1896, 4, 1952), (1900, 4, 16), (1920, 2, 3), (1922, 2, 3), (1924, 4, 1),
      (1928, 8, 0x10000), (1944, 8, 0x203), (1952, 4, 0x10000), (1956, 4, 32)]

/-- A directory of 33 bytes at the end of the metadata. -/
def partialEntry : World :=
  fileWith 1921 0 33 [(1888, 2, 3), (1890, 2, 3), (1892, 4, 1), (1896, 8, 0x10000), (1912, 8, 0x203)]

def limitedTo (size : ℕ) : Config := { willing with limit := size }

end Loader
