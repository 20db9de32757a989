/-
The protection of the segments (`set_memory_protection`).

After the enclave is loaded, the pages of every segment get the rights of the segment, and the pages
between two segments none at all.  The pages are computed anew, from the sizes of the segment.

* `Loaded` — the pages that `build_mem_region` adds;
* `WellFormed` — the segments are not empty, come in order and lie in the enclave;
* **`protection_exact`** — then the rights are changed for the pages that were added, and taken away
  between them;
* `gap_not_loaded` — pages that are not part of any segment are protected, too.
-/
import LinuxSgx.Loader.Sections
import LinuxSgx.Parser.Segments

namespace Elf

open List

open Loader (pageOffset trimToPage roundToPage minOf)

/-- A call of `mprotect`. -/
structure Mprotect where
  addr : UInt64
  len : UInt64
  prot : ℕ

/-- What a call is about. -/
def Mprotect.Covers (x : Mprotect) (a : ℕ) : Prop :=
  x.addr.toNat ≤ a ∧ a < x.addr.toNat + x.len.toNat

/-- `page_attr_to_si_flags(flags) & SI_MASK_MEM_ATTRIBUTE`. -/
def protOf (flags : ℕ) : ℕ :=
  (if flags / 4 % 2 = 1 then 1 else 0) + (if flags / 2 % 2 = 1 then 2 else 0) +
    (if flags % 2 = 1 then 4 else 0)

/-- The length of the range for a segment: its first page and, if there are more, those of the rest of
the data or of the memory. -/
def Phdr.protLen (p : Phdr) : UInt64 :=
  let offset := pageOffset p.vaddr
  let size := minOf (4096 - offset) p.filesz
  if p.memsz + offset > 4096 then
    let rawDataSize := p.filesz - size
    let virtualSize := p.memsz - (4096 - offset)
    if roundToPage virtualSize > roundToPage rawDataSize then
      4096 + roundToPage rawDataSize + (roundToPage virtualSize - roundToPage rawDataSize)
    else 4096 + roundToPage rawDataSize
  else 4096

/-- The calls for the segments and for the gaps, given the end of the segment before. -/
def sectionCalls (base : UInt64) : List Phdr → UInt64 → List Mprotect
  | [], _ => []
  | p :: ps, lastSectionEnd =>
    let rva := trimToPage p.vaddr + base
    ⟨rva, p.protLen, protOf p.flags⟩ ::
      ((if lastSectionEnd ≠ 0 then [⟨lastSectionEnd, rva - lastSectionEnd, 0⟩] else []) ++
        sectionCalls base ps (rva + p.protLen))

def ptGnuRelro : ℕ := 0x6474e552

/-- The call for a segment that is part of another one. -/
def relroCall (base : UInt64) (p : Phdr) : Mprotect :=
  let rva := trimToPage (base + p.vaddr)
  ⟨rva, roundTo (base + p.vaddr + p.memsz) p.align - rva, protOf p.flags⟩

/-- `set_memory_protection`: the calls, each of which is made if those before succeed. -/
def setMemoryProtection (m : Memory) (base : UInt64) (sections : List Phdr) : List Mprotect :=
  sectionCalls base sections 0 ++
    (m.phdrs.filter fun p => p.type = ptDynamic ∨ p.type = ptGnuRelro).map (relroCall base)

/-- What the loader is given for a segment. -/
def Phdr.sectionInfo (p : Phdr) : Loader.SectionInfo :=
  ⟨p.offset.toNat, p.filesz, p.vaddr, p.memsz, UInt64.ofNat (0x200 + protOf p.flags), none⟩

/-- The page of an address is added for one of the segments. -/
def Loaded (ps : List Phdr) (a : ℕ) : Prop :=
  ∃ p ∈ ps, a / 4096 * 4096 ∈ p.sectionInfo.addedPages

/-- The segments have memory, at least as much as data, and their pages come one after the other, within
the size of the enclave. -/
structure WellFormed (size : ℕ) (ps : List Phdr) : Prop where
  memory : ∀ p ∈ ps, 0 < p.memsz.toNat ∧ p.filesz.toNat ≤ p.memsz.toNat
  ordered : ps.Pairwise fun p q => p.lastPage ≤ q.firstPage
  inside : ∀ p ∈ ps, p.lastPage ≤ size

/-! ### One segment -/

section Segment

variable {p : Phdr} {base : UInt64} (hmem : 0 < p.memsz.toNat)
  (hfile : p.filesz.toNat ≤ p.memsz.toNat) (hend : p.lastPage < 2 ^ 64)

include hmem hfile hend in
/-- The range has the pages of the segment. -/
theorem toNat_protLen : p.protLen.toNat = p.lastPage - p.firstPage := by
  have hpage : (4096 - pageOffset p.vaddr).toNat = 4096 - p.vaddr.toNat % 4096 := by
    rw [UInt64.toNat_sub_of_le _ _ (UInt64.le_iff_toNat_le.mpr ?_), Loader.toNat_pageOffset]
    · rfl
    · rw [Loader.toNat_pageOffset, show (4096 : UInt64).toNat = 4096 from rfl]
      omega
  rw [Phdr.lastPage, Phdr.memEnd] at hend ⊢
  have hsum : (p.memsz + pageOffset p.vaddr).toNat = p.memsz.toNat + p.vaddr.toNat % 4096 := by
    rw [UInt64.toNat_add, Loader.toNat_pageOffset]
    omega
  rw [Phdr.firstPage, Phdr.protLen]
  simp only [gt_iff_lt, UInt64.lt_iff_toNat_lt, hsum, show (4096 : UInt64).toNat = 4096 from rfl]
  by_cases hmore : 4096 < p.memsz.toNat + p.vaddr.toNat % 4096
  · rw [if_pos hmore]
    -- what is left of the data is not more than what is left of the memory
    have hvirtual : (p.memsz - (4096 - pageOffset p.vaddr)).toNat =
        p.memsz.toNat - (4096 - p.vaddr.toNat % 4096) := by
      rw [UInt64.toNat_sub_of_le _ _ (UInt64.le_iff_toNat_le.mpr (by omega)), hpage]
    have hmin := Loader.toNat_minOf (4096 - pageOffset p.vaddr) p.filesz
    rw [hpage] at hmin
    have hraw : (p.filesz - minOf (4096 - pageOffset p.vaddr) p.filesz).toNat =
        p.filesz.toNat - min (4096 - p.vaddr.toNat % 4096) p.filesz.toNat := by
      rw [UInt64.toNat_sub_of_le _ _ (UInt64.le_iff_toNat_le.mpr (by omega)), hmin]
    rw [Loader.toNat_roundToPage, Loader.toNat_roundToPage, hvirtual, hraw]
    split_ifs with hrest
    · rw [UInt64.toNat_add, UInt64.toNat_add, UInt64.toNat_sub, Loader.toNat_roundToPage,
        Loader.toNat_roundToPage, hvirtual, hraw, show (4096 : UInt64).toNat = 4096 from rfl]
      omega
    · rw [UInt64.toNat_add, Loader.toNat_roundToPage, hraw,
        show (4096 : UInt64).toNat = 4096 from rfl]
      omega
  · rw [if_neg hmore, show (4096 : UInt64).toNat = 4096 from rfl]
    omega

theorem firstPage_le_lastPage (p : Phdr) : p.firstPage ≤ p.lastPage := by
  rw [Phdr.firstPage, Phdr.lastPage, Phdr.memEnd]
  omega

theorem toNat_start (hfits : base.toNat + p.lastPage < 2 ^ 64) :
    (trimToPage p.vaddr + base).toNat = base.toNat + p.firstPage := by
  have hle := firstPage_le_lastPage p
  rw [UInt64.toNat_add, Loader.toNat_trimToPage, ← Phdr.firstPage]
  omega

include hmem hfile in
/-- The pages that are added for the segment. -/
theorem mem_addedPages (a : ℕ) :
    a / 4096 * 4096 ∈ p.sectionInfo.addedPages ↔ p.firstPage ≤ a ∧ a < p.lastPage := by
  have hextent : p.sectionInfo.extent = p.memsz.toNat := max_eq_right hfile
  rw [Loader.SectionInfo.addedPages, if_neg (by omega), Loader.SectionInfo.pagesOf,
    Loader.SectionInfo.lastPage, Loader.SectionInfo.firstPage, hextent, mem_range']
  show (∃ i < ((p.vaddr.toNat + p.memsz.toNat + 4095) / 4096 * 4096 -
    p.vaddr.toNat / 4096 * 4096) / 4096, _ = p.vaddr.toNat / 4096 * 4096 + 4096 * i) ↔ _
  rw [Phdr.firstPage, Phdr.lastPage, Phdr.memEnd]
  constructor
  · rintro ⟨i, hi, heq⟩
    omega
  · intro h
    exact ⟨a / 4096 - p.vaddr.toNat / 4096, by omega, by omega⟩

end Segment

/-! ### All segments -/

section Segments

variable {p : Phdr} {ps : List Phdr} {base lastSectionEnd : UInt64} {e size : ℕ}

/-- The calls for the segments from the address `e` on. -/
structure Protects (base e size : ℕ) (ps : List Phdr) (calls : List Mprotect) : Prop where
  within : ∀ x ∈ calls, base + e ≤ x.addr.toNat ∧ x.addr.toNat + x.len.toNat ≤ base + size
  apart : calls.Pairwise fun x y => ∀ a, x.Covers a → ¬y.Covers a
  segments : ∀ a, (∃ x ∈ calls, x.prot ≠ 0 ∧ x.Covers (base + a)) ↔ Loaded ps a
  gaps : ∀ a, (∃ x ∈ calls, x.prot = 0 ∧ x.Covers (base + a)) ↔
    ¬Loaded ps a ∧ e ≤ a ∧ ∃ q ∈ ps, a < q.firstPage

/-- Where the gap before the next segment starts: at the end of a segment, or, for the first one, at the
segment itself. -/
def GapFrom (base : UInt64) (e : ℕ) (ps : List Phdr) (lastSectionEnd : UInt64) : Prop :=
  lastSectionEnd ≠ 0 ∧ lastSectionEnd.toNat = base.toNat + e ∨
    lastSectionEnd = 0 ∧ ∀ p ∈ ps.head?, e = p.firstPage

theorem WellFormed.loaded_iff (hwf : WellFormed size ps) (a : ℕ) :
    Loaded ps a ↔ ∃ p ∈ ps, p.firstPage ≤ a ∧ a < p.lastPage := by
  constructor
  · rintro ⟨p, hp, hpage⟩
    obtain ⟨hmem, hfile⟩ := hwf.memory p hp
    exact ⟨p, hp, (mem_addedPages hmem hfile a).mp hpage⟩
  · rintro ⟨p, hp, hin⟩
    obtain ⟨hmem, hfile⟩ := hwf.memory p hp
    exact ⟨p, hp, (mem_addedPages hmem hfile a).mpr hin⟩

theorem protOf_ne_zero {flags : ℕ} (h : flags % 8 ≠ 0) : protOf flags ≠ 0 := by
  rw [protOf]
  split_ifs <;> omega

/-- The gap before a segment, if there is one. -/
theorem gap_spec (hgap : GapFrom base e (p :: ps) lastSectionEnd) (hle : e ≤ p.firstPage)
    (hrva : (trimToPage p.vaddr + base).toNat = base.toNat + p.firstPage) :
    ∃ gap : List Mprotect, (if lastSectionEnd ≠ 0 then [⟨lastSectionEnd,
        trimToPage p.vaddr + base - lastSectionEnd, 0⟩] else []) = gap ∧ gap.length ≤ 1 ∧
      (∀ x ∈ gap, x.prot = 0 ∧ x.addr.toNat = base.toNat + e ∧
        x.addr.toNat + x.len.toNat = base.toNat + p.firstPage) ∧
      ∀ a, (∃ x ∈ gap, x.Covers (base.toNat + a)) ↔ e ≤ a ∧ a < p.firstPage := by
  rcases hgap with ⟨hne, hlast⟩ | ⟨rfl, hfirst⟩
  · have hlen : (trimToPage p.vaddr + base - lastSectionEnd).toNat = p.firstPage - e := by
      rw [UInt64.toNat_sub_of_le _ _ (UInt64.le_iff_toNat_le.mpr (by omega)), hrva, hlast]
      omega
    refine ⟨_, if_pos hne, le_rfl, ?_, ?_⟩
    · simp only [mem_singleton, forall_eq, hlast, hlen, true_and]
      omega
    · intro a
      simp only [mem_singleton, exists_eq_left, Mprotect.Covers, hlast, hlen]
      omega
  · have heq : e = p.firstPage := hfirst p rfl
    refine ⟨[], if_neg (by simp), by simp, by simp, ?_⟩
    intro a
    simp only [not_mem_nil, false_and, exists_false, false_iff]
    omega

/-- A segment, the gap before it and the calls for those behind it. -/
theorem Protects.cons {seg : Mprotect} {gap calls : List Mprotect}
    (h : Protects base.toNat p.lastPage size ps calls) (hwf : WellFormed size (p :: ps))
    (hle : e ≤ p.firstPage) (hprot : seg.prot ≠ 0)
    (hseg : seg.addr.toNat = base.toNat + p.firstPage ∧
      seg.addr.toNat + seg.len.toNat = base.toNat + p.lastPage)
    (hone : gap.length ≤ 1)
    (hgap : ∀ x ∈ gap, x.prot = 0 ∧ x.addr.toNat = base.toNat + e ∧
      x.addr.toNat + x.len.toNat = base.toNat + p.firstPage)
    (hcovers : ∀ a, (∃ x ∈ gap, x.Covers (base.toNat + a)) ↔ e ≤ a ∧ a < p.firstPage) :
    Protects base.toNat e size (p :: ps) (seg :: (gap ++ calls)) := by
  have hfirst := firstPage_le_lastPage p
  have hsize := hwf.inside p mem_cons_self
  obtain ⟨hnext, hordered⟩ := pairwise_cons.mp hwf.ordered
  have htail : WellFormed size ps := ⟨fun q hq => hwf.memory q (mem_cons_of_mem _ hq), hordered,
    fun q hq => hwf.inside q (mem_cons_of_mem _ hq)⟩
  have hbehind : ∀ a, Loaded ps a → p.lastPage ≤ a := by
    intro a ha
    obtain ⟨q, hq, hin⟩ := (htail.loaded_iff a).mp ha
    exact (hnext q hq).trans hin.1
  have hloaded : ∀ a, Loaded (p :: ps) a ↔ (p.firstPage ≤ a ∧ a < p.lastPage) ∨ Loaded ps a := by
    intro a
    rw [hwf.loaded_iff, htail.loaded_iff, exists_mem_cons_iff]
  have hself : ∀ a, seg.Covers (base.toNat + a) ↔ p.firstPage ≤ a ∧ a < p.lastPage := by
    intro a
    rw [Mprotect.Covers]
    omega
  -- the calls lie in the image, apart from each other, and cover the segments and the gaps
  refine ⟨?_, ?_, ?_, ?_⟩
  · intro x hx
    rcases mem_cons.mp hx with rfl | hx
    · omega
    rcases mem_append.mp hx with hx | hx
    · have := hgap x hx
      omega
    · have := h.within x hx
      omega
  · refine pairwise_cons.mpr ⟨?_, pairwise_append.mpr ⟨?_, h.apart, ?_⟩⟩
    · intro y hy a ha hcov
      rw [Mprotect.Covers] at ha hcov
      rcases mem_append.mp hy with hy | hy
      · have := hgap y hy
        omega
      · have := h.within y hy
        omega
    · rcases gap with _ | ⟨x, _ | ⟨y, gap⟩⟩
      · exact List.Pairwise.nil
      · exact pairwise_singleton _ _
      · simp at hone
    · intro x hx y hy a ha hcov
      rw [Mprotect.Covers] at ha hcov
      have := hgap x hx
      have := h.within y hy
      omega
  · intro a
    have hnone : ¬∃ x, x ∈ gap ∧ x.prot ≠ 0 ∧ x.Covers (base.toNat + a) := by
      rintro ⟨x, hx, hne, -⟩
      exact hne (hgap x hx).1
    rw [hloaded, ← h.segments, ← hself]
    simp only [mem_cons, mem_append, or_and_right, exists_or, exists_eq_left,
      and_iff_right hprot, hnone, false_or]
  · intro a
    have hall : (∃ x, x ∈ gap ∧ x.prot = 0 ∧ x.Covers (base.toNat + a)) ↔
        e ≤ a ∧ a < p.firstPage := by
      rw [← hcovers]
      exact exists_congr fun x => and_congr_right fun hx => and_iff_right (hgap x hx).1
    have hrest := hbehind a
    rw [hloaded]
    simp only [mem_cons, mem_append, or_and_right, exists_or, exists_eq_left, hprot,
      false_and, false_or, hall, h.gaps]
    -- what is left is propositional, given where the segments behind `p` begin
    generalize Loaded ps a = L at hrest ⊢
    generalize (∃ q, q ∈ ps ∧ a < q.firstPage) = Q
    grind

theorem protects_sectionCalls (hfits : base.toNat + size < 2 ^ 64) (hwf : WellFormed size ps)
    (hflags : ∀ p ∈ ps, p.flags % 8 ≠ 0) (hle : ∀ p ∈ ps, e ≤ p.firstPage)
    (hgap : GapFrom base e ps lastSectionEnd) :
    Protects base.toNat e size ps (sectionCalls base ps lastSectionEnd) := by
  induction ps generalizing e lastSectionEnd with
  | nil => exact ⟨by simp [sectionCalls], by simp [sectionCalls], by simp [sectionCalls, Loaded],
      by simp [sectionCalls]⟩
  | cons p ps ih =>
    obtain ⟨hmem, hfile⟩ := hwf.memory p mem_cons_self
    have hsize := hwf.inside p mem_cons_self
    have hfirst := firstPage_le_lastPage p
    obtain ⟨hnext, hordered⟩ := pairwise_cons.mp hwf.ordered
    have hrva : (trimToPage p.vaddr + base).toNat = base.toNat + p.firstPage :=
      toNat_start (by omega)
    have hlen := toNat_protLen hmem hfile (by omega)
    have hend : (trimToPage p.vaddr + base + p.protLen).toNat = base.toNat + p.lastPage := by
      rw [UInt64.toNat_add, hrva, hlen]
      omega
    have hpos : 0 < p.lastPage := by
      rw [Phdr.lastPage, Phdr.memEnd]
      omega
    have htail := ih ⟨fun q hq => hwf.memory q (mem_cons_of_mem _ hq), hordered,
        fun q hq => hwf.inside q (mem_cons_of_mem _ hq)⟩
      (fun q hq => hflags q (mem_cons_of_mem _ hq)) hnext
      (.inl ⟨fun h0 => by rw [h0, UInt64.toNat_zero] at hend; omega, hend⟩)
    obtain ⟨gap, hgapEq, hone, hgapx, hcovers⟩ := gap_spec hgap (hle p mem_cons_self) hrva
    rw [sectionCalls, hgapEq]
    exact htail.cons hwf (hle p mem_cons_self) (protOf_ne_zero (hflags p mem_cons_self))
      ⟨hrva, by rw [hrva, hlen]; omega⟩ hone hgapx hcovers

/-- The gaps start at the first segment. -/
theorem exists_protects (hfits : base.toNat + size < 2 ^ 64) (hwf : WellFormed size ps)
    (hflags : ∀ p ∈ ps, p.flags % 8 ≠ 0) :
    ∃ e, Protects base.toNat e size ps (sectionCalls base ps 0) ∧
      ∀ a, (∃ q ∈ ps, a < q.firstPage) → (e ≤ a ↔ ∃ p ∈ ps, p.firstPage ≤ a) := by
  cases ps with
  | nil => exact ⟨0, protects_sectionCalls hfits hwf hflags (by simp) (.inr (by simp)), by simp⟩
  | cons p ps =>
    have hle : ∀ q ∈ p :: ps, p.firstPage ≤ q.firstPage := by
      refine forall_mem_cons.mpr ⟨le_rfl, ?_⟩
      intro q hq
      exact (firstPage_le_lastPage p).trans ((pairwise_cons.mp hwf.ordered).1 q hq)
    refine ⟨p.firstPage, protects_sectionCalls hfits hwf hflags hle (.inr (by simp)), ?_⟩
    intro a _
    constructor
    · intro ha
      exact ⟨p, mem_cons_self, ha⟩
    · rintro ⟨q, hq, ha⟩
      exact (hle q hq).trans ha

end Segments

/-- **The protection of an accepted enclave** with well-formed segments.  The pages that get rights are
those that were added, the pages that lose them are the others between the first and the last segment,
no page is in two calls, and all of them lie in the enclave. -/
theorem protection_exact {m : Memory} {fuel : ℕ} {len : UInt64} {r : Parsed}
    (h : runParser m fuel len = some r) (base : UInt64) (size : ℕ)
    (hfits : base.toNat + size < 2 ^ 64) (hwf : WellFormed size r.sections) :
    ∃ calls, calls = sectionCalls base r.sections 0 ∧
      calls <+: setMemoryProtection m base r.sections ∧
      (∀ x ∈ calls, base.toNat ≤ x.addr.toNat ∧
        x.addr.toNat + x.len.toNat ≤ base.toNat + size) ∧
      calls.Pairwise (fun x y => ∀ a, x.Covers a → ¬y.Covers a) ∧
      (∀ a, (∃ x ∈ calls, x.prot ≠ 0 ∧ x.Covers (base.toNat + a)) ↔ Loaded r.sections a) ∧
      ∀ a, (∃ x ∈ calls, x.prot = 0 ∧ x.Covers (base.toNat + a)) ↔ ¬Loaded r.sections a ∧
        (∃ p ∈ r.sections, p.firstPage ≤ a) ∧ ∃ q ∈ r.sections, a < q.firstPage := by
  obtain ⟨-, -, hflags⟩ := runParser_eq_some h
  obtain ⟨e, hp, hstart⟩ := exists_protects hfits hwf hflags
  refine ⟨_, rfl, prefix_append _ _, ?_, hp.apart, hp.segments, ?_⟩
  · intro x hx
    have := hp.within x hx
    omega
  · intro a
    rw [hp.gaps]
    exact and_congr_right fun _ => and_congr_left fun hq => hstart a hq

theorem protection_exact_twoSegments :
    ∃ r, runParser twoSegments 2 0x1000 = some r ∧
      ∃ x ∈ sectionCalls 0x10000 r.sections 0, x.prot = 0 ∧ x.Covers 0x11000 := by
  have h : (runParser twoSegments 2 0x1000).any fun r =>
      (∀ p ∈ r.sections, 0 < p.memsz.toNat ∧ p.filesz.toNat ≤ p.memsz.toNat) ∧
        r.sections.Pairwise (fun p q => p.lastPage ≤ q.firstPage) ∧
        (∀ p ∈ r.sections, p.lastPage ≤ 0x8000) ∧
        (∀ p ∈ r.sections, 0x1000 ∉ p.sectionInfo.addedPages) ∧
        (∃ p ∈ r.sections, p.firstPage ≤ 0x1000) ∧ ∃ q ∈ r.sections, 0x1000 < q.firstPage := by
    decide +kernel
  obtain ⟨r, hr, h⟩ := (Option.any_eq_true ..).mp h
  obtain ⟨hmemory, hordered, hinside, hnot, hbefore, hbehind⟩ := of_decide_eq_true h
  obtain ⟨_, rfl, -, -, -, -, hgaps⟩ := protection_exact hr 0x10000 0x8000 (by decide)
    ⟨hmemory, hordered, hinside⟩
  refine ⟨r, hr, (hgaps 0x1000).mpr ⟨?_, hbefore, hbehind⟩⟩
  rintro ⟨p, hp, hpage⟩
  exact hnot p hp hpage

/-- The page behind the first segment is protected, but no segment has it. -/
theorem gap_not_loaded :
    (runParser twoSegments 2 0x1000).any fun r =>
      (setMemoryProtection twoSegments 0x10000 r.sections).any (fun x =>
        x.addr.toNat ≤ 0x11000 ∧ 0x11000 < x.addr.toNat + x.len.toNat) ∧
      ∀ p ∈ r.sections, 0x1000 ∉ p.sectionInfo.addedPages := by
  decide +kernel

end Elf
