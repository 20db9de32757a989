/-
Where the segments of an accepted file are (`validate_segment`).

The parser compares the end of a segment with the size of the file, and the addresses of each segment
to load, rounded up to its alignment, with those of the ones before.  All of it is done in 64 bits,
and the order of the segments is not looked at.

* `SegmentsOk` — the segments lie in the file, and their pages in memory come one after the other;
* `Orderly` — when that is so;
* **`segments_ok_iff`** — for every file that is accepted;
* `segment_outside` — a segment whose end wraps around.
-/
import LinuxSgx.Lib.Bits
import LinuxSgx.Parser.Elf

namespace Elf

namespace Phdr

variable (p : Phdr)

/-- The end of a segment in memory. -/
def memEnd : ℕ := p.vaddr.toNat + p.memsz.toNat

/-- The first and the end of the last page. -/
def firstPage : ℕ := p.vaddr.toNat / 4096 * 4096
def lastPage : ℕ := (p.memEnd + 4095) / 4096 * 4096

/-- It can be rounded up to its alignment. -/
def RoundFits : Prop := p.memEnd + p.align.toNat ≤ 2 ^ 64

instance : Decidable p.RoundFits := inferInstanceAs (Decidable (_ ≤ _))

end Phdr

/-- The segments to load. -/
def loads (ps : List Phdr) : List Phdr := ps.filter fun p => p.type = ptLoad

structure SegmentsOk (len : UInt64) (ps : List Phdr) : Prop where
  inFile : ∀ p ∈ ps, p.offset.toNat + p.filesz.toNat ≤ len.toNat
  inMemory : ∀ p ∈ loads ps, p.memEnd ≤ 2 ^ 64
  disjoint : (loads ps).Pairwise fun p q => p.lastPage ≤ q.firstPage

/-- No end wraps around, the segments to load come in the order of their addresses, and of two of them
the ends can be rounded up, unless they do not share a page anyway. -/
structure Orderly (ps : List Phdr) : Prop where
  offsets : ∀ p ∈ ps, p.offset.toNat + p.filesz.toNat < 2 ^ 64
  extents : ∀ p ∈ loads ps, p.memEnd ≤ 2 ^ 64
  ascending : (loads ps).Pairwise fun p q =>
    p.memEnd ≤ q.vaddr.toNat ∧ (p.RoundFits ∧ q.RoundFits ∨ p.lastPage ≤ q.vaddr.toNat)

/-! ### Rounding -/

section Round

variable {x a : UInt64} {p q : Phdr}

/-- What is rounded is a page, for any multiple of the size of a page. -/
theorem roundTo_mod (ha : a.toNat % 4096 = 0) : (roundTo x a).toNat % 4096 = 0 := by
  have hlt := a.toNat_lt
  have hmask : (~~~(a - 1)).toNat % 4096 = 0 := by
    rw [UInt64.toNat_not, UInt64.toNat_sub, UInt64.toNat_one, show UInt64.size = 2 ^ 64 from rfl]
    omega
  rw [roundTo, UInt64.toNat_and, show 4096 = 2 ^ 12 from rfl, Nat.and_mod_two_pow,
    show (~~~(a - 1)).toNat % 2 ^ 12 = 0 from hmask, Nat.and_zero]

/-- It is not less than before, unless the sum wraps around. -/
theorem le_roundTo (hpos : 0 < a.toNat) (hfits : x.toNat + a.toNat ≤ 2 ^ 64) :
    x.toNat ≤ (roundTo x a).toNat := by
  have hlt := a.toNat_lt
  have hsub : (a - 1).toNat = a.toNat - 1 := by
    rw [UInt64.toNat_sub, UInt64.toNat_one]
    omega
  have hsum : (x + (a - 1)).toNat = x.toNat + (a.toNat - 1) := by
    rw [UInt64.toNat_add, hsub]
    omega
  have hsplit := Bits.and_not_add_and (x + (a - 1)) (a - 1)
  have hle : ((x + (a - 1)) &&& (a - 1)).toNat ≤ a.toNat - 1 := by
    rw [UInt64.toNat_and, hsub]
    exact Nat.and_le_right
  rw [roundTo]
  omega

/-- The last address that is compared lies behind the segment's last page. -/
theorem lastPage_le_loadSeg (halign : p.align % 4096 = 0) (hend : p.memEnd ≤ 2 ^ 64)
    (hfits : p.RoundFits) : p.lastPage ≤ p.loadSeg.2.toNat + 1 := by
  have halign : p.align.toNat % 4096 = 0 := by
    have := congrArg UInt64.toNat halign
    rwa [UInt64.toNat_mod] at this
  have hmod := roundTo_mod (x := p.vaddr + p.memsz) halign
  have hround := (roundTo (p.vaddr + p.memsz) p.align).toNat_lt
  have hlast : p.loadSeg.2.toNat =
      (2 ^ 64 - 1 + (roundTo (p.vaddr + p.memsz) p.align).toNat) % 2 ^ 64 := by
    rw [Phdr.loadSeg, UInt64.toNat_sub, UInt64.toNat_one]
  rw [Phdr.lastPage, hlast]
  by_cases hzero : (roundTo (p.vaddr + p.memsz) p.align).toNat = 0
  · rw [hzero]
    omega
  · have hle : p.memEnd ≤ (roundTo (p.vaddr + p.memsz) p.align).toNat := by
      have hpos : 0 < p.align.toNat := by
        by_contra hnot
        have ha : p.align = 0 := UInt64.toNat_inj.mp (by rw [UInt64.toNat_zero]; omega)
        rw [ha, roundTo] at hzero
        exact hzero (by simp)
      rw [Phdr.RoundFits, Phdr.memEnd] at hfits
      have hsum : (p.vaddr + p.memsz).toNat = p.vaddr.toNat + p.memsz.toNat := by
        rw [UInt64.toNat_add]
        omega
      have := le_roundTo (x := p.vaddr + p.memsz) hpos (by omega)
      rw [hsum] at this
      exact this
    omega

/-- Two segments that come in order and do not overlap share no page. -/
theorem lastPage_le_of_not_overlap (hp : p.align % 4096 = 0) (hq : q.align % 4096 = 0)
    (hpend : p.memEnd ≤ 2 ^ 64) (hqend : q.memEnd ≤ 2 ^ 64) (hpfits : p.RoundFits)
    (hqfits : q.RoundFits) (horder : p.memEnd ≤ q.vaddr.toNat)
    (hno : isOverlap q.loadSeg p.loadSeg = false) : p.lastPage ≤ q.vaddr.toNat := by
  have hplast := lastPage_le_loadSeg hp hpend hpfits
  have hqlast := lastPage_le_loadSeg hq hqend hqfits
  rw [isOverlap, decide_eq_false_iff_not, UInt64.le_iff_toNat_le, UInt64.le_iff_toNat_le] at hno
  have hno : p.loadSeg.2.toNat < q.vaddr.toNat ∨ q.loadSeg.2.toNat < p.vaddr.toNat := by
    rw [not_and_or, not_le, not_le] at hno
    exact hno
  generalize p.loadSeg.2.toNat = plast at hplast hno
  generalize q.loadSeg.2.toNat = qlast at hqlast hno
  rcases hno with hno | hno
  · omega
  · -- both are empty, at the same page
    have hpend : p.vaddr.toNat ≤ p.memEnd := Nat.le_add_right ..
    have hqend : q.vaddr.toNat ≤ q.memEnd := Nat.le_add_right ..
    have hqle : q.memEnd ≤ q.lastPage := by
      rw [Phdr.lastPage]
      omega
    have hsame : p.memEnd = q.memEnd := by omega
    rw [Phdr.lastPage, hsame, ← Phdr.lastPage]
    omega

end Round

/-! ### The check -/

/-- What the check makes sure of. -/
structure Validated (len : UInt64) (ps : List Phdr) : Prop where
  sums : ∀ p ∈ ps, p.offset + p.filesz ≤ len
  aligned : ∀ p ∈ loads ps, p.align % 4096 = 0
  apart : (loads ps).Pairwise fun p q => isOverlap q.loadSeg p.loadSeg = false

theorem validated_of_validateSegment {len : UInt64} {ps seen : List Phdr}
    (h : validateSegment len ps seen = true) :
    Validated len ps ∧ ∀ p ∈ seen, ∀ q ∈ loads ps, isOverlap q.loadSeg p.loadSeg = false := by
  induction ps generalizing seen with
  | nil => exact ⟨⟨by simp, by simp [loads], by simp [loads]⟩, by simp [loads]⟩
  | cons p ps ih =>
    rw [validateSegment] at h
    split_ifs at h with hsum htype halign hover
    · obtain ⟨hv, hseen⟩ := ih h
      have hloads : loads (p :: ps) = p :: loads ps := List.filter_cons_of_pos (by simpa using htype)
      rw [Bool.not_eq_true, List.any_eq_false] at hover
      refine ⟨⟨?_, ?_, ?_⟩, ?_⟩
      · exact List.forall_mem_cons.mpr ⟨UInt64.not_lt.mp hsum, hv.sums⟩
      · rw [hloads]
        exact List.forall_mem_cons.mpr ⟨not_not.mp halign, hv.aligned⟩
      · rw [hloads]
        exact List.pairwise_cons.mpr ⟨hseen p (by simp), hv.apart⟩
      · intro q hq
        rw [hloads]
        exact List.forall_mem_cons.mpr ⟨by simpa using hover q hq, hseen q (by simp [hq])⟩
    · obtain ⟨hv, hseen⟩ := ih h
      have hloads : loads (p :: ps) = loads ps := List.filter_cons_of_neg (by simpa using htype)
      rw [hloads]
      refine ⟨⟨List.forall_mem_cons.mpr ⟨UInt64.not_lt.mp hsum, hv.sums⟩, ?_, ?_⟩, hseen⟩
      · rw [hloads]
        exact hv.aligned
      · rw [hloads]
        exact hv.apart

theorem Validated.segmentsOk_iff {len : UInt64} {ps : List Phdr} (h : Validated len ps) :
    SegmentsOk len ps ↔ Orderly ps := by
  have hlen := len.toNat_lt
  constructor
  · intro hok
    refine ⟨fun p hp => lt_of_le_of_lt (hok.inFile p hp) hlen, hok.inMemory, hok.disjoint.imp ?_⟩
    intro p q hpq
    have hq : q.firstPage ≤ q.vaddr.toNat := Nat.div_mul_le_self ..
    have hp : p.memEnd ≤ p.lastPage := by
      rw [Phdr.lastPage]
      omega
    exact ⟨by omega, .inr (by omega)⟩
  · intro ho
    refine ⟨?_, ho.extents, ?_⟩
    · intro p hp
      have hsum := UInt64.le_iff_toNat_le.mp (h.sums p hp)
      rwa [UInt64.toNat_add, Nat.mod_eq_of_lt (ho.offsets p hp)] at hsum
    · refine (ho.ascending.and h.apart).imp_of_mem ?_
      rintro p q hp hq ⟨⟨horder, hfits⟩, hno⟩
      have hle : p.lastPage ≤ q.vaddr.toNat := by
        rcases hfits with ⟨hpfits, hqfits⟩ | hle
        · exact lastPage_le_of_not_overlap (h.aligned p hp) (h.aligned q hq) (ho.extents p hp)
            (ho.extents q hq) hpfits hqfits horder hno
        · exact hle
      rw [Phdr.lastPage] at hle ⊢
      rw [Phdr.firstPage]
      omega

/-- What an accepted file has passed. -/
theorem runParser_eq_some {m : Memory} {fuel : ℕ} {len : UInt64} {r : Parsed}
    (h : runParser m fuel len = some r) :
    validateSegment len m.phdrs [] = true ∧ r.sections = loads m.phdrs ∧
      ∀ p ∈ r.sections, p.flags % 8 ≠ 0 := by
  simp only [runParser, Option.bind_eq_bind, Option.bind_eq_some_iff, Option.guard_eq_some'] at h
  obtain ⟨_, _, _, hseg, _, _, info, _, _, _, _, _, ps, hps, hr⟩ := h
  rw [buildRegularSections, Option.ite_none_right_eq_some] at hps
  cases hr
  obtain rfl := Option.some.inj hps.2
  refine ⟨hseg, rfl, ?_⟩
  intro p hp
  obtain ⟨hmem, htype⟩ := List.mem_filter.mp hp
  exact hps.1.2 p hmem (.inl (by simpa using htype))

/-- **Segments of accepted files.**  They lie in the file and their pages are disjoint, in increasing
order, exactly if they are orderly. -/
theorem segments_ok_iff {m : Memory} {fuel : ℕ} {len : UInt64} {r : Parsed}
    (h : runParser m fuel len = some r) : SegmentsOk len m.phdrs ↔ Orderly m.phdrs :=
  (validated_of_validateSegment (runParser_eq_some h).1).1.segmentsOk_iff

theorem segments_ok_iff_twoSegments :
    (loads twoSegments.phdrs).length = 2 ∧ SegmentsOk 0x1000 twoSegments.phdrs := by
  have h : (runParser twoSegments 2 0x1000).isSome := by decide +kernel
  refine ⟨by decide +kernel, (segments_ok_iff (Option.some_get h).symm).mpr ⟨?_, ?_, ?_⟩⟩
  all_goals decide +kernel

/-- The end of a segment in the file wraps around, and it is accepted all the same. -/
theorem segment_outside :
    ∃ m : Memory, (runParser m 2 0x1000).isSome ∧
      ∃ p ∈ m.phdrs, p.type = ptLoad ∧ 0x1000 < p.offset.toNat + p.filesz.toNat := by
  refine ⟨oneSegment ⟨ptLoad, 5, 0xFFFFFFFFFFFFFFFF, 0, 2, 0x1000, 0x1000⟩, ?_⟩
  decide +kernel

end Elf
