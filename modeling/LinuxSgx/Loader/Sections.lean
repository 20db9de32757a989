/-
What the pages of a section hold (`loader.cpp`).

`build_mem_region` adds the pages of a section: the raw data page by page, the first and the last of
them in part, and zero pages for the rest.

* `Source.byte`, `SectionInfo.byteAt` — what a page is filled with, and what a section has at an
  address;
* `Fills ok ps w r w'` — the outcome of a step that adds the pages `ps` in this order, each of them
  filled as `ok` says: all of them if it reports success, the first few otherwise;
* **`region_filled`** — the pages are those of the section, each one once, with the raw data at its
  place and zeros around it;
* `empty_section` — a section without any data has no page, wherever it lies.
-/
import LinuxSgx.Lib.Bits
import LinuxSgx.Loader.Contexts

namespace Loader

open Prog List

/-! ### Page arithmetic -/

section Arithmetic

variable (a : UInt64)

theorem toNat_pageOffset : (pageOffset a).toNat = a.toNat % 4096 := by
  exact Nat.and_two_pow_sub_one_eq_mod _ 12

theorem toNat_trimToPage : (trimToPage a).toNat = a.toNat / 4096 * 4096 := by
  have hsplit : (trimToPage a).toNat + (pageOffset a).toNat = a.toNat := Bits.and_not_add_and a 0xFFF
  rw [toNat_pageOffset] at hsplit
  omega

theorem toNat_roundToPage : (roundToPage a).toNat = (a.toNat + 4095) % 2 ^ 64 / 4096 * 4096 := by
  show (trimToPage (a + 0xFFF)).toNat = _
  rw [toNat_trimToPage, UInt64.toNat_add]
  rfl

end Arithmetic

/-! ### Contents -/

/-- Byte `i` of a page.  A template of a TCS is changed while it is copied. -/
def Source.byte (file : ℕ → UInt8) : Source → ℕ → Option UInt8
  | .null, _ => some 0
  | .raw offset size start, i =>
    some (if start ≤ i ∧ i < start + size then file (offset + (i - start)) else 0)
  | .tcs _ _ _, _ => none
  | .fill word, i => some (word >>> UInt32.ofNat (8 * (i % 4))).toUInt8

namespace SectionInfo

variable (sec : SectionInfo)

/-- How many bytes there are, with or without data. -/
def extent : ℕ := max sec.rawDataSize.toNat sec.virtualSize.toNat

/-- The start of the first page. -/
def firstPage : ℕ := sec.rva.toNat / 4096 * 4096

/-- The end of the last page. -/
def lastPage : ℕ := (sec.rva.toNat + sec.extent + 4095) / 4096 * 4096

/-- The pages between them. -/
def pagesOf : List ℕ := List.range' sec.firstPage ((sec.lastPage - sec.firstPage) / 4096) 4096

/-- The byte at an address: raw data or zero. -/
def byteAt (file : ℕ → UInt8) (a : ℕ) : UInt8 :=
  if sec.rva.toNat ≤ a ∧ a < sec.rva.toNat + sec.rawDataSize.toNat then
    file (sec.rawData + (a - sec.rva.toNat))
  else 0

/-- A page that is filled as the section says. -/
def Right (p : ℕ) (s : Source) : Prop :=
  ∀ (file : ℕ → UInt8) (i : ℕ), i < 4096 → s.byte file i = some (sec.byteAt file (p + i))

/-- The raw data can be read, and the addresses do not wrap around. -/
structure Sane (c : Config) : Prop where
  readable : sec.rawData + sec.rawDataSize.toNat ≤ c.limit
  bounded : sec.rva.toNat + sec.extent + 4095 < 2 ^ 64

end SectionInfo

/-! ### Steps that fill pages -/

section Fills

/-- The pages that were asked for, with their contents. -/
def filled (calls : List Call) : List (ℕ × Source) :=
  calls.filterMap fun
    | .addEnclavePage rva source _ _ => some (rva.toNat, source)
    | _ => none

/-- A step that adds the pages `ps`, all of them filled as they should be. -/
def Fills (ok : ℕ → Source → Prop) (ps : List ℕ) (w : World) (r : Int) (w' : World) : Prop :=
  ∃ done, w'.calls = w.calls ++ done ∧ (filled done).map Prod.fst <+: ps ∧
    (r = 0 → (filled done).map Prod.fst = ps) ∧ ∀ p s, (p, s) ∈ filled done → ok p s

variable {c : Config} {ok : ℕ → Source → Prop} {ps qs : List ℕ} {w w' w'' : World} {r : Int}
  {m m' : Prog World Int}

theorem Fills.nil (hcalls : w'.calls = w.calls) : Fills ok [] w r w' :=
  ⟨[], by rw [hcalls, append_nil], prefix_rfl, fun _ => rfl, by simp [filled]⟩

theorem Fills.seq (h : Fills ok ps w 0 w') (h' : Fills ok qs w' r w'') :
    Fills ok (ps ++ qs) w r w'' := by
  obtain ⟨done, hdone, -, hps, hright⟩ := h
  obtain ⟨done', hdone', hpre, hqs, hright'⟩ := h'
  have hfilled : (filled (done ++ done')).map Prod.fst = ps ++ (filled done').map Prod.fst := by
    rw [filled, filterMap_append, map_append]
    exact congrArg (· ++ (filled done').map Prod.fst) (hps rfl)
  refine ⟨done ++ done', ?_, ?_, ?_, ?_⟩
  · rw [hdone', hdone, List.append_assoc]
  · rw [hfilled]
    exact (prefix_append_right_inj ps).mpr hpre
  · intro hr
    rw [hfilled, hqs hr]
  · intro p s hmem
    rw [filled, filterMap_append] at hmem
    rcases mem_append.mp hmem with hmem | hmem
    · exact hright p s hmem
    · exact hright' p s hmem

theorem Fills.stop (h : Fills ok ps w r w') (hr : r ≠ 0) : Fills ok (ps ++ qs) w r w' := by
  obtain ⟨done, hdone, hpre, -, hright⟩ := h
  exact ⟨done, hdone, hpre.trans (prefix_append ps qs), fun h0 => absurd h0 hr, hright⟩

theorem Fills.mono {ok' : ℕ → Source → Prop} (h : Fills ok ps w r w')
    (hok : ∀ p s, ok p s → ok' p s) : Fills ok' ps w r w' := by
  obtain ⟨done, hdone, hpre, hall, hright⟩ := h
  exact ⟨done, hdone, hpre, hall, fun p s hmem => hok p s (hright p s hmem)⟩

theorem fills_andThen (h : wp False m (Fills ok ps w) w)
    (h' : ∀ w', wp False m' (Fills ok qs w') w') :
    wp False (andThen m m') (Fills ok (ps ++ qs) w) w := by
  rw [wp_andThen]
  refine wp_mono h ?_
  intro r w' hr
  refine ⟨fun h0 => hr.stop h0, ?_⟩
  rintro rfl
  exact wp_mono (h' w') fun r' w'' hr' => hr.seq hr'

theorem fills_tryAll {α : Type} {f : α → Prog World Int} {pages : α → List ℕ} (l : List α)
    (hf : ∀ a ∈ l, ∀ w, wp False (f a) (Fills ok (pages a) w) w) :
    ∀ w, wp False (tryAll f l) (Fills ok (l.flatMap pages) w) w := by
  induction l with
  | nil =>
    intro w
    exact Fills.nil rfl
  | cons a l ih =>
    intro w
    exact fills_andThen (hf a mem_cons_self w) (ih fun b hb => hf b (mem_cons_of_mem a hb))

theorem fills_addEnclavePage {rva flags : UInt64} {source : Source} {attr : UInt16}
    (hright : ok rva.toNat source) :
    wp False (request c (.addEnclavePage rva source flags attr)) (Fills ok [rva.toNat] w) w := by
  refine ⟨[.addEnclavePage rva source flags attr], rfl, prefix_rfl, fun _ => rfl, ?_⟩
  intro p s hmem
  obtain ⟨rfl, rfl⟩ := Prod.mk.injEq .. ▸ mem_singleton.mp hmem
  exact hright

theorem fills_buildPagesLoop {flags : UInt64} {source : Source} {attr : UInt16} (n : ℕ) :
    ∀ rva : UInt64, rva.toNat + 4096 * n < 2 ^ 64 →
      (∀ k < n, ok (rva.toNat + 4096 * k) source) → ∀ w : World,
      wp False (buildPagesLoop c source flags attr n rva)
        (Fills ok (List.range' rva.toNat n 4096) w) w := by
  induction n with
  | zero =>
    intro rva _ _ w
    exact Fills.nil rfl
  | succ n ih =>
    intro rva hrva hright w
    have hnext : (rva + 4096).toNat = rva.toNat + 4096 := by
      rw [UInt64.toNat_add, show (4096 : UInt64).toNat = 4096 from rfl]
      omega
    have htail := ih (rva + 4096) (by omega) fun k hk => by
      rw [hnext, show rva.toNat + 4096 + 4096 * k = rva.toNat + 4096 * (k + 1) by omega]
      exact hright (k + 1) (by omega)
    rw [hnext] at htail
    have hfirst := hright 0 (Nat.succ_pos n)
    exact fills_andThen (fills_addEnclavePage hfirst) htail

theorem wp_touch_iff {Q : Unit → World → Prop} {offset size : ℕ} :
    wp False (touch c offset size) Q w ↔ offset + size ≤ c.limit ∧ Q () w := by
  unfold touch
  split
  · rename_i h
    exact (and_iff_right h).symm
  · rename_i h
    exact ⟨False.elim, fun h' => absurd h'.1 h⟩

theorem wp_touch {Q : Unit → World → Prop} {offset size : ℕ} (h : offset + size ≤ c.limit) :
    wp False (touch c offset size) Q w ↔ Q () w :=
  wp_touch_iff.trans (and_iff_right h)

end Fills

/-! ### The parts of `build_mem_region` -/

section Region

variable {c : Config} {sec : SectionInfo} {offset : UInt64}

/-- The page of an offset into the section. -/
def SectionInfo.pageAt (sec : SectionInfo) (offset : UInt64) : ℕ :=
  (sec.rva.toNat + offset.toNat) / 4096 * 4096

/-- A round of the loop starts at the section or at a page. -/
structure AtRound (sec : SectionInfo) (offset : UInt64) : Prop where
  start : offset = 0 ∨ 4096 ∣ sec.rva.toNat + offset.toNat
  bounded : sec.rva.toNat + offset.toNat < 2 ^ 64

theorem AtRound.toNat_rva (h : AtRound sec offset) :
    (sec.rva + offset).toNat = sec.rva.toNat + offset.toNat := by
  have hb := h.bounded
  rw [UInt64.toNat_add]
  omega

theorem AtRound.toNat_page (h : AtRound sec offset) :
    (trimToPage (sec.rva + offset)).toNat = sec.pageAt offset := by
  rw [toNat_trimToPage, h.toNat_rva, SectionInfo.pageAt]

theorem toNat_minOf (x y : UInt64) : (minOf x y).toNat = min x.toNat y.toNat := by
  rw [minOf]
  split
  · rename_i hgt
    have := UInt64.lt_iff_toNat_lt.mp hgt
    omega
  · rename_i hle
    have := UInt64.le_iff_toNat_le.mp (UInt64.not_lt.mp hle)
    omega

/-- The bytes of a round: up to the end of the page or of the raw data. -/
theorem toNat_roundSize (hlt : offset < sec.rawDataSize) (a : UInt64) :
    (minOf (4096 - pageOffset a) (sec.rawDataSize - offset)).toNat =
      min (4096 - a.toNat % 4096) (sec.rawDataSize.toNat - offset.toNat) := by
  have hlt' := UInt64.lt_iff_toNat_lt.mp hlt
  have hpage : (pageOffset a).toNat ≤ (4096 : UInt64).toNat := by
    rw [toNat_pageOffset, show (4096 : UInt64).toNat = 4096 from rfl]
    omega
  rw [toNat_minOf, UInt64.toNat_sub_of_le _ _ (UInt64.le_iff_toNat_le.mpr hpage),
    UInt64.toNat_sub_of_le _ _ (UInt64.le_iff_toNat_le.mpr (by omega)), toNat_pageOffset,
    show (4096 : UInt64).toNat = 4096 from rfl]

/-- The page of a round has the raw data where it belongs. -/
theorem right_raw (h : AtRound sec offset) :
    sec.Right (sec.pageAt offset)
      (.raw (sec.rawData + offset.toNat)
        (min (4096 - (sec.rva.toNat + offset.toNat) % 4096) (sec.rawDataSize.toNat - offset.toNat))
        ((sec.rva.toNat + offset.toNat) % 4096)) := by
  intro file i hi
  have hstart : offset.toNat = 0 ∨ 4096 ∣ sec.rva.toNat + offset.toNat :=
    h.start.imp_left fun h0 => by rw [h0]; rfl
  have hat : sec.pageAt offset = (sec.rva.toNat + offset.toNat) / 4096 * 4096 := rfl
  simp only [Source.byte, SectionInfo.byteAt]
  by_cases hin : sec.rva.toNat ≤ sec.pageAt offset + i ∧
      sec.pageAt offset + i < sec.rva.toNat + sec.rawDataSize.toNat
  · rw [if_pos hin, if_pos (by omega)]
    congr 2
    omega
  · rw [if_neg hin, if_neg (by omega)]

theorem fills_makeWritable {rva flags : UInt64} {w : World} :
    wp False (makeWritable c rva flags) (Fills sec.Right [] w) w := by
  rw [makeWritable, wp_ite]
  constructor
  · intro _
    exact ⟨[_], rfl, prefix_rfl, fun _ => rfl, by simp [filled]⟩
  · intro _
    exact Fills.nil rfl

/-- One page is one request. -/
theorem fills_onePage {rva size flags : UInt64} {source : Source} {attr : UInt16} {w : World}
    (hsize : size = 4096) (hright : sec.Right rva.toNat source) :
    wp False (buildPages c rva size source flags attr) (Fills sec.Right [rva.toNat] w) w := by
  subst hsize
  have hempty : ∀ w' : World, wp False (buildPagesLoop c source flags attr 0 (rva + 4096))
      (Fills sec.Right [] w') w' := fun w' => Fills.nil rfl
  have hone : ((4096 : UInt64).toNat + 4095) / 4096 = 1 := by decide
  rw [buildPages, hone, buildPagesLoop, ← append_nil [_]]
  exact fills_andThen (fills_addEnclavePage hright) hempty

theorem fills_buildRawPage (hs : sec.Sane c) (h : AtRound sec offset)
    (hlt : offset < sec.rawDataSize) (w : World) :
    wp False (buildRawPage c sec offset) (Fills sec.Right [sec.pageAt offset] w) w := by
  have hrva := h.toNat_rva
  have hat : sec.pageAt offset = (sec.rva.toNat + offset.toNat) / 4096 * 4096 := rfl
  have hsize := toNat_roundSize hlt (sec.rva + offset)
  have hright := right_raw h
  have hlt' := UInt64.lt_iff_toNat_lt.mp hlt
  have hreadable := hs.readable
  rw [← nil_append [_], buildRawPage]
  refine fills_andThen ?_ ?_
  · split
    · exact fills_makeWritable
    · exact Fills.nil rfl
  · intro w'
    rw [buildData, wp_bind, wp_touch (by omega), wp_ite]
    rw [hrva] at hsize
    constructor
    · -- a whole page
      intro hfull
      have hfull' : min (4096 - (sec.rva.toNat + offset.toNat) % 4096)
          (sec.rawDataSize.toNat - offset.toNat) = 4096 := by
        rw [← hsize, hfull]
        rfl
      have haligned : (sec.rva.toNat + offset.toNat) % 4096 = 0 := by omega
      have hpage : sec.pageAt offset = (sec.rva + offset).toNat := by omega
      rw [hfull', haligned, hpage] at hright
      rw [hpage]
      exact fills_onePage hfull hright
    · intro _
      rw [buildPartialPage, hsize, toNat_pageOffset, hrva]
      rw [← h.toNat_page] at hright ⊢
      exact fills_onePage rfl hright

/-- The zero pages from the page of an offset on. -/
theorem fills_buildUninitialized (hs : sec.Sane c) (h : AtRound sec offset)
    (hraw : sec.rawDataSize ≤ offset) (hextent : 0 < sec.extent) (w : World) :
    wp False (buildUninitialized c sec offset)
      (Fills sec.Right
        (List.range' (sec.pageAt offset) ((sec.lastPage - sec.pageAt offset) / 4096) 4096) w) w := by
  have hrva := h.toNat_rva
  have hbounded := hs.bounded
  have hraw' := UInt64.le_iff_toNat_le.mp hraw
  have hstart : offset.toNat = 0 ∨ 4096 ∣ sec.rva.toNat + offset.toNat :=
    h.start.imp_left fun h0 => by rw [h0]; rfl
  have hat : sec.pageAt offset = (sec.rva.toNat + offset.toNat) / 4096 * 4096 := rfl
  have hpage := h.toNat_page
  have hextent' : sec.extent = max sec.rawDataSize.toNat sec.virtualSize.toNat := rfl
  have hlast : sec.lastPage = (sec.rva.toNat + sec.extent + 4095) / 4096 * 4096 := rfl
  rw [buildUninitialized, wp_ite, gt_iff_lt, UInt64.lt_iff_toNat_lt]
  constructor
  · intro hgt
    -- the rest of the section, from the start of its first page
    have hrest : (sec.virtualSize - offset + pageOffset (sec.rva + offset)).toNat =
        sec.virtualSize.toNat - offset.toNat + (sec.rva.toNat + offset.toNat) % 4096 := by
      rw [UInt64.toNat_add, UInt64.toNat_sub_of_le _ _ (UInt64.le_iff_toNat_le.mpr (by omega)),
        toNat_pageOffset, hrva]
      omega
    have hround : (roundToPage (sec.virtualSize - offset + pageOffset (sec.rva + offset))).toNat =
        (sec.virtualSize.toNat - offset.toNat + (sec.rva.toNat + offset.toNat) % 4096 + 4095) /
          4096 * 4096 := by
      rw [toNat_roundToPage, hrest]
      omega
    have hcount : ((roundToPage (sec.virtualSize - offset + pageOffset (sec.rva + offset))).toNat +
        4095) / 4096 = (sec.lastPage - sec.pageAt offset) / 4096 := by
      omega
    rw [buildPages, hcount, ← hpage]
    refine fills_buildPagesLoop _ _ (by omega) ?_ w
    intro k _ file i hi
    rw [SectionInfo.byteAt, if_neg (by omega)]
    rfl
  · intro hle
    have hnone : (sec.lastPage - sec.pageAt offset) / 4096 = 0 := by omega
    rw [hnone]
    exact Fills.nil rfl

/-- The offset of the next round. -/
theorem AtRound.next (hs : sec.Sane c) (h : AtRound sec offset) (hlt : offset < sec.rawDataSize) :
    AtRound sec (offset + (4096 - pageOffset (sec.rva + offset))) ∧
      sec.rva.toNat + (offset + (4096 - pageOffset (sec.rva + offset))).toNat =
        sec.pageAt offset + 4096 := by
  have hat : sec.pageAt offset = (sec.rva.toNat + offset.toNat) / 4096 * 4096 := rfl
  have hlt' := UInt64.lt_iff_toNat_lt.mp hlt
  have hbounded := hs.bounded
  have hextent : sec.extent = max sec.rawDataSize.toNat sec.virtualSize.toNat := rfl
  have hpage : (pageOffset (sec.rva + offset)).toNat = (sec.rva.toNat + offset.toNat) % 4096 := by
    rw [toNat_pageOffset, h.toNat_rva]
  have hstep : (4096 - pageOffset (sec.rva + offset)).toNat =
      4096 - (sec.rva.toNat + offset.toNat) % 4096 := by
    have hle : (pageOffset (sec.rva + offset)).toNat ≤ (4096 : UInt64).toNat := by
      rw [hpage, show (4096 : UInt64).toNat = 4096 from rfl]
      omega
    rw [UInt64.toNat_sub_of_le _ _ (UInt64.le_iff_toNat_le.mpr hle), hpage]
    rfl
  have hnext : sec.rva.toNat + (offset + (4096 - pageOffset (sec.rva + offset))).toNat =
      sec.pageAt offset + 4096 := by
    rw [UInt64.toNat_add, hstep]
    omega
  refine ⟨⟨.inr ?_, ?_⟩, hnext⟩
  · rw [hnext]
    omega
  · rw [hnext]
    omega

/-- The loop, with enough rounds left for the raw data. -/
theorem fills_buildMemRegionLoop (hs : sec.Sane c) (hextent : 0 < sec.extent) (fuel : ℕ) :
    ∀ offset, AtRound sec offset →
      sec.rva.toNat + sec.rawDataSize.toNat ≤ sec.pageAt offset + fuel * 4096 → ∀ w : World,
      wp False (buildMemRegionLoop c sec (fuel + 1) offset) (Fills sec.Right
        (List.range' (sec.pageAt offset) ((sec.lastPage - sec.pageAt offset) / 4096) 4096) w) w := by
  have hextent' : sec.extent = max sec.rawDataSize.toNat sec.virtualSize.toNat := rfl
  have hlast : sec.lastPage = (sec.rva.toNat + sec.extent + 4095) / 4096 * 4096 := rfl
  induction fuel with
  | zero =>
    intro offset h hfuel w
    have hat : sec.pageAt offset = (sec.rva.toNat + offset.toNat) / 4096 * 4096 := rfl
    have hraw : sec.rawDataSize ≤ offset := UInt64.le_iff_toNat_le.mpr (by omega)
    rw [buildMemRegionLoop, if_neg (UInt64.not_lt.mpr hraw)]
    exact fills_buildUninitialized hs h hraw hextent w
  | succ fuel ih =>
    intro offset h hfuel w
    rw [buildMemRegionLoop]
    by_cases hlt : offset < sec.rawDataSize
    · rw [if_pos hlt]
      obtain ⟨hround, hnext⟩ := h.next hs hlt
      have hlt' := UInt64.lt_iff_toNat_lt.mp hlt
      have hat : sec.pageAt offset = (sec.rva.toNat + offset.toNat) / 4096 * 4096 := rfl
      -- the page of this round is followed by those of the next ones
      have hcount : (sec.lastPage - sec.pageAt offset) / 4096 =
          (sec.lastPage - (sec.pageAt offset + 4096)) / 4096 + 1 := by omega
      have hpage : sec.pageAt (offset + (4096 - pageOffset (sec.rva + offset))) =
          sec.pageAt offset + 4096 := by
        rw [SectionInfo.pageAt, hnext]
        omega
      have htail := ih _ hround (by rw [hpage]; omega)
      rw [hpage] at htail
      rw [hcount, List.range'_succ, ← singleton_append]
      exact fills_andThen (fills_buildRawPage hs h hlt w) htail
    · rw [if_neg hlt]
      exact fills_buildUninitialized hs h (UInt64.not_lt.mp hlt) hextent w

/-- The pages that are added: none if there is nothing to add. -/
def SectionInfo.addedPages (sec : SectionInfo) : List ℕ :=
  if sec.extent = 0 then [] else sec.pagesOf

theorem fills_buildMemRegion (hs : sec.Sane c) (w : World) :
    wp False (buildMemRegion c sec) (Fills sec.Right sec.addedPages w) w := by
  have hround : AtRound sec 0 := by
    refine ⟨.inl rfl, ?_⟩
    have hlt := sec.rva.toNat_lt
    rwa [show (0 : UInt64).toNat = 0 from rfl, Nat.add_zero]
  rw [SectionInfo.addedPages, buildMemRegion]
  by_cases hextent : sec.extent = 0
  · -- neither loop has anything to do
    have hmax : max sec.rawDataSize.toNat sec.virtualSize.toNat = 0 := hextent
    have hraw : ¬(0 : UInt64) < sec.rawDataSize := by
      rw [UInt64.lt_iff_toNat_lt, show (0 : UInt64).toNat = 0 from rfl]
      omega
    have hvirtual : ¬sec.virtualSize > 0 := by
      rw [gt_iff_lt, UInt64.lt_iff_toNat_lt, show (0 : UInt64).toNat = 0 from rfl]
      omega
    rw [if_pos hextent, buildMemRegionLoop, if_neg hraw, buildUninitialized, if_neg hvirtual]
    exact Fills.nil rfl
  · rw [if_neg hextent]
    have hloop := fills_buildMemRegionLoop hs (Nat.pos_of_ne_zero hextent)
      (sec.rawDataSize.toNat / 4096 + 2) 0 hround
    have hat : sec.pageAt 0 = sec.firstPage := rfl
    have hfirst : sec.firstPage = sec.rva.toNat / 4096 * 4096 := rfl
    exact hloop (by omega) w

/-- **The pages of a section.**  They are asked for in order, from the page of its first byte to the
page of its last one, each of them once; the first few if a request fails.  The raw data is at its
place, and everything else is zero. -/
theorem region_filled (c : Config) (sec : SectionInfo) (w : World) (hs : sec.Sane c) :
    ∃ r w' done, buildMemRegion c sec w = some (r, w') ∧ w'.calls = w.calls ++ done ∧
      (filled done).map Prod.fst <+: sec.addedPages ∧
      (r = 0 → (filled done).map Prod.fst = sec.addedPages) ∧ sec.addedPages.Nodup ∧
      ∀ p s, (p, s) ∈ filled done → sec.Right p s := by
  obtain ⟨r, w', hrun, done, hdone, hpre, hall, hright⟩ :=
    wp_false_iff.mp (fills_buildMemRegion hs w)
  refine ⟨r, w', done, hrun, hdone, hpre, hall, ?_, hright⟩
  rw [SectionInfo.addedPages]
  split
  · exact nodup_nil
  · exact nodup_range' 4096

/-- An environment in which every request succeeds. -/
def willing : Config where
  startAddr := 0x7f0000000000
  edmm := true
  useSeHw := true
  limit := 20480
  metaOffset := 0x1000
  fileSize := 0x8000
  answer := fun _ => 0

def World.blank : World := ⟨[], [], fun _ => 0⟩

/-- A page with data before and after a page boundary. -/
def straddling : SectionInfo := ⟨0, 10, 0xFFC, 0x1800, 3, none⟩

theorem region_filled_straddling :
    straddling.Sane willing ∧ straddling.addedPages = [0, 0x1000, 0x2000] ∧
      ∃ r w' done, buildMemRegion willing straddling World.blank = some (r, w') ∧
        w'.calls = [] ++ done ∧ (filled done).map Prod.fst <+: straddling.addedPages ∧
        (r = 0 → (filled done).map Prod.fst = straddling.addedPages) ∧
        straddling.addedPages.Nodup ∧ ∀ p s, (p, s) ∈ filled done → straddling.Right p s :=
  have hs : straddling.Sane willing := ⟨by decide, by decide⟩
  ⟨hs, by decide, region_filled willing straddling World.blank hs⟩

/-- A section without data, in the middle of a page, has no page. -/
theorem empty_section :
    (⟨0, 0, 1, 0, 3, none⟩ : SectionInfo).Sane willing ∧
      (⟨0, 0, 1, 0, 3, none⟩ : SectionInfo).pagesOf = [0] ∧
      (buildMemRegion willing ⟨0, 0, 1, 0, 3, none⟩ World.blank).map (fun p => (p.1, filled p.2.calls))
        = some (0, []) :=
  ⟨⟨by decide, by decide⟩, by decide, rfl⟩

end Region

end Loader
