/-
Which pages the loader adds (`loader.cpp`).

`Adds ps w r w'` relates a state to the outcome of a step that adds the pages `ps` in this
order: all of them if it reports success, the first few otherwise.  Each way of adding
pages is specified by it, from `build_pages` up to `build_contexts`.

* **`added_exact`** — the pages that are added for a validated table are exactly those
  of its entries if and only if no content is larger than its entry; then none is added
  twice.
* `added_twice` — a larger content runs over into the next entry.
-/
import LinuxSgx.Loader.Sections

namespace Loader

open Prog List

/-! ### Steps that add pages -/

/-- The pages that were asked for, in order. -/
def added (calls : List Call) : List ℕ :=
  calls.filterMap fun
    | .addEnclavePage rva _ _ _ => some rva.toNat
    | _ => none

theorem map_filled (calls : List Call) : (filled calls).map Prod.fst = added calls := by
  rw [filled, added, map_filterMap]
  congr 1
  funext call
  cases call <;> rfl

/-- A step that adds the pages `ps`, whatever they are filled with. -/
abbrev Adds : List ℕ → World → Int → World → Prop := Fills fun _ _ => True

theorem spec_buildPages {c : Config} {source : Source} {flags : UInt64} {attr : UInt16}
    {rva size : UInt64} {n : ℕ} (hsize : size.toNat = n * 4096)
    (hrva : rva.toNat + 4096 * n < 2 ^ 64) (w : World) :
    wp False (buildPages c rva size source flags attr)
      (Adds (List.range' rva.toNat n 4096) w) w := by
  rw [buildPages, show (size.toNat + 4095) / 4096 = n by omega]
  exact fills_buildPagesLoop n rva hrva (fun _ _ => trivial) w

/-! ### Entries -/

namespace LayoutEntry

/-- The pages of an entry. -/
def pages (e : LayoutEntry) : List ℕ := List.range' e.start e.pageCount.toNat 4096

/-- Whether the loader adds pages for an entry. -/
def isAdded (e : LayoutEntry) : Bool :=
  hasAttr e pageAttrEadd ∧ (e.contentOffset ≠ 0 ∨ e.siFlags ≠ siFlagNone)

/-- How many pages are added: those of a content are counted by its size. -/
def addedCount (e : LayoutEntry) : ℕ :=
  if e.contentOffset ≠ 0 ∧ e.siFlags ≠ siFlagsTcs then
    max ((e.contentSize.toNat + 4095) / 4096) e.pageCount.toNat
  else e.pageCount.toNat

/-- The pages that are added for an entry. -/
def addedPages (e : LayoutEntry) : List ℕ :=
  if e.isAdded then List.range' e.start e.addedCount 4096 else []

/-- A content that is built page by page is not larger than its entry. -/
def ContentFits (e : LayoutEntry) : Prop :=
  hasAttr e pageAttrEadd = true → e.contentOffset ≠ 0 → e.siFlags ≠ siFlagsTcs →
    e.contentSize.toNat ≤ e.pageCount.toNat * 4096

theorem pageCount_le_addedCount (e : LayoutEntry) : e.pageCount.toNat ≤ e.addedCount := by
  unfold addedCount
  split
  · exact le_max_right _ _
  · exact le_rfl

theorem contentFits_iff {e : LayoutEntry} :
    e.ContentFits ↔ (e.isAdded = true → e.addedCount = e.pageCount.toNat) := by
  unfold ContentFits addedCount
  constructor
  · intro h hadded
    split
    · rename_i hc
      have hadd : hasAttr e pageAttrEadd = true := by
        simp only [isAdded, decide_eq_true_eq] at hadded
        exact hadded.1
      have := h hadd hc.1 hc.2
      omega
    · rfl
  · intro h hadd hoff htcs
    have := h (by simp [isAdded, hadd, hoff])
    rw [if_pos ⟨hoff, htcs⟩] at this
    omega

theorem mem_pages {e : LayoutEntry} {p : ℕ} :
    p ∈ e.pages ↔ ∃ i < e.pageCount.toNat, p = e.start + 4096 * i :=
  mem_range'

/-- Pages of entries that are apart are different. -/
theorem Apart.disjoint_pages {e f : LayoutEntry} (h : e.Apart f) : e.pages.Disjoint f.pages := by
  intro p hp hp'
  obtain ⟨i, hi, rfl⟩ := mem_pages.mp hp
  obtain ⟨j, hj, heq⟩ := mem_pages.mp hp'
  simp only [Apart, start, stop] at h heq
  omega

end LayoutEntry

section Entries

open LayoutEntry

variable {c : Config} {m : Metadata} {e : LayoutEntry} {w : World}

/-- The list of threads plays no part in which pages are added. -/
theorem wp_listTcs {Q : Unit → World → Prop} {rva : UInt64}
    (h : ∀ threads, Q () { w with tcsList := threads }) : wp False (listTcs c rva e) Q w := by
  rw [listTcs, wp_ite]
  exact ⟨fun _ => h _, fun _ => h _⟩

theorem wp_listDynamicTcs {Q : Unit → World → Prop} {rva : UInt64}
    (h : ∀ threads, Q () { w with tcsList := threads }) :
    wp False (listDynamicTcs c rva e) Q w := by
  rw [listDynamicTcs, wp_ite]
  exact ⟨fun _ => h _, fun _ => h _⟩

theorem spec_buildTcs (hcontent : e.contentOffset.toNat + e.contentSize.toNat ≤ c.limit)
    (hstop : e.stop < 2 ^ 64) : wp False (buildTcs c e.rva e) (Adds e.pages w) w := by
  rw [stop] at hstop
  simp only [buildTcs, wp_bind]
  rw [wp_touch (by split <;> omega)]
  refine wp_listTcs fun threads => ?_
  exact wp_mono (spec_buildPages (toNat_bytes e) (by omega) _) fun _ _ hr => hr

/-- A section that starts at a page takes the pages of its bytes. -/
theorem addedPages_of_aligned {sec : SectionInfo} (halign : 4096 ∣ sec.rva.toNat) :
    sec.addedPages = List.range' sec.rva.toNat ((sec.extent + 4095) / 4096) 4096 := by
  rw [SectionInfo.addedPages, SectionInfo.pagesOf, SectionInfo.lastPage, SectionInfo.firstPage,
    Nat.div_mul_cancel halign]
  split
  · rename_i hempty
    rw [hempty]
    rfl
  · congr 1
    omega

/-- A region from its content takes as many pages as the larger of the two sizes. -/
theorem spec_buildRegion (hcontent : e.contentOffset.toNat + e.contentSize.toNat ≤ c.limit)
    (halign : 4096 ∣ e.start) (hstop : e.stop ≤ 2 ^ 63) :
    wp False (buildRegion c e.rva e) (Adds (List.range' e.start
      (max ((e.contentSize.toNat + 4095) / 4096) e.pageCount.toNat) 4096) w) w := by
  have hlt := e.contentSize.toNat_lt
  have hraw : e.contentSize.toUInt64.toNat = e.contentSize.toNat := UInt32.toNat_toUInt64 _
  rw [stop, ← start] at hstop
  -- the section that is built for the content
  obtain ⟨sec, hsec⟩ : ∃ sec : SectionInfo, sec =
    ⟨e.contentOffset.toNat, e.contentSize.toUInt64, e.rva, e.bytes, e.siFlags, none⟩ := ⟨_, rfl⟩
  have hstart : sec.rva.toNat = e.start := by rw [hsec, start]
  have hextent : sec.extent = max e.contentSize.toNat (e.pageCount.toNat * 4096) := by
    rw [hsec, SectionInfo.extent, hraw, toNat_bytes e]
  have hsane : sec.Sane c := by
    refine ⟨by rwa [hsec, hraw], ?_⟩
    rw [hstart, hextent]
    omega
  have hpages : sec.addedPages = List.range' e.start
      (max ((e.contentSize.toNat + 4095) / 4096) e.pageCount.toNat) 4096 := by
    rw [addedPages_of_aligned (hstart.symm ▸ halign), hstart, hextent]
    congr 1
    omega
  rw [buildRegion, ← hsec, ← hpages]
  exact wp_mono (fills_buildMemRegion hsane w) fun _ _ hr => hr.mono fun _ _ _ => trivial

/-- The pages an entry adds while the enclave is built. -/
theorem spec_eaddContext (hlimit : m.size.toNat ≤ c.limit) (hcontent : e.HasContent m)
    (halign : 4096 ∣ e.start) (hstop : e.stop ≤ 2 ^ 63) :
    wp False (eaddContext c e.rva e) (Adds e.addedPages w) w := by
  have hstop' : e.stop < 2 ^ 64 := lt_of_le_of_lt hstop (by decide)
  rw [eaddContext, addedPages]
  by_cases hadd : hasAttr e pageAttrEadd = true
  · rw [if_pos hadd]
    by_cases hoff : e.contentOffset ≠ 0
    · have hadded : e.isAdded = true := by simp [isAdded, hadd, hoff]
      have hbuf := isMetadataBuffer_iff.mp (hcontent hoff)
      have hlim : e.contentOffset.toNat + e.contentSize.toNat ≤ c.limit := by omega
      rw [if_pos hoff, hadded, if_pos rfl, addedCount]
      by_cases htcs : e.siFlags = siFlagsTcs
      · rw [if_pos htcs, if_neg fun h => h.2 htcs]
        exact spec_buildTcs hlim hstop'
      · rw [if_neg htcs, if_pos ⟨hoff, htcs⟩]
        exact spec_buildRegion hlim halign hstop
    · rw [if_neg hoff]
      by_cases hflags : e.siFlags ≠ siFlagNone
      · have hadded : e.isAdded = true := by simp [isAdded, hadd, hflags]
        rw [if_pos hflags, hadded, if_pos rfl, addedCount, if_neg fun h => hoff h.1]
        rw [stop] at hstop'
        exact spec_buildPages (toNat_bytes e) (by omega) w
      · -- a guard page
        have hadded : e.isAdded = false := by
          rw [not_not] at hoff hflags
          simp [isAdded, hoff, hflags]
        rw [if_neg hflags, hadded]
        exact Fills.nil rfl
  · have hadded : e.isAdded = false := by simp [isAdded, hadd]
    rw [if_neg hadd, hadded]
    exact Fills.nil rfl

theorem spec_buildContext (hlimit : m.size.toNat ≤ c.limit) (hcontent : e.HasContent m)
    (halign : 4096 ∣ e.start) (hstop : e.stop ≤ 2 ^ 63) (w : World) :
    wp False (buildContext c 0 e) (Adds e.addedPages w) w := by
  rw [buildContext, UInt64.zero_add, ← append_nil e.addedPages]
  refine fills_andThen (spec_eaddContext hlimit hcontent halign hstop) fun w' => ?_
  rw [wp_bind]
  exact wp_listDynamicTcs fun threads => Fills.nil rfl

end Entries

/-! ### The whole table -/

section Table

open LayoutEntry

variable {m : Metadata} {l : List LayoutEntry}

theorem length_flatMap_pages_le (l : List LayoutEntry) :
    ((l.filter isAdded).flatMap pages).length ≤ (l.flatMap addedPages).length := by
  induction l with
  | nil => exact le_rfl
  | cons e l ih =>
    have hle := e.pageCount_le_addedCount
    rw [flatMap_cons, addedPages, filter_cons]
    split
    · rw [flatMap_cons, length_append, length_append, pages, length_range', length_range']
      omega
    · exact ih

/-- The pages that are added are those of the entries if and only if every content fits. -/
theorem flatMap_addedPages_iff (l : List LayoutEntry) :
    l.flatMap addedPages = (l.filter isAdded).flatMap pages ↔ ∀ e ∈ l, e.ContentFits := by
  induction l with
  | nil => simp
  | cons e l ih =>
    rw [forall_mem_cons, ← ih, contentFits_iff, flatMap_cons, addedPages, filter_cons]
    split
    · rename_i he
      rw [flatMap_cons, pages]
      constructor
      · intro h
        -- neither part is shorter than its counterpart
        have hlen := congrArg length h
        rw [length_append, length_append, length_range', length_range'] at hlen
        have hle := e.pageCount_le_addedCount
        have hle' := length_flatMap_pages_le l
        have hcount : e.addedCount = e.pageCount.toNat := by omega
        rw [hcount] at h
        exact ⟨fun _ => hcount, append_cancel_left h⟩
      · rintro ⟨hcount, hl⟩
        rw [hcount he, hl]
    · rename_i he
      exact ⟨fun h => ⟨fun h' => absurd h' he, h⟩, And.right⟩

theorem Fits.nodup_pages (h : Fits m l) : ((l.filter isAdded).flatMap pages).Nodup := by
  rw [nodup_flatMap]
  refine ⟨fun e _ => nodup_range' 4096, ?_⟩
  exact (h.apart.filter _).imp fun he => he.disjoint_pages

theorem Fits.pages_inside (h : Fits m l) {p : ℕ} (hp : p ∈ (l.filter isAdded).flatMap pages) :
    4096 ∣ p ∧ p + 4096 ≤ m.enclaveSize.toNat := by
  obtain ⟨e, he, hp⟩ := mem_flatMap.mp hp
  have hmem := (mem_filter.mp he).1
  have halign := h.aligned e hmem
  have hin := (h.inside e hmem).2
  obtain ⟨i, hi, rfl⟩ := mem_pages.mp hp
  rw [stop, ← start] at hin
  omega

end Table

/-- **The pages of a validated table.**  Building the contexts adds exactly the pages of
the entries that have some if and only if no content is larger than its entry.  And then,
also if it fails on the way, the pages that were added are among them, in order, inside the
enclave, and none twice. -/
theorem added_exact (maxSize : UInt64) (m : Metadata) (h : validateMetadata maxSize m = true)
    (c : Config) (hlimit : m.size.toNat ≤ c.limit) (w : World) :
    ∃ l r w' done, placeTable m [] m.layouts = some l ∧
      buildContexts c (listed m.layouts) m.layouts.length w = some (r, w') ∧
      w'.calls = w.calls ++ done ∧
      (r = 0 → (added done = (l.filter LayoutEntry.isAdded).flatMap LayoutEntry.pages ↔
        ∀ e, .entry e ∈ m.layouts → e.ContentFits)) ∧
      ((∀ e, .entry e ∈ m.layouts → e.ContentFits) →
        added done <+: (l.filter LayoutEntry.isAdded).flatMap LayoutEntry.pages ∧
        (added done).Nodup ∧ ∀ p ∈ added done, 4096 ∣ p ∧ p + 4096 ≤ m.enclaveSize.toNat) := by
  obtain ⟨l, hl, hplaced⟩ :=
    fits_of_validateLayoutTable (validateLayoutTable_of_validateMetadata h)
  have hsize := enclaveSize_le_of_validateMetadata h
  have hcontent : (∀ e ∈ l, e.ContentFits) ↔ ∀ e, .entry e ∈ m.layouts → e.ContentFits :=
    ⟨fun hfits e he => hfits e (mem_of_placeTable hl e he),
      forall_placeTable (fun _ _ he => he) hl⟩
  have hbuild := fills_tryAll l (fun e he w => spec_buildContext hlimit (hplaced.content e he)
    (hplaced.aligned e he) ((hplaced.inside e he).2.trans hsize) w) w
  rw [← walk_listed (buildContext_shift c) hl] at hbuild
  obtain ⟨r, w', hrun, done, hdone, hpre, hall, -⟩ := wp_false_iff.mp hbuild
  rw [map_filled] at hpre hall
  refine ⟨l, r, w', done, hl, hrun, hdone, fun hr => ?_, fun hfits => ?_⟩
  · rw [hall hr, flatMap_addedPages_iff, hcontent]
  · rw [(flatMap_addedPages_iff l).mpr (hcontent.mpr hfits)] at hpre
    exact ⟨hpre, hplaced.nodup_pages.sublist hpre.sublist,
      fun p hp => hplaced.pages_inside (hpre.subset hp)⟩

theorem added_exact_threads :
    validateMetadata 0x1000000000 threadTable = true ∧
      ∃ l r w' done, placeTable threadTable [] threadTable.layouts = some l ∧
        buildContexts willing (listed threadTable.layouts) threadTable.layouts.length World.blank
          = some (r, w') ∧ r = 0 ∧ w'.calls = [] ++ done ∧
        added done = (l.filter LayoutEntry.isAdded).flatMap LayoutEntry.pages ∧
        (added done).Nodup := by
  have hvalid : validateMetadata 0x1000000000 threadTable = true := by decide +kernel
  have hfits : ∀ e, .entry e ∈ threadTable.layouts → e.ContentFits := by
    intro e he
    simp only [threadTable, mem_cons, Layout.entry.injEq, not_mem_nil, or_false,
      reduceCtorEq] at he
    rcases he with rfl | rfl
    · exact fun _ h => absurd rfl h
    · exact fun _ _ h => absurd rfl h
  have hzero : (buildContexts willing (listed threadTable.layouts) threadTable.layouts.length
      World.blank).map Prod.fst = some 0 := by decide +kernel
  obtain ⟨l, r, w', done, hl, hrun, hdone, hiff, hrest⟩ :=
    added_exact 0x1000000000 threadTable hvalid willing le_rfl World.blank
  rw [hrun] at hzero
  have hr : r = 0 := Option.some.inj hzero
  exact ⟨hvalid, l, r, w', done, hl, hrun, hr, hdone, (hiff hr).mpr hfits, (hrest hfits).2.1⟩

/-- A content of two pages in an entry of one page, with another entry right after it. -/
def overfullTable : Metadata :=
  { threadTable with
    layouts := [.entry ⟨3, 3, 1, 0x10000, 8192, 1984, 0x203⟩, .entry ⟨1, 3, 1, 0x11000, 0, 0, 0x203⟩]
    layoutDir := ⟨1888, 64⟩ }

set_option maxRecDepth 100000 in
/-- The metadata is accepted, and the second page is added twice. -/
theorem added_twice :
    validateMetadata 0x1000000000 overfullTable = true ∧
      (buildContexts willing (listed overfullTable.layouts) overfullTable.layouts.length
        World.blank).map (fun p => (p.1, added p.2.calls)) = some (0, [0x10000, 0x11000, 0x11000]) := by
  decide +kernel

end Loader
