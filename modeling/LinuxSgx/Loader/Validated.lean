/-
What validation establishes (`loader.cpp`).

The checks of `validate_metadata` work with sums in 32 and 64 bits.  Here they are
read as statements about numbers:

* `Fits` — the entries that a table expands to are page-aligned, inside the enclave and
  pairwise disjoint, and their contents lie in the metadata;
* **`fits_of_validateLayoutTable`** — an accepted table expands to such entries.
-/
import LinuxSgx.Loader.Metadata

namespace Loader

open List Option

variable {m : Metadata}

/-! ### Bounds -/

section Bounds

theorem isMetadataBuffer_iff {offset size : UInt32} :
    isMetadataBuffer m offset size = true ↔
      1888 ≤ offset.toNat ∧ offset.toNat < m.size.toNat ∧
        offset.toNat + size.toNat ≤ m.size.toNat := by
  have h₁ := offset.toNat_lt
  have h₂ := size.toNat_lt
  have h₃ := m.size.toNat_lt
  have hdata : dataOffset.toNat = 1888 := rfl
  simp only [isMetadataBuffer, GT.gt, GE.ge, UInt32.lt_iff_toNat_lt, UInt32.le_iff_toNat_le,
    UInt32.toNat_add, hdata]
  split
  · simp only [Bool.false_eq_true, false_iff]
    omega
  · simp only [decide_eq_true_eq]
    omega

theorem isEnclaveBuffer_iff {offset size : UInt64} :
    isEnclaveBuffer m offset size = true ↔
      offset.toNat < m.enclaveSize.toNat ∧
        offset.toNat + size.toNat ≤ m.enclaveSize.toNat := by
  have h₁ := offset.toNat_lt
  have h₂ := size.toNat_lt
  have h₃ := m.enclaveSize.toNat_lt
  simp only [isEnclaveBuffer, GT.gt, GE.ge, UInt64.lt_iff_toNat_lt, UInt64.le_iff_toNat_le,
    UInt64.toNat_add]
  split
  · simp only [Bool.false_eq_true, false_iff]
    omega
  · simp only [decide_eq_true_eq]
    omega

theorem pageAligned_iff {a : UInt64} : a &&& 0xFFF = 0 ↔ 4096 ∣ a.toNat := by
  rw [← UInt64.toNat_inj, UInt64.toNat_and]
  show a.toNat &&& (2 ^ 12 - 1) = 0 ↔ _
  rw [Nat.and_two_pow_sub_one_eq_mod]
  exact (Nat.dvd_iff_mod_eq_zero).symm

end Bounds

/-! ### Sorted ranges -/

section Ranges

theorem inside_of_checkRanges :
    ∀ {l : List (UInt64 × UInt64)}, checkRanges m l = true → ∀ p ∈ l,
      4096 ∣ p.1.toNat ∧ p.1.toNat < m.enclaveSize.toNat ∧
        p.1.toNat + p.2.toNat ≤ m.enclaveSize.toNat := by
  intro l
  induction l with
  | nil =>
    intro _ p hp
    cases hp
  | cons q l ih =>
    intro h p hp
    simp only [checkRanges, Bool.and_eq_true, decide_eq_true_eq, pageAligned_iff,
      isEnclaveBuffer_iff] at h
    obtain ⟨⟨⟨halign, hin⟩, _⟩, hl⟩ := h
    rcases mem_cons.mp hp with rfl | hp
    · exact ⟨halign, hin⟩
    · exact ih hl p hp

/-- Only neighbours are compared, but the sums do not wrap, so that the order carries
over the whole vector. -/
theorem pairwise_of_checkRanges :
    ∀ {l : List (UInt64 × UInt64)}, checkRanges m l = true →
      l.Pairwise fun p q => p.1.toNat + p.2.toNat ≤ q.1.toNat := by
  intro l
  induction l with
  | nil =>
    intro _
    exact List.Pairwise.nil
  | cons p l ih =>
    intro h
    have hin := inside_of_checkRanges h p mem_cons_self
    simp only [checkRanges, Bool.and_eq_true] at h
    obtain ⟨⟨_, hnext⟩, hl⟩ := h
    have hpair := ih hl
    refine pairwise_cons.mpr ⟨?_, hpair⟩
    cases l with
    | nil =>
      intro q hq
      cases hq
    | cons p' l =>
      simp only [fitsBefore, decide_eq_true_eq, GT.gt, UInt64.lt_iff_toNat_lt,
        UInt64.toNat_add] at hnext
      have hbound := m.enclaveSize.toNat_lt
      intro q hq
      rcases mem_cons.mp hq with rfl | hq
      · omega
      · have hlater := rel_of_pairwise_cons hpair hq
        omega

end Ranges

/-! ### The expanded table -/

namespace LayoutEntry

/-- The bytes of an entry are those from `start` to `stop`. -/
def start (e : LayoutEntry) : ℕ := e.rva.toNat
def stop (e : LayoutEntry) : ℕ := e.rva.toNat + e.pageCount.toNat * 4096

/-- No byte is in both entries. -/
def Apart (e f : LayoutEntry) : Prop := e.stop ≤ f.start ∨ f.stop ≤ e.start

/-- The content of an entry, if it has one, lies in the metadata. -/
def HasContent (m : Metadata) (e : LayoutEntry) : Prop :=
  e.contentOffset ≠ 0 → isMetadataBuffer m e.contentOffset e.contentSize = true

end LayoutEntry

open LayoutEntry

/-- Entries as validation leaves them. -/
structure Fits (m : Metadata) (l : List LayoutEntry) : Prop where
  aligned : ∀ e ∈ l, 4096 ∣ e.start
  inside : ∀ e ∈ l, e.start < m.enclaveSize.toNat ∧ e.stop ≤ m.enclaveSize.toNat
  apart : l.Pairwise Apart
  content : ∀ e ∈ l, e.HasContent m

section Expansion

variable {P : LayoutEntry → Prop}

variable {range : List Layout}

theorem forall_placeEntries (hP : ∀ e step, P e → P (e.shift step)) {step : UInt64} :
    ∀ {l : List LayoutEntry}, placeEntries step range = some l →
      (∀ e, .entry e ∈ range → P e) → ∀ e ∈ l, P e := by
  induction range with
  | nil =>
    intro l hl _ e he
    cases hl
    cases he
  | cons x range ih =>
    intro l hl hrange e he
    cases x with
    | group g => cases hl
    | entry f =>
      obtain ⟨l', hl', rfl⟩ := map_eq_some_iff.mp hl
      rcases mem_cons.mp he with rfl | he
      · exact hP f step (hrange f mem_cons_self)
      · exact ih hl' (fun e he => hrange e (mem_cons_of_mem _ he)) e he

theorem forall_placeGroup (hP : ∀ e step, P e → P (e.shift step)) {g : LayoutGroup} (n : ℕ) :
    ∀ {step : UInt64} {l : List LayoutEntry}, placeGroup m g range n step = some l →
      (∀ e, .entry e ∈ range → P e) → ∀ e ∈ l, P e := by
  induction n with
  | zero =>
    intro step l hl _ e he
    cases hl
    cases he
  | succ n ih =>
    intro step l hl hrange e he
    rw [placeGroup] at hl
    split at hl
    · cases hl
    · simp only [bind_eq_bind, bind_eq_some_iff] at hl
      obtain ⟨now, hnow, later, hlater, hl⟩ := hl
      cases hl
      rcases mem_append.mp he with he | he
      · exact forall_placeEntries hP hnow hrange e he
      · exact ih hlater hrange e he

variable {rest : List Layout}

/-- What holds of the entries of a table, wherever they are loaded, holds of the entries
that it expands to. -/
theorem forall_placeTable (hP : ∀ e step, P e → P (e.shift step)) :
    ∀ {pre : List Layout} {l : List LayoutEntry}, placeTable m pre rest = some l →
      (∀ e, .entry e ∈ pre ++ rest → P e) → ∀ e ∈ l, P e := by
  induction rest with
  | nil =>
    intro pre l hl _ e he
    cases hl
    cases he
  | cons x rest ih =>
    intro pre l hl htable e he
    have hrest : ∀ e, .entry e ∈ (pre ++ [x]) ++ rest → P e := by
      rwa [List.append_assoc, singleton_append]
    cases x with
    | entry f =>
      rw [placeTable] at hl
      split at hl
      · cases hl
      obtain ⟨l', hl', rfl⟩ := map_eq_some_iff.mp hl
      rcases mem_cons.mp he with rfl | he
      · exact htable e (by simp)
      · exact ih hl' hrest e he
    | group g =>
      rw [placeTable] at hl
      split at hl
      · cases hl
      simp only [bind_eq_bind, bind_eq_some_iff] at hl
      obtain ⟨now, hnow, later, hlater, hl⟩ := hl
      cases hl
      rcases mem_append.mp he with he | he
      · refine forall_placeGroup hP _ hnow (fun e' he' => htable e' ?_) e he
        exact mem_append_left _ (mem_of_mem_drop he')
      · exact ih hlater hrest e he

/-- Every entry of the table is one of those that it expands to. -/
theorem mem_of_placeTable :
    ∀ {pre : List Layout} {l : List LayoutEntry}, placeTable m pre rest = some l →
      ∀ e, .entry e ∈ rest → e ∈ l := by
  induction rest with
  | nil =>
    intro pre l _ e he
    cases he
  | cons x rest ih =>
    intro pre l hl e he
    cases x with
    | entry f =>
      rw [placeTable] at hl
      split at hl
      · cases hl
      obtain ⟨l', hl', rfl⟩ := map_eq_some_iff.mp hl
      rcases mem_cons.mp he with he | he
      · cases he
        exact mem_cons_self
      · exact mem_cons_of_mem _ (ih hl' e he)
    | group g =>
      rw [placeTable] at hl
      split at hl
      · cases hl
      simp only [bind_eq_bind, bind_eq_some_iff] at hl
      obtain ⟨now, _, later, hlater, hl⟩ := hl
      cases hl
      rcases mem_cons.mp he with he | he
      · cases he
      · exact mem_append_right _ (ih hlater e he)

/-- The validator looks at the content of every entry it passes. -/
theorem hasContent_of_placeTable :
    ∀ {pre : List Layout} {l : List LayoutEntry}, placeTable m pre rest = some l →
      ∀ e, .entry e ∈ rest → e.HasContent m := by
  induction rest with
  | nil =>
    intro pre l _ e he
    cases he
  | cons x rest ih =>
    intro pre l hl e he
    cases x with
    | entry f =>
      rw [placeTable] at hl
      split at hl
      · cases hl
      rename_i hf
      obtain ⟨l', hl', _⟩ := map_eq_some_iff.mp hl
      rcases mem_cons.mp he with he | he
      · cases he
        intro h0
        simpa [h0] using hf
      · exact ih hl' e he
    | group g =>
      rw [placeTable] at hl
      split at hl
      · cases hl
      simp only [bind_eq_bind, bind_eq_some_iff] at hl
      obtain ⟨_, _, later, hlater, _⟩ := hl
      rcases mem_cons.mp he with he | he
      · cases he
      · exact ih hlater e he

end Expansion

/-- **An accepted table** expands to entries that fit. -/
theorem fits_of_validateLayoutTable (h : validateLayoutTable m = true) :
    ∃ l, placeTable m [] m.layouts = some l ∧ Fits m l := by
  rw [validateLayoutTable] at h
  split at h
  · cases h
  rename_i l hl
  refine ⟨l, hl, ?_⟩
  have hperm : ((ranges l).insertionSort pairLe).Perm (ranges l) := perm_insertionSort _ _
  have hin : ∀ e ∈ l, _ := fun e he => inside_of_checkRanges h (e.rva, e.bytes)
    (hperm.mem_iff.mpr (List.mem_map_of_mem he))
  simp only [toNat_bytes] at hin
  refine ⟨fun e he => (hin e he).1, fun e he => (hin e he).2, ?_,
    forall_placeTable (fun _ _ he => he) hl (hasContent_of_placeTable hl)⟩
  -- in the sorted vector one range ends before the next; in any order they are apart
  have hpair : ((ranges l).insertionSort pairLe).Pairwise fun p q =>
      p.1.toNat + p.2.toNat ≤ q.1.toNat ∨ q.1.toNat + q.2.toNat ≤ p.1.toNat :=
    (pairwise_of_checkRanges h).imp .inl
  rw [hperm.pairwise_iff Or.symm, ranges, pairwise_map] at hpair
  simp only [toNat_bytes] at hpair
  exact hpair

theorem validateLayoutTable_of_validateMetadata {maxSize : UInt64}
    (h : validateMetadata maxSize m = true) : validateLayoutTable m = true := by
  simp only [validateMetadata, decide_eq_true_eq] at h
  exact h.2.2.2.2.2.2.2.2.1

/-- A number of which the loop leaves `1` is a power of two. -/
theorem exists_two_pow_of_oddPart (n : ℕ) :
    ∀ {a : UInt64}, oddPart n a = 1 → ∃ k, a.toNat = 2 ^ k := by
  induction n with
  | zero =>
    intro a ha
    exact ⟨0, congrArg UInt64.toNat ha⟩
  | succ n ih =>
    intro a ha
    have hbit : (a &&& 1).toNat = a.toNat % 2 := by
      exact Nat.and_one_is_mod _
    rw [oddPart] at ha
    split at ha
    · rename_i hodd
      obtain ⟨k, hk⟩ := ih ha
      have hhalf : a.toNat >>> 1 = 2 ^ k := hk
      have heven : a.toNat % 2 ≠ 1 := fun h1 => hodd.2 (UInt64.toNat_inj.mp (hbit.trans h1))
      refine ⟨k + 1, ?_⟩
      rw [pow_succ, ← hhalf, Nat.shiftRight_eq_div_pow]
      omega
    · exact ⟨0, congrArg UInt64.toNat ha⟩

theorem enclaveSize_le_of_validateMetadata {maxSize : UInt64}
    (h : validateMetadata maxSize m = true) : m.enclaveSize.toNat ≤ 2 ^ 63 := by
  simp only [validateMetadata, decide_eq_true_eq] at h
  obtain ⟨k, hk⟩ := exists_two_pow_of_oddPart 64 h.2.2.2.2.2.1
  have hlt := m.enclaveSize.toNat_lt
  rw [hk] at hlt ⊢
  have hk63 := (Nat.pow_lt_pow_iff_right (by decide)).mp hlt
  exact Nat.pow_le_pow_right (by decide) (by omega)

/-- What the other checks of accepted metadata say. -/
theorem dirs_of_validateMetadata {maxSize : UInt64} (h : validateMetadata maxSize m = true) :
    isMetadataBuffer m m.patchDir.offset m.patchDir.size = true ∧
      isMetadataBuffer m m.layoutDir.offset m.layoutDir.size = true ∧
      ∀ p ∈ m.patches, isMetadataBuffer m p.src p.size = true ∧
        isEnclaveBuffer m p.dst p.size.toUInt64 = true := by
  simp only [validateMetadata, decide_eq_true_eq] at h
  obtain ⟨_, _, _, _, _, _, hpatch, hlayout, _, hpatches⟩ := h
  refine ⟨hpatch, hlayout, fun p hp => ?_⟩
  simpa using List.all_eq_true.mp hpatches p hp

/-- The table ends inside the metadata, also if its last entry is not whole. -/
def DataDirectory.Ends (d : DataDirectory) (m : Metadata) : Prop := d.entryAt d.count ≤ m.size.toNat

theorem DataDirectory.ends_iff {d : DataDirectory}
    (hbuf : isMetadataBuffer m d.offset d.size = true) :
    d.Ends m ↔ ∀ i < d.count, d.entryAt i + entrySize ≤ m.size.toNat := by
  obtain ⟨_, hlt, _⟩ := isMetadataBuffer_iff.mp hbuf
  unfold Ends entryAt entrySize
  constructor
  · intro h i hi
    omega
  · intro h
    rcases Nat.eq_zero_or_pos d.count with h0 | hpos
    · omega
    · have := h (d.count - 1) (by omega)
      omega

end Loader
