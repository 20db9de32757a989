/-
The table of the dynamic segment (`parse_dyn`).

The loop reads the entries from the start of the first `PT_DYNAMIC` segment on, until one has the tag
`DT_NULL`; it does not look at the size of the segment.  An entry is stored at the index of its tag,
where the array has room for `DT_ADDRNUM` tags of the addresses only, of the 255 there can be.

* `DynSafe` — the loop ends, reads the segment only and stores what it should;
* `TableEnds` — when that is so;
* **`dyn_safe_iff`** — for every file;
* `dyn_outside` — a table without an end, and an entry behind the array.
-/
import LinuxSgx.Parser.Elf

open Option

namespace Elf

variable {m : Memory} {n fuel i : ℕ} {a : UInt64} {p : Phdr} {info : DynInfo}
  {r : DynInfo × List UInt64}

/-- The first `PT_DYNAMIC` segment. -/
def Memory.dynamic (m : Memory) : Option Phdr := m.phdrs.find? fun p => p.type = ptDynamic

/-- What is at an index afterwards: an entry that was read and belongs there, or, if there is none, what
was there before. -/
def StoredAt (m : Memory) (reads : List UInt64) (old new : DynInfo) (i : ℕ) : Prop :=
  (∃ a ∈ reads, (m.dyn a).tag ≠ 0 ∧ dynIndex (m.dyn a).tag = some i ∧ i < dtNum + dtAddrNum ∧
    new i = m.dyn a) ∨
  new i = old i ∧ ∀ a ∈ reads, (m.dyn a).tag ≠ 0 → dynIndex (m.dyn a).tag ≠ some i

/-- The loop ends, the entries it reads lie in the segment, and every one is stored in the array, at the
index of its tag, or ignored. -/
def DynSafe (m : Memory) : Prop :=
  ∃ fuel r, parseDyn m fuel = some r ∧ ∀ p, m.dynamic = some p →
    (∀ a ∈ r.2, p.offset ≤ a ∧ a.toNat + 16 ≤ p.offset.toNat + p.filesz.toNat) ∧
    ∀ info, r.1 = some info → ∀ i, StoredAt m r.2 (fun _ => ⟨0, 0⟩) info i

/-- A tag that does not end the table and has an index in the array, if it has one at all. -/
def Storable (tag : UInt64) : Prop :=
  tag ≠ 0 ∧ ¬(dtAddrRngLo < tag.toNat ∧ tag.toNat + dtAddrNum ≤ dtAddrRngHi)

/-- The entry `n` is the first with `DT_NULL`, and those before can be stored. -/
def TableEnds (m : Memory) (a : UInt64) (n : ℕ) : Prop :=
  (m.dyn (a + 16 * UInt64.ofNat n)).tag = 0 ∧
    ∀ i < n, Storable (m.dyn (a + 16 * UInt64.ofNat i)).tag

/-! ### The entries -/

/-- The addresses of the first entries. -/
def addrs (a : UInt64) (n : ℕ) : List UInt64 := (List.range n).map fun i => a + 16 * UInt64.ofNat i

theorem addr_toNat (a : UInt64) (i : ℕ) :
    (a + 16 * UInt64.ofNat i).toNat = (a.toNat + 16 * i) % 2 ^ 64 := by
  rw [UInt64.toNat_add, UInt64.toNat_mul, UInt64.toNat_ofNat', show UInt64.toNat 16 = 16 from rfl]
  omega

theorem addr_succ (a : UInt64) (i : ℕ) :
    a + 16 * UInt64.ofNat (i + 1) = a + 16 + 16 * UInt64.ofNat i := by
  rw [← UInt64.toNat_inj, addr_toNat, addr_toNat, UInt64.toNat_add,
    show UInt64.toNat 16 = 16 from rfl]
  omega

theorem addrs_succ (a : UInt64) (n : ℕ) : addrs a (n + 1) = a :: addrs (a + 16) n := by
  simp only [addrs, List.range_succ_eq_map, List.map_cons, List.map_map]
  refine congrArg₂ _ (by simp) (List.map_congr_left fun i _ => addr_succ a i)

theorem tableEnds_zero : TableEnds m a 0 ↔ (m.dyn a).tag = 0 := by
  simp [TableEnds]

theorem tableEnds_succ :
    TableEnds m a (n + 1) ↔ Storable (m.dyn a).tag ∧ TableEnds m (a + 16) n := by
  simp only [TableEnds, Nat.forall_lt_succ_left, addr_succ]
  rw [show a + 16 * UInt64.ofNat 0 = a by simp]
  exact and_left_comm

/-- The addresses repeat, so an end that is reached is not far. -/
theorem TableEnds.lt (h : TableEnds m a n) : n < 2 ^ 60 := by
  by_contra hn
  have hsame : a + 16 * UInt64.ofNat (n - 2 ^ 60) = a + 16 * UInt64.ofNat n := by
    rw [← UInt64.toNat_inj, addr_toNat, addr_toNat]
    omega
  have := h.2 (n - 2 ^ 60) (by omega)
  rw [hsame] at this
  exact this.1 h.1

theorem TableEnds.unique {k : ℕ} (h : TableEnds m a n) (h' : TableEnds m a k) : n = k := by
  rcases lt_trichotomy n k with hlt | heq | hlt
  · exact absurd h.1 (h'.2 n hlt).1
  · exact heq
  · exact absurd h'.1 (h.2 k hlt).1

theorem storable_iff {tag : UInt64} (h : tag ≠ 0) :
    Storable tag ↔ ∀ i, dynIndex tag = some i → i < dtNum + dtAddrNum := by
  rw [Storable, and_iff_right h, dynIndex, dtNum, dtAddrNum, dtAddrRngLo, dtAddrRngHi]
  split_ifs with hnum hrange
  · simp only [some.injEq, forall_eq']
    omega
  · simp only [some.injEq, forall_eq']
    omega
  · simp only [false_imp_iff, implies_true, iff_true]
    omega

/-! ### The loop -/

/-- A round that is not the last one. -/
theorem parseDynLoop_next (n : ℕ) (info : DynInfo) (h : Storable (m.dyn a).tag) :
    ∃ new, parseDynLoop m (n + 1) a info =
        (parseDynLoop m n (a + 16) new).map (fun r => (r.1, a :: r.2)) ∧
      ∀ i, new i = if dynIndex (m.dyn a).tag = some i then m.dyn a else info i := by
  rw [parseDynLoop]
  simp only [h.1, if_false]
  cases hindex : dynIndex (m.dyn a).tag with
  | none => exact ⟨info, rfl, by simp⟩
  | some j =>
    refine ⟨Function.update info j (m.dyn a), ?_, ?_⟩
    · simp only [if_pos ((storable_iff h.1).mp h j hindex)]
    · intro i
      simp only [Function.update_apply, some.injEq, eq_comm]

/-- What a round needs. -/
theorem storable_of_parseDynLoop (h : parseDynLoop m fuel a info = some r)
    (htag : (m.dyn a).tag ≠ 0) : Storable (m.dyn a).tag := by
  cases fuel with
  | zero => cases h
  | succ n =>
    rw [storable_iff htag]
    intro j hindex
    rw [parseDynLoop] at h
    simp only [htag, if_false, hindex] at h
    by_contra hj
    rw [if_neg hj] at h
    cases h

/-- If the loop ends, it has read the entries up to the end of the table, and stored them. -/
theorem parseDynLoop_eq_some (h : parseDynLoop m fuel a info = some r) :
    ∃ n, TableEnds m a n ∧ r.2 = addrs a (n + 1) ∧ ∀ i, StoredAt m r.2 info r.1 i := by
  induction fuel generalizing a info r with
  | zero => cases h
  | succ k ih =>
    by_cases htag : (m.dyn a).tag = 0
    · rw [parseDynLoop] at h
      simp only [htag, if_true, some.injEq] at h
      subst h
      refine ⟨0, tableEnds_zero.mpr htag, by rw [addrs_succ]; rfl, fun i => .inr ⟨rfl, ?_⟩⟩
      simp [htag]
    · have hstorable := storable_of_parseDynLoop h htag
      obtain ⟨new, hnext, hnew⟩ := parseDynLoop_next k info hstorable
      rw [hnext, map_eq_some_iff] at h
      obtain ⟨s, hs, rfl⟩ := h
      obtain ⟨n, hends, hreads, hstored⟩ := ih hs
      refine ⟨n + 1, tableEnds_succ.mpr ⟨hstorable, hends⟩, ?_, ?_⟩
      · rw [addrs_succ, ← hreads]
      · intro i
        rcases hstored i with ⟨b, hb, hrest⟩ | ⟨hsame, hnone⟩
        · exact .inl ⟨b, List.mem_cons_of_mem _ hb, hrest⟩
        · rw [hnew] at hsame
          split_ifs at hsame with hi
          · exact .inl ⟨a, List.mem_cons_self, htag, hi, (storable_iff htag).mp hstorable i hi, hsame⟩
          · exact .inr ⟨hsame, List.forall_mem_cons.mpr ⟨fun _ => hi, hnone⟩⟩

theorem TableEnds.parseDynLoop (h : TableEnds m a n) (info : DynInfo) :
    ∃ r, parseDynLoop m (n + 1) a info = some r := by
  induction n generalizing a info with
  | zero =>
    rw [Elf.parseDynLoop]
    simp [tableEnds_zero.mp h]
  | succ n ih =>
    obtain ⟨hstorable, hends⟩ := tableEnds_succ.mp h
    obtain ⟨new, hnext, -⟩ := parseDynLoop_next (n + 1) info hstorable
    obtain ⟨r, hr⟩ := ih hends new
    exact ⟨_, by rw [hnext, hr]; rfl⟩

/-! ### The table -/

/-- The entries up to `n` lie in the segment exactly if the last one does and none wraps around. -/
theorem reads_within_iff (hn : n < 2 ^ 60) :
    (∀ b ∈ addrs p.offset (n + 1), p.offset ≤ b ∧
      b.toNat + 16 ≤ p.offset.toNat + p.filesz.toNat) ↔
    16 * (n + 1) ≤ p.filesz.toNat ∧ p.offset.toNat + 16 * n < 2 ^ 64 := by
  simp only [addrs, List.forall_mem_map, List.mem_range, UInt64.le_iff_toNat_le, addr_toNat]
  have hoffset := p.offset.toNat_lt
  constructor
  · intro h
    have := h n (Nat.lt_succ_self n)
    omega
  · intro h i hi
    omega

/-- **The dynamic table.**  `parse_dyn` reads nothing but the segment, ends and stores every entry in the
array, exactly if the segment has an entry with `DT_NULL` and the tags before it have a place. -/
theorem dyn_safe_iff (m : Memory) :
    DynSafe m ↔ ∀ p, m.dynamic = some p → ∃ n, TableEnds m p.offset n ∧
      16 * (n + 1) ≤ p.filesz.toNat ∧ p.offset.toNat + 16 * n < 2 ^ 64 := by
  cases hp : m.dynamic with
  | none =>
    have hnone : ∀ fuel, parseDyn m fuel = some (none, []) := by
      intro fuel
      rw [parseDyn, show m.phdrs.find? _ = none from hp]
    exact iff_of_true ⟨0, _, hnone 0, by simp [hp]⟩ (by simp)
  | some p =>
    have hparse : ∀ fuel, parseDyn m fuel = (parseDynLoop m fuel p.offset fun _ => ⟨0, 0⟩).map
        fun r => (if (m.dyn p.offset).tag = 0 then none else some r.1, r.2) := by
      intro fuel
      rw [parseDyn, show m.phdrs.find? _ = some p from hp]
    simp only [some.injEq, forall_eq']
    constructor
    · rintro ⟨fuel, r, hr, hsafe⟩
      rw [hparse, map_eq_some_iff] at hr
      obtain ⟨s, hs, rfl⟩ := hr
      obtain ⟨n, hends, hreads, -⟩ := parseDynLoop_eq_some hs
      have hwithin := (hsafe p hp).1
      simp only [hreads] at hwithin
      exact ⟨n, hends, (reads_within_iff hends.lt).mp hwithin⟩
    · rintro ⟨n, hends, hfits⟩
      obtain ⟨r, hr⟩ := hends.parseDynLoop fun _ => ⟨0, 0⟩
      obtain ⟨k, hends', hreads, hstored⟩ := parseDynLoop_eq_some hr
      refine ⟨n + 1, _, by rw [hparse, hr]; rfl, ?_⟩
      intro q hq
      obtain rfl : p = q := some.inj (hp.symm.trans hq)
      simp only [hreads, hends'.unique hends] at hstored ⊢
      refine ⟨(reads_within_iff hends.lt).mpr hfits, ?_⟩
      intro info hinfo
      split_ifs at hinfo with htag
      exact some.inj hinfo ▸ hstored

/-- A file whose dynamic segment has one entry. -/
def dynTable (tag : ℕ) : Memory :=
  fields (smallEnclave 1 ++ phdrFields 0 ⟨ptDynamic, 4, 0x300, 0, 16, 16, 8⟩ ++ [(0x300, 8, tag)])

/-- Segments that are accepted: one of a single entry, behind which the loop reads on, and one with a tag
whose index is far behind the array. -/
theorem dyn_outside :
    (∃ (m : Memory) (p : Phdr) (a : UInt64),
      validateSegment 0x1000 m.phdrs [] ∧ m.dynamic = some p ∧
      ((parseDyn m 2).any fun r => a ∈ r.2) ∧ p.offset.toNat + p.filesz.toNat ≤ a.toNat) ∧
    ∃ (m : Memory) (p : Phdr), validateSegment 0x1000 m.phdrs [] ∧ m.dynamic = some p ∧
      dynIndex (m.dyn p.offset).tag = some 279 := by
  refine ⟨⟨dynTable 22, ⟨ptDynamic, 4, 0x300, 0, 16, 16, 8⟩, 0x310, ?_⟩, dynTable 0x6ffffe01,
    ⟨ptDynamic, 4, 0x300, 0, 16, 16, 8⟩, ?_⟩
  all_goals decide +kernel

end Elf
