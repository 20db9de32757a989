/-
The regions that `heap_init` (sbrk.c) and `rsrv_mem_init` (sgx_rsrv_mem_init.cpp) accept.

Both functions mean to refuse a region that runs over the end of the address space, and both
subtract the global that they are about to set instead of their argument.

* `rsrvMemInit` — as in the source; `heapInit` is that of the heap;
* `sbrk_bounded` — the heap in use never grows over `heap_size`, whatever the region;
* **`ends_exact_iff`** — the addresses that the allocators compute are the intended ones if the
  region ends below 2 ^ 64 and holds its minimal part, and only then.
-/
import LinuxSgx.ReservedMem.Vrd
import LinuxSgx.Tlibc.Sbrk

open Runs Option
open ReservedMem (wrap lastOf Vrd)

namespace Tlibc

/-- The globals that `rsrv_mem_init` sets. -/
structure Region where
  rsrvMemBase : ℕ
  rsrvMemSize : ℕ
  rsrvMemMinSize : ℕ
deriving DecidableEq, Repr

/-- `rsrv_mem_init`; `none` is `SGX_ERROR_UNEXPECTED`. -/
def rsrvMemInit (old : Region) (base size minSize : ℕ) : Option Region :=
  if base = 0 ∨ base % 4096 ≠ 0 then none
  else if size % 4096 ≠ 0 then none
  else if minSize % 4096 ≠ 0 then none
  -- the source takes the old `rsrv_mem_base` here
  else if size > 2 ^ 64 - 1 - old.rsrvMemBase then none
  else some ⟨base, size, minSize⟩

/-- The ends that `vrd_alloc_addr` computes, of the region and of the descriptors in it. -/
def Region.Exact (r : Region) : Prop :=
  wrap (lastOf r.rsrvMemBase r.rsrvMemSize + 1) = r.rsrvMemBase + r.rsrvMemSize ∧
    ∀ v : Vrd, r.rsrvMemBase ≤ v.startAddr →
      v.startAddr + v.size ≤ r.rsrvMemBase + r.rsrvMemSize → v.stop = v.startAddr + v.size

/-- A call of `sbrk`, with any argument. -/
def brk (c : Call) (s : State) : Option State :=
  if -2 ^ 63 ≤ c.n ∧ c.n < 2 ^ 63 then (sbrk c.answers c.n s).map Prod.fst else none

/-- The addresses that `sbrk` computes in a state, and those of `check_heap_dyn_range`. -/
def EndsExact (s : State) : Prop :=
  let h := s.heap
  let dynamicStart := (h.heapBase + h.heapMinSize) % 2 ^ 64
  (∀ used ≤ s.heapUsed, (h.heapBase + used) % 2 ^ 64 = h.heapBase + used) ∧
    dynamicStart = h.heapBase + h.heapMinSize ∧
    (dynamicStart + (h.heapSize + 2 ^ 64 - h.heapMinSize) % 2 ^ 64) % 2 ^ 64 =
      h.heapBase + h.heapSize

/-! ### The heap in use -/

def Bounded (h : Heap) (s : State) : Prop := s.heap = h ∧ s.heapUsed ≤ h.heapSize

variable {h : Heap} {a : Answers} {s s' : State} {r : State × Bool} {start k n : ℕ}

theorem Bounded.acceptPages {answers : ℕ → Bool} {i : ℕ} {es : List PageEvent} (hb : Bounded h s)
    (ha : acceptPages answers i es s = some s') : Bounded h s' := by
  induction es generalizing i s with
  | nil =>
    cases ha
    exact hb
  | cons e es ih =>
    rw [Tlibc.acceptPages] at ha
    split_ifs at ha
    exact ih (s := s.record e) hb ha

theorem Bounded.pageOperation (hb : Bounded h s)
    (hr : applyEpcPages a start k s = some r ∨ trimEpcPages a start k s = some r) :
    Bounded h r.1 := by
  simp only [applyEpcPages, trimEpcPages] at hr
  rcases hr with hr | hr
  all_goals
    split at hr
    · cases hr
      exact hb
    · split at hr
      · cases hr
        exact hb
      · obtain ⟨t, ht, rfl⟩ := map_eq_some_iff.mp hr
        exact hb.acceptPages ht

/-- A failed page operation takes the count back, a successful one leaves it. -/
theorem Bounded.result {x y : ℕ} (hr : Bounded h r.1) (hs : Bounded h s) :
    Bounded h (if r.2 then (r.1, x) else ({ r.1 with heapUsed := s.heapUsed }, y)).1 := by
  split
  · exact hr
  · exact ⟨hr.1, hs.2⟩

theorem sbrk_bounded (c : Call) (s s' : State) (hb : Bounded h s) (hs : brk c s = some s') :
    Bounded h s' := by
  rw [brk] at hs
  split_ifs at hs with hn
  obtain ⟨q, hq, rfl⟩ := map_eq_some_iff.mp hs
  rw [sbrk] at hq
  split_ifs at hq with hbase hneg
  · cases hq
    exact hb
  · have hless : s.heapUsed - c.n.natAbs ≤ h.heapSize := (Nat.sub_le _ _).trans hb.2
    simp only [shrink] at hq
    split_ifs at hq
    · cases hq
      exact hb
    · obtain ⟨r, hr, rfl⟩ := map_eq_some_iff.mp hq
      have ht : Bounded h { s with heapUsed := s.heapUsed - c.n.natAbs } := ⟨hb.1, hless⟩
      exact (ht.pageOperation (.inr hr)).result hb
    · cases hq
      exact ⟨hb.1, hless⟩
  · simp only [extend] at hq
    split_ifs at hq with hbig
    · cases hq
      exact hb
    all_goals
      have hfits : s.heapUsed + c.n.toNat ≤ h.heapSize := by
        rw [hb.1] at hbig
        omega
    · obtain ⟨r, hr, rfl⟩ := map_eq_some_iff.mp hq
      refine (Bounded.pageOperation ?_ (.inl hr)).result hb
      exact ⟨hb.1, hfits⟩
    · cases hq
      exact ⟨hb.1, hfits⟩

theorem run_bounded {calls : List Call} (hrun : run brk calls (init h) = some s) : Bounded h s :=
  invariant_of_run sbrk_bounded hrun ⟨rfl, Nat.zero_le _⟩

/-! ### Exact ends -/

theorem Bounded.endsExact (hb : Bounded h s) (hfits : h.heapBase + h.heapSize < 2 ^ 64)
    (hmin : h.heapMinSize ≤ h.heapSize) : EndsExact s := by
  obtain ⟨rfl, hused⟩ := hb
  refine ⟨fun used hle => Nat.mod_eq_of_lt (by omega), Nat.mod_eq_of_lt (by omega), ?_⟩
  omega

theorem Region.exact_iff (r : Region) (hpos : 0 < r.rsrvMemBase) :
    r.Exact ↔ r.rsrvMemBase + r.rsrvMemSize < 2 ^ 64 := by
  constructor
  · rintro ⟨hend, -⟩
    rw [← hend]
    exact Nat.mod_lt _ (by decide)
  · intro hfits
    refine ⟨?_, fun v _ hv => Nat.mod_eq_of_lt (by omega)⟩
    unfold lastOf wrap
    omega

/-- **Regions do not wrap, exactly under the condition that neither function checks.** -/
theorem ends_exact_iff (base size minSize : ℕ) :
    (∀ old edmm h, heapInit old base size minSize edmm = some h →
      ((h.heapBase + h.heapSize ≤ 2 ^ 64 ∧ h.heapMinSize ≤ h.heapSize ∧
          ∀ calls s, run brk calls (init h) = some s → EndsExact s) ↔
        base + size < 2 ^ 64 ∧ minSize ≤ size)) ∧
    ∀ old r, rsrvMemInit old base size minSize = some r →
      ((r.rsrvMemBase + r.rsrvMemSize ≤ 2 ^ 64 ∧ r.rsrvMemMinSize ≤ r.rsrvMemSize ∧ r.Exact) ↔
        base + size < 2 ^ 64 ∧ minSize ≤ size) := by
  constructor
  · intro old edmm h hinit
    rw [heapInit] at hinit
    split_ifs at hinit
    cases hinit
    constructor
    · rintro ⟨-, hmin, hends⟩
      obtain ⟨-, -, hend⟩ := hends [] _ rfl
      exact ⟨hend ▸ Nat.mod_lt _ (by decide), hmin⟩
    · rintro ⟨hfits, hmin⟩
      exact ⟨hfits.le, hmin, fun calls s hrun => (run_bounded hrun).endsExact hfits hmin⟩
  · intro old r hinit
    rw [rsrvMemInit] at hinit
    split_ifs at hinit with hbase
    cases hinit
    rw [Region.exact_iff _ (Nat.pos_of_ne_zero (not_or.mp hbase).1)]
    constructor
    · rintro ⟨-, hmin, hfits⟩
      exact ⟨hfits, hmin⟩
    · rintro ⟨hfits, hmin⟩
      exact ⟨hfits.le, hmin, hfits⟩

/-- Two pages at the last page of the address space, and a minimum above the size. -/
theorem accepted_over_the_end :
    heapInit ⟨0, 0, 0, false⟩ (2 ^ 64 - 4096) 8192 12288 true =
        some ⟨2 ^ 64 - 4096, 8192, 12288, true⟩ ∧
      rsrvMemInit ⟨0, 0, 0⟩ (2 ^ 64 - 4096) 8192 12288 = some ⟨2 ^ 64 - 4096, 8192, 12288⟩ ∧
      lastOf (2 ^ 64 - 4096) 8192 < 2 ^ 64 - 4096 := by
  decide

end Tlibc
