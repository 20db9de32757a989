/-
The trusted heap (sbrk.c) and the pages behind it (trts_add_trim.cpp).

With EDMM the enclave starts with the first `heap_min_size` bytes of the heap; `sbrk` accepts
the pages above when the heap grows and trims them when it shrinks.

* `heapInit`, `sbrk`, `applyEpcPages`, `trimEpcPages` — as in the source, in the build without
  assertions (buildenv.mk defines `NDEBUG`).  `none` is `abort()`, which ends the enclave;
* `PageEvent.step` — a page can be accepted if it is not there and trimmed if it is;
* `Inv` — what holds between two calls, and `Inv.step`;
* **`heap_accounting`** — all of it over every sequence of calls in which the host confirms
  the trimming of pages;
* **`trimmed_but_used`** — if it does not, a failed call leaves a heap without its last pages.

Design notes: addresses and sizes are natural numbers below 2 ^ 64, with the wrap-around
written out.  `live` is not in the code: the bytes that callers got and did not give back.
-/
import LinuxSgx.Lib.Runs
import Mathlib.Algebra.Order.Ring.Int
import Mathlib.Data.List.Nodup
import Mathlib.Data.List.Range

open Runs List Option Function

namespace Tlibc

/-! ### The model -/

/-- What happens to a page of the heap at run time. -/
inductive PageEvent where
  | accept (page : ℕ)
  | trim (page : ℕ)
deriving DecidableEq, Repr

/-- The pages of the enclave after an event; a page cannot be accepted or trimmed twice. -/
def PageEvent.step : PageEvent → (ℕ → Bool) → Option (ℕ → Bool)
  | .accept p, m => if m p then none else some (update m p true)
  | .trim p, m => if m p then some (update m p false) else none

/-- The static variables that `heap_init` sets. -/
structure Heap where
  heapBase : ℕ
  heapSize : ℕ
  heapMinSize : ℕ
  isEdmmSupported : Bool
deriving DecidableEq, Repr

structure State where
  heap : Heap
  heapUsed : ℕ
  peakHeapUsed : ℕ
  /-- The pages that are part of the enclave, by their address. -/
  committed : ℕ → Bool
  log : List PageEvent
  live : ℕ → Bool

/-- The answers of the processor and of the host during one call. -/
structure Answers where
  eaccept : ℕ → Bool
  trimCommit : ℕ → Bool
  /-- The range is in another dynamic entry of the layout table, which may grow down. -/
  elsewhere : Option Bool

/-- `(void *)(~(size_t)0)`. -/
def failed : ℕ := 2 ^ 64 - 1

/-- `heap_init`; `none` is `SGX_ERROR_UNEXPECTED`. -/
def heapInit (old : Heap) (base size minSize : ℕ) (edmm : Bool) : Option Heap :=
  if old.heapBase ≠ 0 then none
  else if base = 0 ∨ base % 4096 ≠ 0 then none
  else if size % 4096 ≠ 0 then none
  else if minSize % 4096 ≠ 0 then none
  -- the source takes the old `heap_base` here, which is null
  else if size > 2 ^ 64 - 1 - old.heapBase then none
  else some ⟨base, size, minSize, edmm⟩

/-- `check_heap_dyn_range`. -/
def checkHeapDynRange (h : Heap) (addr pageCount : ℕ) : Bool :=
  let start := (h.heapBase + h.heapMinSize) % 2 ^ 64
  let size := (h.heapSize + 2 ^ 64 - h.heapMinSize) % 2 ^ 64
  start ≤ addr ∧ (addr + pageCount * 4096) % 2 ^ 64 ≤ (start + size) % 2 ^ 64

/-- `check_dynamic_range`: whether the range grows down, if it is a dynamic one. -/
def checkDynamicRange (h : Heap) (elsewhere : Option Bool) (addr pageCount : ℕ) : Option Bool :=
  if addr > 2 ^ 64 - 1 - pageCount * 4096 % 2 ^ 64 then none
  else if checkHeapDynRange h addr pageCount then some false
  else elsewhere

/-- The effect of an event that the processor let happen. -/
def State.record (s : State) (e : PageEvent) : State :=
  { s with
    committed :=
      match e with
      | .accept p => update s.committed p true
      | .trim p => update s.committed p false
    log := s.log ++ [e] }

/-- The loops of `sgx_accept_forward` and `sgx_accept_backward`: one EACCEPT for each page, and
`abort()` at the first that fails. -/
def acceptPages (answers : ℕ → Bool) : ℕ → List PageEvent → State → Option State
  | _, [], s => some s
  | i, e :: l, s => if answers i then acceptPages answers (i + 1) l (s.record e) else none

/-- `apply_EPC_pages`; the second part of the result is `rc == 0`. -/
def applyEpcPages (a : Answers) (start pageCount : ℕ) (s : State) : Option (State × Bool) :=
  if start = 0 then some (s, false)
  else
    match checkDynamicRange s.heap a.elsewhere start pageCount with
    | none => some (s, false)
    | some growsDown =>
      let pages := List.range' start pageCount 4096
      (acceptPages a.eaccept 0
        ((if growsDown then pages else pages.reverse).map PageEvent.accept) s).map (·, true)

/-- `trim_EPC_pages`.  The result of `trim_range_ocall` goes into an assertion only; what the
function returns is the result of the last `trim_range_commit_ocall`. -/
def trimEpcPages (a : Answers) (start pageCount : ℕ) (s : State) : Option (State × Bool) :=
  if start = 0 then some (s, false)
  else
    match checkDynamicRange s.heap a.elsewhere start pageCount with
    | none => some (s, false)
    | some _ =>
      let pages := List.range' start pageCount 4096
      (acceptPages a.eaccept 0 (pages.map PageEvent.trim) s).map
        (·, (List.range pageCount).foldl (fun _ i => a.trimCommit i) true)

/-- The part above `heap_min_size` of the heap between `low` and `high`, as `sbrk` computes it:
`size` is the argument of the call. -/
def dynamicPart (h : Heap) (low high size : ℕ) : ℕ × ℕ :=
  if low > h.heapMinSize then ((h.heapBase + low) % 2 ^ 64, size)
  else ((h.heapBase + h.heapMinSize) % 2 ^ 64, high - h.heapMinSize)

/-- `sbrk` with a negative argument. -/
def shrink (a : Answers) (n : ℕ) (s : State) : Option (State × ℕ) :=
  if s.heapUsed < n then some (s, failed)
  else
    let used := s.heapUsed - n
    let heapPtr := (s.heap.heapBase + used) % 2 ^ 64
    if s.heap.isEdmmSupported ∧ s.heapUsed > s.heap.heapMinSize then
      let part := dynamicPart s.heap used s.heapUsed n
      (trimEpcPages a part.1 (part.2 / 4096) { s with heapUsed := used }).map fun r =>
        if r.2 then (r.1, heapPtr) else ({ r.1 with heapUsed := s.heapUsed }, failed)
    else some ({ s with heapUsed := used }, heapPtr)

/-- `sbrk` with an argument that is not negative. -/
def extend (a : Answers) (n : ℕ) (s : State) : Option (State × ℕ) :=
  if s.heapUsed > 2 ^ 64 - 1 - n ∨ (s.heapUsed + n) % 2 ^ 64 > s.heap.heapSize then some (s, failed)
  else
    let used := s.heapUsed + n
    let heapPtr := (s.heap.heapBase + s.heapUsed) % 2 ^ 64
    let grown := { s with heapUsed := used, peakHeapUsed := max s.peakHeapUsed used }
    if s.heap.isEdmmSupported ∧ used > s.heap.heapMinSize then
      let part := dynamicPart s.heap s.heapUsed used n
      (applyEpcPages a part.1 (part.2 / 4096) grown).map fun r =>
        if r.2 then (r.1, heapPtr) else ({ r.1 with heapUsed := s.heapUsed }, failed)
    else some (grown, heapPtr)

/-- `sbrk`; `-n` is the size of what a caller gives back. -/
def sbrk (a : Answers) (n : ℤ) (s : State) : Option (State × ℕ) :=
  if s.heap.heapBase = 0 then some (s, failed)
  else if n < 0 then shrink a n.natAbs s
  else extend a n.toNat s

/-! ### Sequences of calls -/

structure Call where
  n : ℤ
  answers : Answers

/-- The bytes that callers have, after a call that returned `r`. -/
def liveAfter (n : ℤ) (r : ℕ) (live : ℕ → Bool) : ℕ → Bool :=
  if r = failed then live
  else if n < 0 then fun x => live x && !(r ≤ x ∧ x < r + n.natAbs : Bool)
  else fun x => live x || (r ≤ x ∧ x < r + n.toNat : Bool)

/-- A call by a program whose argument is a multiple of the page size. -/
def step (c : Call) (s : State) : Option State :=
  if 4096 ∣ c.n ∧ -2 ^ 63 ≤ c.n ∧ c.n < 2 ^ 63 then
    (sbrk c.answers c.n s).map fun r => { r.1 with live := liveAfter c.n r.2 s.live }
  else none

/-- The pages that are there when the enclave has been loaded. -/
def initialPages (h : Heap) (p : ℕ) : Bool :=
  p % 4096 = 0 ∧ h.heapBase ≤ p ∧
    p < h.heapBase + if h.isEdmmSupported then h.heapMinSize else h.heapSize

def init (h : Heap) : State where
  heap := h
  heapUsed := 0
  peakHeapUsed := 0
  committed := initialPages h
  log := []
  live := fun _ => false

/-- The heap that `heap_init` accepts, with the two conditions it does not check. -/
structure Heap.Ok (h : Heap) : Prop where
  base_pos : 0 < h.heapBase
  base_aligned : h.heapBase % 4096 = 0
  size_aligned : h.heapSize % 4096 = 0
  min_aligned : h.heapMinSize % 4096 = 0
  min_le : h.heapMinSize ≤ h.heapSize
  fits : h.heapBase + h.heapSize < 2 ^ 64

theorem ok_of_heapInit {old h : Heap} {base size minSize : ℕ} {edmm : Bool}
    (hinit : heapInit old base size minSize edmm = some h) (hmin : minSize ≤ size)
    (hfits : base + size < 2 ^ 64) : h.Ok := by
  rw [heapInit] at hinit
  split_ifs at hinit with hold hbase hsize hminal hbig
  cases hinit
  rw [not_or, not_not] at hbase
  exact ⟨Nat.pos_of_ne_zero hbase.1, hbase.2, not_not.mp hsize, not_not.mp hminal, hmin, hfits⟩

variable {a : Answers} {h : Heap} {s s' : State} {ps : List ℕ} {es : List PageEvent}
  {start k i n : ℕ} {m : ℕ → Bool}

/-! ### Pages -/

theorem mem_pages {p : ℕ} (hstart : start % 4096 = 0) :
    p ∈ List.range' start k 4096 ↔ p % 4096 = 0 ∧ start ≤ p ∧ p < start + 4096 * k := by
  rw [mem_range']
  constructor
  · rintro ⟨i, hi, rfl⟩
    omega
  · rintro ⟨hp, hle, hlt⟩
    exact ⟨(p - start) / 4096, by omega, by omega⟩

/-- The event that makes a page part of the enclave (`b = true`) or removes it. -/
def PageEvent.of (b : Bool) : ℕ → PageEvent := if b then .accept else .trim

theorem PageEvent.step_of {b : Bool} {q : ℕ} (hq : m q = !b) :
    (PageEvent.of b q).step m = some (update m q b) := by
  cases b with
  | false => exact if_pos hq
  | true => exact if_neg (by rw [hq]; decide)

/-- Pages that are not there can be accepted, and pages that are there trimmed, in any order. -/
theorem run_pages {b : Bool} (hps : ps.Nodup) (hm : ∀ p ∈ ps, m p = !b) :
    run PageEvent.step (ps.map (PageEvent.of b)) m = some fun p => if p ∈ ps then b else m p := by
  induction ps generalizing m with
  | nil => simp [run]
  | cons q ps ih =>
    obtain ⟨hq, hps⟩ := nodup_cons.mp hps
    have hm' : ∀ p ∈ ps, update m q b p = !b := by
      intro p hp
      rw [update_of_ne (by rintro rfl; exact hq hp)]
      exact hm p (mem_cons_of_mem q hp)
    rw [map_cons, run_cons]
    refine ⟨_, PageEvent.step_of (hm q mem_cons_self), ?_⟩
    rw [ih hps hm']
    congr 1
    funext p
    by_cases hp : p = q
    · subst hp
      simp [hq]
    · simp [hp]

theorem acceptPages_eq {answers : ℕ → Bool} (h : acceptPages answers i es s = some s') :
    s' = es.foldl State.record s := by
  induction es generalizing i s with
  | nil =>
    cases h
    rfl
  | cons e es ih =>
    rw [acceptPages] at h
    split_ifs at h
    exact ih h

/-- The log and the pages go together. -/
theorem record_committed {m' : ℕ → Bool} (hrun : run PageEvent.step es s.committed = some m') :
    es.foldl State.record s = { s with committed := m', log := s.log ++ es } := by
  induction es generalizing s with
  | nil =>
    cases hrun
    rw [append_nil]
    rfl
  | cons e es ih =>
    obtain ⟨m₁, he, hrun⟩ := run_cons.mp hrun
    have hm₁ : (s.record e).committed = m₁ := by
      cases e with
      | accept p | trim p =>
        rw [PageEvent.step] at he
        split_ifs at he
        exact some_inj.mp he
    rw [foldl_cons, ih (s := s.record e) (by rw [hm₁]; exact hrun)]
    simp [State.record]

/-! ### The two page operations inside the heap -/

variable {high low : ℕ}

/-- `sbrk` takes the part of `[low, high)` above `heap_min_size`. -/
theorem dynamicPart_eq (hok : h.Ok) (hsum : low + n = high) (hle : high ≤ h.heapSize) :
    dynamicPart h low high n =
      (h.heapBase + max low h.heapMinSize, high - max low h.heapMinSize) := by
  have hmin := hok.min_le
  have hfits := hok.fits
  rw [dynamicPart]
  by_cases hgt : low > h.heapMinSize
  · rw [if_pos hgt, Nat.mod_eq_of_lt (by omega), Nat.max_eq_left (Nat.le_of_lt hgt)]
    exact Prod.ext rfl (by dsimp only; omega)
  · rw [if_neg hgt, Nat.mod_eq_of_lt (by omega), Nat.max_eq_right (Nat.le_of_not_lt hgt)]

/-- The part is in the dynamic part of the heap, whatever the layout table says. -/
theorem checkDynamicRange_eq {e : Option Bool} (hok : h.Ok) (hlow : low ≤ high)
    (hhigh : high ≤ h.heapSize) :
    checkDynamicRange h e (h.heapBase + max low h.heapMinSize)
      ((high - max low h.heapMinSize) / 4096) = some false := by
  have hmin := hok.min_le
  have hfits := hok.fits
  have hrange : checkHeapDynRange h (h.heapBase + max low h.heapMinSize)
      ((high - max low h.heapMinSize) / 4096) = true := by
    simp only [checkHeapDynRange, decide_eq_true_eq]
    omega
  rw [checkDynamicRange, if_neg (by omega), if_pos hrange]

/-- The pages of the part. -/
def dynamicPages (h : Heap) (low high : ℕ) : List ℕ :=
  List.range' (h.heapBase + max low h.heapMinSize) ((high - max low h.heapMinSize) / 4096) 4096

theorem nodup_dynamicPages : (dynamicPages h low high).Nodup := nodup_range' 4096

theorem foldl_last (f : ℕ → Bool) : ∀ k,
    (List.range k).foldl (fun _ i => f i) true = if k = 0 then true else f (k - 1)
  | 0 => rfl
  | k + 1 => by
    rw [range_succ, foldl_append]
    rfl

variable {r : State × Bool}

theorem applyEpcPages_eq (hok : s.heap.Ok) (hlow : low ≤ high) (hhigh : high ≤ s.heap.heapSize)
    (hcall : applyEpcPages a (s.heap.heapBase + max low s.heap.heapMinSize)
      ((high - max low s.heap.heapMinSize) / 4096) s = some r) :
    r = (((dynamicPages s.heap low high).reverse.map (PageEvent.of true)).foldl State.record s,
      true) := by
  have hpos := hok.base_pos
  rw [applyEpcPages, if_neg (by omega), checkDynamicRange_eq hok hlow hhigh] at hcall
  obtain ⟨s₁, hs₁, rfl⟩ := map_eq_some_iff.mp hcall
  exact Prod.ext (acceptPages_eq hs₁) rfl

theorem trimEpcPages_eq (hok : s.heap.Ok) (hlow : low ≤ high) (hhigh : high ≤ s.heap.heapSize)
    (hcall : trimEpcPages a (s.heap.heapBase + max low s.heap.heapMinSize) k s = some r)
    (hk : k = (high - max low s.heap.heapMinSize) / 4096) :
    r = (((dynamicPages s.heap low high).map (PageEvent.of false)).foldl State.record s,
      if k = 0 then true else a.trimCommit (k - 1)) := by
  subst hk
  have hpos := hok.base_pos
  rw [trimEpcPages, if_neg (by omega), checkDynamicRange_eq hok hlow hhigh] at hcall
  obtain ⟨s₁, hs₁, rfl⟩ := map_eq_some_iff.mp hcall
  exact Prod.ext (acceptPages_eq hs₁) (foldl_last _ _)

/-! ### The invariant -/

/-- The size of the heap that has pages when `used` bytes are in use. -/
def backedSize (h : Heap) (used : ℕ) : ℕ :=
  if h.isEdmmSupported then max used h.heapMinSize else h.heapSize

/-- The pages are those of the first `backedSize` bytes, and the log is how they got there. -/
structure Backed (h : Heap) (used : ℕ) (pages : ℕ → Bool) (log : List PageEvent) : Prop where
  mem_iff : ∀ p, pages p = true ↔
    p % 4096 = 0 ∧ h.heapBase ≤ p ∧ p < h.heapBase + backedSize h used
  history : run PageEvent.step log (initialPages h) = some pages

/-- What holds between two calls. -/
structure Inv (h : Heap) (s : State) : Prop where
  heap : s.heap = h
  used_le : s.heapUsed ≤ h.heapSize
  used_aligned : s.heapUsed % 4096 = 0
  backed : Backed h s.heapUsed s.committed s.log
  live : ∀ x, s.live x = true ↔ h.heapBase ≤ x ∧ x < h.heapBase + s.heapUsed

theorem Inv.init : Inv h (init h) where
  heap := rfl
  used_le := Nat.zero_le _
  used_aligned := rfl
  backed := by
    refine ⟨fun p => ?_, rfl⟩
    have hsize : backedSize h 0 = if h.isEdmmSupported then h.heapMinSize else h.heapSize := by
      rw [backedSize, Nat.max_eq_right (Nat.zero_le _)]
    show initialPages h p = true ↔ _ ∧ _ ∧ p < h.heapBase + backedSize h 0
    rw [initialPages, decide_eq_true_eq, hsize]
  live := by
    intro x
    show false = true ↔ _ ∧ x < h.heapBase + 0
    constructor
    · intro hx
      cases hx
    · rintro ⟨h₁, h₂⟩
      omega

variable {x : ℕ}

theorem backedSize_mono {y : ℕ} (hxy : x ≤ y) : backedSize h x ≤ backedSize h y := by
  rw [backedSize, backedSize]
  split
  · omega
  · exact Nat.le_refl _

/-- The pages between two sizes of the heap, the smaller one first. -/
def PagesBetween (h : Heap) (ps : List ℕ) (low high : ℕ) : Prop :=
  ∀ p, p ∈ ps ↔ p % 4096 = 0 ∧ h.heapBase + backedSize h low ≤ p ∧
    p < h.heapBase + backedSize h high

variable {log : List PageEvent} {used used' : ℕ}

/-- The pages between the old size and the new one are accepted, or trimmed. -/
theorem Backed.pages {b : Bool} (hb : Backed h (bif b then low else high) m log) (hps : ps.Nodup)
    (hmem : PagesBetween h ps low high) (hle : low ≤ high) :
    run PageEvent.step (ps.map (PageEvent.of b)) m = some (fun p => if p ∈ ps then b else m p) ∧
      Backed h (bif b then high else low) (fun p => if p ∈ ps then b else m p)
        (log ++ ps.map (PageEvent.of b)) := by
  have hsize := backedSize_mono (h := h) hle
  have hm : ∀ p ∈ ps, m p = !b := by
    intro p hp
    have hp := (hmem p).mp hp
    rw [Bool.eq_iff_iff, hb.mem_iff]
    cases b with
    | true | false => simp; omega
  have hrun := run_pages hps hm
  refine ⟨hrun, fun p => ?_, run_append.mpr ⟨m, hb.history, hrun⟩⟩
  split_ifs with hin
  · have hp := (hmem p).mp hin
    cases b with
    | true | false => simp; omega
  · have hp := (not_congr (hmem p)).mp hin
    rw [hb.mem_iff]
    cases b with
    | true | false => simp; omega

/-! ### One call -/

/-- A call that fails changes nothing that a later call depends on; a call that succeeds moves
the end of the heap by `n`. -/
inductive Outcome (h : Heap) (s : State) (n : ℤ) (s' : State) (r : ℕ) : Prop
  | unchanged (hr : r = failed) (hheap : s'.heap = s.heap) (hused : s'.heapUsed = s.heapUsed)
      (hpages : s'.committed = s.committed) (hlog : s'.log = s.log)
  | moved (hheap : s'.heap = h) (hused : (s'.heapUsed : ℤ) = s.heapUsed + n)
      (hle : s'.heapUsed ≤ h.heapSize) (hr : r = h.heapBase + min s.heapUsed s'.heapUsed)
      (hbacked : Backed h s'.heapUsed s'.committed s'.log)

theorem backedSize_edmm (hedmm : h.isEdmmSupported = true) :
    backedSize h used = max used h.heapMinSize := if_pos hedmm

/-- Without new pages: there is no EDMM, or the end of the heap stays in its minimal part. -/
theorem Backed.same (hb : Backed h used m log)
    (hsame : ¬(h.isEdmmSupported ∧ max used used' > h.heapMinSize)) : Backed h used' m log := by
  have hsize : backedSize h used' = backedSize h used := by
    rw [backedSize, backedSize]
    split
    · rename_i hedmm
      have : ¬max used used' > h.heapMinSize := fun hgt => hsame ⟨hedmm, hgt⟩
      omega
    · rfl
  exact ⟨by rw [hsize]; exact hb.mem_iff, hb.history⟩

theorem pagesBetween_dynamicPages (hok : h.Ok) (hedmm : h.isEdmmSupported = true)
    (hlow : low % 4096 = 0) (hhigh : high % 4096 = 0) (hmin : h.heapMinSize < high)
    (hle : low ≤ high) :
    PagesBetween h (dynamicPages h low high) low high := by
  intro p
  have hb := hok.base_aligned
  have hm := hok.min_aligned
  rw [dynamicPages, mem_pages (by omega), backedSize_edmm hedmm, backedSize_edmm hedmm]
  omega

theorem PagesBetween.reverse (h' : PagesBetween h ps low high) :
    PagesBetween h ps.reverse low high :=
  fun p => mem_reverse.trans (h' p)

variable {r : ℕ}

theorem extend_spec (hinv : Inv h s) (hok : h.Ok) (hn : n % 4096 = 0) (hlt : n < 2 ^ 63)
    (hcall : extend a n s = some (s', r)) : Outcome h s n s' r := by
  obtain ⟨rfl, hle, hal, hbacked, -⟩ := hinv
  have hfits := hok.fits
  have hptr : (s.heap.heapBase + s.heapUsed) % 2 ^ 64 =
      s.heap.heapBase + min s.heapUsed (s.heapUsed + n) := by
    rw [Nat.min_eq_left (Nat.le_add_right _ _)]
    exact Nat.mod_eq_of_lt (by omega)
  simp only [extend, hptr] at hcall
  split_ifs at hcall with hbig hedmm
  · cases hcall
    exact .unchanged rfl rfl rfl rfl rfl
  · have hsum : s.heapUsed + n ≤ s.heap.heapSize := by omega
    have hmore := Nat.le_add_right s.heapUsed n
    rw [dynamicPart_eq hok rfl hsum] at hcall
    obtain ⟨⟨s₁, ok⟩, happly, hres⟩ := map_eq_some_iff.mp hcall
    cases applyEpcPages_eq (s := { s with
      heapUsed := s.heapUsed + n
      peakHeapUsed := max s.peakHeapUsed (s.heapUsed + n) }) hok hmore hsum happly
    cases hres
    obtain ⟨hrun, hbacked'⟩ := hbacked.pages (b := true) (nodup_reverse.mpr nodup_dynamicPages)
      (pagesBetween_dynamicPages hok hedmm.1 hal (by omega) hedmm.2 hmore).reverse hmore
    rw [record_committed (s := { s with
      heapUsed := s.heapUsed + n
      peakHeapUsed := max s.peakHeapUsed (s.heapUsed + n) }) hrun]
    exact .moved rfl rfl hsum rfl hbacked'
  · have hsum : s.heapUsed + n ≤ s.heap.heapSize := by omega
    cases hcall
    refine .moved rfl rfl hsum rfl (hbacked.same ?_)
    rw [Nat.max_eq_right (Nat.le_add_right _ _)]
    exact hedmm

/-- The host confirms that it removed the last of the pages that a call gives back. -/
def Proper (s : State) (c : Call) : Prop :=
  c.n < 0 → c.answers.trimCommit
    ((dynamicPart s.heap (s.heapUsed - c.n.natAbs) s.heapUsed c.n.natAbs).2 / 4096 - 1)

instance (s : State) (c : Call) : Decidable (Proper s c) := by
  unfold Proper
  infer_instance

theorem shrink_spec (hinv : Inv h s) (hok : h.Ok) (hn : n % 4096 = 0)
    (hcommit : a.trimCommit ((dynamicPart h (s.heapUsed - n) s.heapUsed n).2 / 4096 - 1))
    (hcall : shrink a n s = some (s', r)) : Outcome h s (-n) s' r := by
  obtain ⟨rfl, hle, hal, hbacked, -⟩ := hinv
  have hfits := hok.fits
  have hptr : (s.heap.heapBase + (s.heapUsed - n)) % 2 ^ 64 =
      s.heap.heapBase + min s.heapUsed (s.heapUsed - n) := by
    rw [Nat.min_eq_right (Nat.sub_le _ _)]
    exact Nat.mod_eq_of_lt (by omega)
  simp only [shrink, hptr] at hcall
  split_ifs at hcall with hbig hedmm
  · cases hcall
    exact .unchanged rfl rfl rfl rfl rfl
  · have hused : ((s.heapUsed - n : ℕ) : ℤ) = s.heapUsed + -n := by omega
    have hal' : (s.heapUsed - n) % 4096 = 0 := by omega
    rw [dynamicPart_eq hok (by omega) hle] at hcall hcommit
    obtain ⟨⟨s₁, ok⟩, htrim, hres⟩ := map_eq_some_iff.mp hcall
    have hless := Nat.sub_le s.heapUsed n
    cases trimEpcPages_eq (s := { s with heapUsed := s.heapUsed - n }) hok hless hle htrim rfl
    rw [hcommit, ite_self, if_pos rfl] at hres
    cases hres
    obtain ⟨hrun, hbacked'⟩ := hbacked.pages (b := false) nodup_dynamicPages
      (pagesBetween_dynamicPages hok hedmm.1 hal' hal hedmm.2 hless) hless
    rw [record_committed (s := { s with heapUsed := s.heapUsed - n }) hrun]
    exact .moved rfl hused (by dsimp only; omega) rfl hbacked'
  · have hused : ((s.heapUsed - n : ℕ) : ℤ) = s.heapUsed + -n := by omega
    cases hcall
    refine .moved rfl hused (by dsimp only; omega) rfl (hbacked.same ?_)
    rw [Nat.max_eq_left (Nat.sub_le _ _)]
    exact hedmm

/-- **One call.** -/
theorem sbrk_spec {c : Call} (hinv : Inv h s) (hok : h.Ok) (hproper : Proper s c) (hn : 4096 ∣ c.n)
    (hlt : c.n < 2 ^ 63) (hcall : sbrk c.answers c.n s = some (s', r)) :
    Outcome h s c.n s' r := by
  have hbase : s.heap.heapBase ≠ 0 := by
    rw [hinv.heap]
    exact Nat.ne_of_gt hok.base_pos
  rw [sbrk, if_neg hbase] at hcall
  split_ifs at hcall with hneg
  · have hcommit := hproper hneg
    rw [hinv.heap] at hcommit
    have hspec := shrink_spec hinv hok (by omega) hcommit hcall
    rwa [show (-(c.n.natAbs : ℤ)) = c.n by omega] at hspec
  · have hspec := extend_spec hinv hok (by omega) (by omega) hcall
    rwa [Int.toNat_of_nonneg (Int.not_lt.mp hneg)] at hspec

/-- The result is an address in the heap, so that a caller can tell it from a failure. -/
theorem ne_failed (hok : h.Ok) (hal : x % 4096 = 0) : h.heapBase + x ≠ failed := by
  have hb := hok.base_aligned
  rw [failed]
  omega

/-- A step keeps the invariant. -/
theorem Inv.step {c : Call} (hinv : Inv h s) (hok : h.Ok) (hproper : Proper s c)
    (hstep : step c s = some s') : Inv h s' := by
  obtain ⟨⟨hn, hlo, hhi⟩, hstep⟩ := ite_none_right_eq_some.mp hstep
  obtain ⟨⟨s₁, r⟩, hcall, rfl⟩ := map_eq_some_iff.mp hstep
  have hlive := hinv.live
  have hal := hinv.used_aligned
  rcases sbrk_spec hinv hok hproper hn hhi hcall with
    ⟨hr, hheap, hused, hpages, hlog⟩ | ⟨hheap, hused, hle, hr, hbacked⟩
  · refine ⟨hheap.trans hinv.heap, ?_, ?_, ?_, fun x => ?_⟩
    · exact hused ▸ hinv.used_le
    · exact hused ▸ hal
    · dsimp only
      rw [hused, hpages, hlog]
      exact hinv.backed
    · dsimp only at hr ⊢
      rw [liveAfter, if_pos hr, hused]
      exact hlive x
  · have hal' : s₁.heapUsed % 4096 = 0 := by omega
    refine ⟨hheap, hle, hal', hbacked, fun x => ?_⟩
    have hne : r ≠ failed := by
      rw [hr]
      exact ne_failed hok (by omega)
    rw [liveAfter, if_neg hne]
    split
    · simp only [Bool.and_eq_true, Bool.not_eq_true', decide_eq_false_iff_not, hlive]
      omega
    · simp only [Bool.or_eq_true, decide_eq_true_eq, hlive]
      omega

/-- A run keeps the invariant. -/
theorem Inv.of_run {l : List Call} (hok : h.Ok)
    (hrun : run (only Proper Tlibc.step) l (Tlibc.init h) = some s) : Inv h s := by
  refine invariant_of_run (fun c s s' hinv hstep => ?_) hrun Inv.init
  obtain ⟨hproper, hstep⟩ := only_eq_some.mp hstep
  exact hinv.step hok hproper hstep

/-! ### The result -/

/-- **Growth of the heap.**  After any calls in which the host confirmed the last page that was
given back: the heap is no larger than its size, the pages above the minimal size are those of
the heap in use, the log accepts a page only if it is not there and trims it only if it is, and
the next call either changes neither or moves the end of the heap, over bytes that nobody has. -/
theorem heap_accounting {old : Heap} {base size minSize : ℕ} {edmm : Bool}
    (hinit : heapInit old base size minSize edmm = some h) (hmin : minSize ≤ size)
    (hfits : base + size < 2 ^ 64) {l : List Call}
    (hrun : run (only Proper step) l (init h) = some s) :
    s.heapUsed ≤ size ∧
    (edmm = true → ∀ p, base + minSize ≤ p →
      (s.committed p = true ↔ p % 4096 = 0 ∧ p < base + s.heapUsed)) ∧
    run PageEvent.step s.log (initialPages h) = some s.committed ∧
    ∀ c s' r, 4096 ∣ c.n → -2 ^ 63 ≤ c.n → c.n < 2 ^ 63 → Proper s c →
      sbrk c.answers c.n s = some (s', r) →
        (r = failed → s'.heapUsed = s.heapUsed ∧ s'.committed = s.committed) ∧
        (r ≠ failed → 0 ≤ c.n → ∀ x, r ≤ x → x < r + c.n.toNat →
          s.live x = false ∧ base ≤ x ∧ x < base + size) := by
  have hok := ok_of_heapInit hinit hmin hfits
  have hinv := Inv.of_run hok hrun
  have heq : h = ⟨base, size, minSize, edmm⟩ := by
    rw [heapInit] at hinit
    split_ifs at hinit
    exact (some_inj.mp hinit).symm
  subst heq
  refine ⟨hinv.used_le, ?_, hinv.backed.history, ?_⟩
  · intro hedmm p hp
    rw [hinv.backed.mem_iff p, backedSize_edmm hedmm]
    dsimp only
    omega
  · intro c s' r hn hlo hhi hproper hcall
    have hal := hinv.used_aligned
    rcases sbrk_spec hinv hok hproper hn hhi hcall with
      ⟨hr, hheap, hused, hpages, hlog⟩ | ⟨hheap, hused, hle', hr, hbacked⟩
    · exact ⟨fun _ => ⟨hused, hpages⟩, fun hne => absurd hr hne⟩
    · refine ⟨fun hfail => ?_, fun _ hnn x hx hx' => ?_⟩
      · exact absurd hfail (hr ▸ ne_failed hok (by omega))
      · dsimp only at hr hle'
        have hlive := hinv.live x
        dsimp only at hlive
        rw [← Bool.not_eq_true, hlive]
        omega

/-- Every page operation succeeds. -/
def allYes : Answers := ⟨fun _ => true, fun _ => true, none⟩

/-- The heap grows by two pages and gives one back. -/
theorem heap_accounting_grown :
    ∃ s, run (only Proper step) [⟨0x2000, allYes⟩, ⟨-0x1000, allYes⟩]
        (init ⟨0x10000, 0x3000, 0, true⟩) = some s ∧ s.heapUsed = 0x1000 ∧
      (s.committed 0x11000 = true ↔ 0x11000 % 4096 = 0 ∧ 0x11000 < 0x10000 + s.heapUsed) := by
  obtain ⟨s, hs, hused⟩ := map_eq_some_iff.mp
    (show (run (only Proper step) [⟨0x2000, allYes⟩, ⟨-0x1000, allYes⟩]
      (init ⟨0x10000, 0x3000, 0, true⟩)).map State.heapUsed = some 0x1000 by decide)
  have hinit : heapInit ⟨0, 0, 0, false⟩ 0x10000 0x3000 0 true = some ⟨0x10000, 0x3000, 0, true⟩ := by
    decide
  exact ⟨s, hs, hused, (heap_accounting hinit (by decide) (by decide) hs).2.1 rfl 0x11000 (by decide)⟩

/-- The host removes the page but does not confirm it: `sbrk` fails and takes the byte count
back, and the page of the heap in use is gone. -/
theorem trimmed_but_used :
    ∃ s s' : State, run step [⟨0x1000, allYes⟩] (init ⟨0x10000, 0x3000, 0, true⟩) = some s ∧
      sbrk { allYes with trimCommit := fun _ => false } (-0x1000) s = some (s', failed) ∧
      s.heapUsed = 0x1000 ∧ s'.heapUsed = 0x1000 ∧
      s.committed 0x10000 = true ∧ s'.committed 0x10000 = false := by
  have hcalls : ((run step [⟨0x1000, allYes⟩] (init ⟨0x10000, 0x3000, 0, true⟩)).bind fun s =>
      (sbrk { allYes with trimCommit := fun _ => false } (-0x1000) s).map fun r =>
        (r.2, s.heapUsed, r.1.heapUsed, s.committed 0x10000, r.1.committed 0x10000)) =
      some (failed, 0x1000, 0x1000, true, false) := by decide
  obtain ⟨s, hs, hcall⟩ := bind_eq_some_iff.mp hcalls
  obtain ⟨⟨s', r⟩, hr, heq⟩ := map_eq_some_iff.mp hcall
  simp only [Prod.mk.injEq] at heq
  obtain ⟨rfl, hrest⟩ := heq
  exact ⟨s, s', hs, hr, hrest⟩

end Tlibc
