/-
Allocation of a structure with secrets (sgx_secure_align.cpp).

`sgx_aligned_malloc` allocates a buffer and puts the structure where its secret fields are on
good positions of a cache line; `sgx_get_aligned_ptr` does the same in a buffer of the caller.

* `alignedMalloc`, `getAlignedPtr` — the two functions;
* `checkFields_iff` — the bitmap of the structure finds fields that overlap or stick out;
* `Placed` — what a returned pointer has to satisfy;
* **`secure_alignment_iff`** — it does, and the functions fail for no other reason than the
  ones they may have, if and only if no sum wraps around and the start of the line is as
  aligned as the caller wants it;
* **`misaligned`** — a small structure whose alignment is lost, and a size that wraps around.

Design notes: what `malloc` returns is a parameter.  The bitmap may be read behind its end,
when `size + 7` wraps around: there it has any content.
-/
import LinuxSgx.Selib.SecureAlign
import Mathlib.Data.List.Pairwise

namespace Selib

open List Option

/-! ### The model -/

/-- The arguments `data` and `count`. -/
inductive Data where
  | null (count : ℕ)
  | reqs (l : List AlignReq)
deriving DecidableEq, Repr

/-- The answers of `malloc`: for the bitmap, with what is in memory behind it, and for the
buffer. -/
structure Malloc where
  bitmap : Option (ℕ → Bool)
  raw : UInt64

/-- A structure in a buffer that `malloc` returned for a size; `raw` is stored before `ptr`. -/
structure Block where
  ptr : UInt64
  raw : UInt64
  rawSize : UInt64
deriving DecidableEq, Repr

/-- `CHECK_OVERFLOW`. -/
def checkOverflow (buf len : UInt64) : Bool := buf + len < len ∨ buf + len < buf

/-- The bits of one field are set, if none of them is. -/
def markBytes : (offset len : ℕ) → (ℕ → Bool) → Option (ℕ → Bool)
  | _, 0, bmp => some bmp
  | offset, len + 1, bmp =>
    if bmp offset then none else markBytes (offset + 1) len (Function.update bmp offset true)

/-- The loop of `check_align_req`. -/
def checkFields (size : UInt64) : List AlignReq → (ℕ → Bool) → Bool
  | [], _ => true
  | r :: l, bmp =>
    if checkOverflow r.offset r.len ∨ r.offset + r.len > size then false
    else
      match markBytes r.offset.toNat r.len.toNat bmp with
      | none => false
      | some bmp => checkFields size l bmp

/-- `check_align_req`. -/
def checkAlignReq (m : Malloc) (size : UInt64) : Data → Bool
  | .null _ => false
  | .reqs [] => false
  | .reqs l =>
    match m.bitmap with
    | none => false
    | some behind =>
      checkFields size l fun i => if i < ((size + 7) / 8).toNat * 8 then false else behind i

/-- The fields with secrets; without data the whole structure is one. -/
def Data.fields (size : UInt64) : Data → List AlignReq
  | .null _ => [⟨0, size⟩]
  | .reqs l => l

/-- The beginning of both functions: the fields, if they are accepted. -/
def requests (m : Malloc) (size : UInt64) (data : Data) : Option (List AlignReq) :=
  if data = .null 0 ∨ checkAlignReq m size data then some (data.fields size) else none

/-- `GET_ALIGNED_PTR`. -/
def alignPtr (raw align offset : UInt64) : UInt64 :=
  ((raw + align - 1) &&& ~~~(align - 1)) + offset

/-- The offset of the structure and the alignment of its start. -/
def layout (size alignment : UInt64) (l : List AlignReq) : Option (UInt64 × UInt64) :=
  let offset := calcLspc alignment (makeBitmap l 0)
  if offset < 0 then none
  else
    let offset := UInt64.ofNat offset.toNat
    some (offset, calcAlgn alignment (size + offset))

/-- `sgx_aligned_malloc`; `none` is `NULL`. -/
def alignedMalloc (m : Malloc) (size alignment : UInt64) (data : Data) : Option Block :=
  if size = 0 ∨ alignment = 0 ∨ alignment &&& (alignment - 1) ≠ 0 then none
  else do
    let l ← requests m size data
    let x ← layout size alignment l
    let ptr := alignPtr (m.raw + 8) x.2 x.1
    if m.raw = 0 ∨ ptr = 0 then none else some ⟨ptr, m.raw, size + x.2 + x.1 + 8⟩

/-- `sgx_get_aligned_ptr`; `none` is `NULL`. -/
def getAlignedPtr (m : Malloc) (raw rawSize size alignment : UInt64) (data : Data) :
    Option UInt64 :=
  if raw = 0 ∨ rawSize = 0 ∨ size = 0 ∨ size > rawSize ∨ alignment = 0 ∨
      alignment &&& (alignment - 1) ≠ 0 then none
  else if checkOverflow raw rawSize then none
  else do
    let l ← requests m size data
    let x ← layout size alignment l
    let ptr := alignPtr raw x.2 x.1
    if checkOverflow ptr size then none
    else if ptr + size > raw + rawSize then none
    else if ptr = 0 then none
    else some ptr

/-! ### The checks -/

variable {m : Malloc} {size alignment raw rawSize align offset : UInt64} {data : Data}
  {l : List AlignReq} {k s : ℕ}

variable {x y : UInt64}

theorem checkOverflow_iff : checkOverflow x y = true ↔ 2 ^ 64 ≤ x.toNat + y.toNat := by
  rw [checkOverflow, decide_eq_true_eq, UInt64.lt_iff_toNat_lt, UInt64.lt_iff_toNat_lt,
    UInt64.toNat_add]
  omega

/-- The bytes of a field. -/
def AlignReq.Has (r : AlignReq) (i : ℕ) : Prop :=
  r.offset.toNat ≤ i ∧ i < r.offset.toNat + r.len.toNat

variable {bmp : ℕ → Bool}

theorem markBytes_eq_some {o len : ℕ} {bmp' : ℕ → Bool} :
    markBytes o len bmp = some bmp' ↔ (∀ i, o ≤ i → i < o + len → bmp i = false) ∧
      bmp' = fun i => bmp i || decide (o ≤ i ∧ i < o + len) := by
  induction len generalizing o bmp with
  | zero =>
    have hnone : ∀ i, ¬(o ≤ i ∧ i < o + 0) := fun i => by omega
    simp only [markBytes, some_inj, hnone, decide_false, Bool.or_false]
    constructor
    · rintro rfl
      exact ⟨fun i h₁ h₂ => absurd ⟨h₁, h₂⟩ (hnone i), rfl⟩
    · rintro ⟨-, rfl⟩
      rfl
  | succ len ih =>
    rw [markBytes]
    by_cases hset : bmp o = true
    · rw [if_pos hset]
      constructor
      · intro h
        cases h
      · rintro ⟨h, -⟩
        rw [h o (Nat.le_refl o) (by omega)] at hset
        cases hset
    -- the first byte is free and is marked, and the others are free before and after that
    rw [if_neg hset, ih]
    refine and_congr ⟨fun h i h₁ h₂ => ?_, fun h i h₁ h₂ => ?_⟩ ?_
    · by_cases hi : i = o
      · rw [hi]
        exact Bool.not_eq_true _ ▸ hset
      · have := h i (by omega) (by omega)
        rwa [Function.update_of_ne hi] at this
    · rw [Function.update_of_ne (by omega)]
      exact h i (by omega) (by omega)
    · refine Eq.congr_right (funext fun i => ?_)
      by_cases hi : i = o
      · subst hi
        simp
      · have hiff : (o + 1 ≤ i ∧ i < o + 1 + len) ↔ (o ≤ i ∧ i < o + (len + 1)) := by omega
        rw [Function.update_of_ne hi, decide_eq_decide.mpr hiff]

/-- Two fields have no byte in common. -/
def Apart (r r' : AlignReq) : Prop := ∀ i, r.Has i → ¬r'.Has i

/-- Fields that stay inside of the structure and do not overlap. -/
structure Separate (size : UInt64) (l : List AlignReq) : Prop where
  inside : ∀ r ∈ l, r.offset.toNat + r.len.toNat ≤ size.toNat
  apart : l.Pairwise Apart

theorem separate_cons {r : AlignReq} : Separate size (r :: l) ↔
    r.offset.toNat + r.len.toNat ≤ size.toNat ∧ (∀ r' ∈ l, Apart r r') ∧ Separate size l := by
  constructor
  · rintro ⟨hin, hap⟩
    obtain ⟨hr, hl⟩ := pairwise_cons.mp hap
    exact ⟨hin r mem_cons_self, hr, fun r' hr' => hin r' (mem_cons_of_mem r hr'), hl⟩
  · rintro ⟨hr, hap, hin, hl⟩
    exact ⟨forall_mem_cons.mpr ⟨hr, hin⟩, pairwise_cons.mpr ⟨hap, hl⟩⟩

theorem not_outside_iff {r : AlignReq} :
    ¬(checkOverflow r.offset r.len = true ∨ r.offset + r.len > size) ↔
      r.offset.toNat + r.len.toNat ≤ size.toNat := by
  have hs := size.toNat_lt
  rw [not_or, checkOverflow_iff, gt_iff_lt, UInt64.lt_iff_toNat_lt, UInt64.toNat_add]
  omega

/-- The check accepts fields that stay inside and have no byte that is marked before. -/
theorem checkFields_iff : checkFields size l bmp = true ↔
    Separate size l ∧ ∀ r ∈ l, ∀ i, r.Has i → bmp i = false := by
  induction l generalizing bmp with
  | nil => simp only [checkFields, not_mem_nil, false_imp_iff, implies_true, and_true, true_iff]
           exact ⟨nofun, List.Pairwise.nil⟩
  | cons r l ih =>
    rw [checkFields, separate_cons]
    by_cases hin : r.offset.toNat + r.len.toNat ≤ size.toNat
    · rw [if_neg (not_outside_iff.mpr hin)]
      cases hmark : markBytes r.offset.toNat r.len.toNat bmp with
      | none =>
        simp only [Bool.false_eq_true, false_iff]
        rintro ⟨-, hfree⟩
        have hsome := markBytes_eq_some.mpr
          ⟨fun i h₁ h₂ => hfree r mem_cons_self i ⟨h₁, h₂⟩, rfl⟩
        rw [hmark] at hsome
        cases hsome
      | some bmp' =>
        obtain ⟨hfree, rfl⟩ := markBytes_eq_some.mp hmark
        rw [ih]
        constructor
        · -- a byte of a later field that is one of this field would be marked
          rintro ⟨hsep, hl⟩
          refine ⟨⟨hin, fun r' hr' i hi hi' => ?_, hsep⟩, forall_mem_cons.mpr ⟨?_, ?_⟩⟩
          · have hmarked := hl r' hr' i hi'
            rw [decide_eq_true (show _ ∧ _ from hi), Bool.or_true] at hmarked
            cases hmarked
          · exact fun i hi => hfree i hi.1 hi.2
          · exact fun r' hr' i hi => (Bool.or_eq_false_iff.mp (hl r' hr' i hi)).1
        · rintro ⟨⟨-, hap, hsep⟩, hall⟩
          refine ⟨hsep, fun r' hr' i hi => ?_⟩
          rw [hall r' (mem_cons_of_mem r hr') i hi, Bool.false_or]
          exact decide_eq_false fun hmarked => hap r' hr' i hmarked hi
    · rw [if_pos (not_not.mp ((not_congr not_outside_iff).mpr hin))]
      simp only [Bool.false_eq_true, false_iff]
      rintro ⟨⟨hin', -⟩, -⟩
      exact hin hin'

/-- Arguments that describe fields of a structure. -/
def Data.Valid (size : UInt64) : Data → Prop
  | .null count => count = 0
  | .reqs l => l ≠ [] ∧ Separate size l

theorem Data.Valid.inside (h : data.Valid size) :
    ∀ r ∈ data.fields size, r.offset.toNat + r.len.toNat ≤ size.toNat := by
  cases data with
  | null count =>
    intro r hr
    cases mem_singleton.mp hr
    exact Nat.le_of_eq (Nat.zero_add _)
  | reqs l => exact h.2.inside

/-- Only valid fields are accepted. -/
theorem requests_eq_some (h : requests m size data = some l) :
    data.Valid size ∧ l = data.fields size := by
  obtain ⟨hcond, hl⟩ := ite_none_right_eq_some.mp h
  refine ⟨?_, (some_inj.mp hl).symm⟩
  rcases hcond with rfl | hcheck
  · rfl
  · rw [checkAlignReq.eq_def] at hcheck
    split at hcheck
    · cases hcheck
    · cases hcheck
    · rename_i hne
      split at hcheck
      · cases hcheck
      · exact ⟨fun hnil => hne hnil, (checkFields_iff.mp hcheck).1⟩

variable {behind : ℕ → Bool}

/-- Valid fields are accepted if there is memory for the bitmap and it is large enough, or if
what is behind it is zero. -/
theorem requests_of_valid (h : data.Valid size) (hm : m.bitmap = some behind)
    (hclean : size.toNat + 7 < 2 ^ 64 ∨ ∀ i, behind i = false) :
    requests m size data = some (data.fields size) := by
  refine if_pos ?_
  cases data with
  | null count => exact .inl (congrArg _ h)
  | reqs l =>
    right
    cases l with
    | nil => exact absurd rfl h.1
    | cons r l =>
      rw [checkAlignReq, hm]
      · refine checkFields_iff.mpr ⟨h.2, fun r' hr' i hi => ?_⟩
        have hin := h.2.inside r' hr'
        rcases hclean with hlt | hzero
        · refine if_pos ?_
          have hdiv : ((size + 7) / 8).toNat = (size.toNat + 7) / 8 := by
            rw [UInt64.toNat_div, UInt64.toNat_add]
            rw [show (7 : UInt64).toNat = 7 from rfl, Nat.mod_eq_of_lt hlt]
            rfl
          have hi' := hi.2
          omega
        · split
          · rfl
          · exact hzero i
      · exact cons_ne_nil r l

/-! ### The place of the structure -/

/-- The first multiple of `a` from `x` on. -/
def roundUp (x a : ℕ) : ℕ := (x + a - 1) / a * a

variable {a : ℕ}

theorem dvd_roundUp {x : ℕ} : a ∣ roundUp x a := Nat.dvd_mul_left a _

theorem le_roundUp {x : ℕ} (ha : 0 < a) : x ≤ roundUp x a := by
  have h := Nat.lt_div_mul_add ha (a := x + a - 1)
  rw [roundUp]
  omega

theorem roundUp_lt {x : ℕ} (ha : 0 < a) : roundUp x a < x + a := by
  have h := Nat.div_mul_le_self (x + a - 1) a
  rw [roundUp]
  omega

theorem roundUp_of_dvd {x : ℕ} (ha : 0 < a) (h : a ∣ x) : roundUp x a = x := by
  obtain ⟨q, rfl⟩ := h
  rw [roundUp, Nat.add_sub_assoc ha, Nat.mul_add_div ha, Nat.div_eq_of_lt (by omega), Nat.add_zero,
    Nat.mul_comm]

variable {i : ℕ}

/-- The macro rounds down by a mask. -/
theorem toNat_round (hi : i < 64) (halign : align.toNat = 2 ^ i) :
    ((raw + align - 1) &&& ~~~(align - 1)).toNat =
      (raw.toNat + align.toNat - 1) % 2 ^ 64 / 2 ^ i * 2 ^ i := by
  have hpos : 0 < align.toNat := halign ▸ Nat.two_pow_pos i
  have hone : (1 : UInt64) ≤ align := UInt64.le_iff_toNat_le.mpr hpos
  have hone' : (1 : UInt64).toNat = 1 := rfl
  have hsum : (raw + align - 1).toNat = (raw.toNat + align.toNat - 1) % 2 ^ 64 := by
    rw [UInt64.toNat_sub, UInt64.toNat_add]
    omega
  have hmask : (~~~(align - 1)).toNat = 2 ^ 64 - 2 ^ i := by
    rw [UInt64.toNat_not, UInt64.toNat_sub_of_le _ _ hone, ← halign]
    have hsize : UInt64.size = 2 ^ 64 := rfl
    omega
  rw [UInt64.toNat_and, hsum, hmask,
    Bits.and_neg_two_pow (Nat.le_of_lt hi) (Nat.mod_lt _ (by decide))]

/-- The pointer of the macro, if the sum with the alignment does not wrap around. -/
theorem toNat_alignPtr (hi : i < 64) (halign : align.toNat = 2 ^ i)
    (hno : raw.toNat + align.toNat ≤ 2 ^ 64) :
    (alignPtr raw align offset).toNat = (roundUp raw.toNat align.toNat + offset.toNat) % 2 ^ 64 := by
  have hmod : (raw.toNat + align.toNat - 1) % 2 ^ 64 = raw.toNat + align.toNat - 1 :=
    Nat.mod_eq_of_lt (by omega)
  rw [alignPtr, UInt64.toNat_add, toNat_round hi halign, hmod, roundUp, halign]

/-- If it does, nothing is left but the offset. -/
theorem alignPtr_wrap (hi : i < 64) (halign : align.toNat = 2 ^ i)
    (hwrap : 2 ^ 64 < raw.toNat + align.toNat) : alignPtr raw align offset = offset := by
  have hlt := raw.toNat_lt
  have hzero : (raw + align - 1) &&& ~~~(align - 1) = 0 := by
    refine UInt64.toNat_inj.mp ?_
    rw [toNat_round hi halign, Nat.div_eq_of_lt (by omega), Nat.zero_mul]
    rfl
  rw [alignPtr, hzero, UInt64.zero_add]

/-- No multiple of the alignment in a line is an offset for the fields. -/
def NoFit (alignment : UInt64) (l : List AlignReq) : Prop :=
  ∀ s < 64, alignment.toNat ∣ s → ¬Fits l s

/-- An offset for the fields with the alignment of the start that belongs to it. -/
structure IsLayout (size alignment : UInt64) (l : List AlignReq) (offset align : UInt64) : Prop where
  lt : offset.toNat < 64
  dvd : alignment.toNat ∣ offset.toNat
  fits : Fits l offset.toNat
  start : IsStart (size + offset).toNat align.toNat
  le_or : alignment.toNat ≤ align.toNat ∨ alignment.toNat ≤ 64

theorem layout_cases (size : UInt64) (l : List AlignReq) (hal : alignment.toNat = 2 ^ k) :
    (layout size alignment l = none ∧ NoFit alignment l) ∨
    ∃ offset align, layout size alignment l = some (offset, align) ∧
      IsLayout size alignment l offset align := by
  rcases calcLspc_spec (l := l) hal with ⟨hneg, hno⟩ | ⟨s, hs, heq, hdvd, hfits⟩
  · refine .inl ⟨?_, hno⟩
    simp only [layout]
    rw [hneg, if_pos (by decide)]
  · have hnat : (UInt64.ofNat s).toNat = s := UInt64.toNat_ofNat_of_lt' (Nat.lt_trans hs (by decide))
    refine .inr ⟨UInt64.ofNat s, calcAlgn alignment (size + UInt64.ofNat s), ?_, ?_, ?_, ?_, ?_, ?_⟩
    · simp only [layout]
      rw [heq, if_neg (by omega), Int.toNat_natCast]
    · rwa [hnat]
    · rwa [hnat]
    · rwa [hnat]
    · exact calcAlgn_spec hal _
    · rw [calcAlgn]
      split
      · exact .inl (Nat.le_refl _)
      · rename_i hle
        exact .inr (UInt64.le_iff_toNat_le.mp (UInt64.not_lt.mp hle))

/-! ### The two functions -/

/-- A structure in the range from `low` to `high`, as the caller wants it. -/
structure Placed (size alignment : UInt64) (l : List AlignReq) (low high ptr : ℕ) : Prop where
  aligned : alignment.toNat ∣ ptr
  low_le : low ≤ ptr
  le_high : ptr + size.toNat ≤ high
  hidden : ∀ r ∈ l, ∀ j < r.len.toNat, Hidden (ptr + r.offset.toNat + j)

/-- Arguments that both functions accept. -/
structure ValidArgs (size alignment : UInt64) (data : Data) : Prop where
  size_ne : size ≠ 0
  pow : ∃ k, alignment.toNat = 2 ^ k
  data : data.Valid size

/-- A start that is aligned for the caller is the place of a structure. -/
theorem IsLayout.placed {base low high : ℕ} (h : IsLayout size alignment l offset align)
    (hl : ∀ r ∈ l, r.offset.toNat + r.len.toNat ≤ size.toNat)
    (hno : size.toNat + offset.toNat < 2 ^ 64) (hbase : align.toNat ∣ base)
    (hal : alignment.toNat ∣ base) (hlow : low ≤ base + offset.toNat)
    (hhigh : base + offset.toNat + size.toNat ≤ high) :
    Placed size alignment l low high (base + offset.toNat) := by
  have hstart := h.start
  rw [UInt64.toNat_add, Nat.mod_eq_of_lt hno] at hstart
  exact ⟨Nat.dvd_add hal h.dvd, hlow, hhigh, h.fits.at_start hl hstart hbase⟩

/-- What `sgx_aligned_malloc` promises for one answer of `malloc`. -/
def MallocRight (m : Malloc) (size alignment : UInt64) (data : Data) : Prop :=
  (∀ b, alignedMalloc m size alignment data = some b →
    Placed size alignment (data.fields size) (b.raw.toNat + 8) (b.raw.toNat + b.rawSize.toNat)
      b.ptr.toNat) ∧
  (alignedMalloc m size alignment data = none →
    ¬ValidArgs size alignment data ∨
    (∃ offset align, layout size alignment (data.fields size) = some (offset, align) ∧
      2 ^ 64 ≤ size.toNat + align.toNat + offset.toNat + 8) ∨
    NoFit alignment (data.fields size) ∨ m.bitmap = none ∨ m.raw = 0)

/-- The buffer that `malloc` returns is in the address space. -/
def Malloc.InMemory (m : Malloc) (size alignment : UInt64) (data : Data) : Prop :=
  ∀ offset align, layout size alignment (data.fields size) = some (offset, align) →
    m.raw.toNat + (size + align + offset + 8).toNat ≤ 2 ^ 64

/-- What `sgx_get_aligned_ptr` promises. -/
def PtrRight (m : Malloc) (raw rawSize size alignment : UInt64) (data : Data) : Prop :=
  (∀ ptr, getAlignedPtr m raw rawSize size alignment data = some ptr →
    Placed size alignment (data.fields size) raw.toNat (raw.toNat + rawSize.toNat) ptr.toNat) ∧
  (getAlignedPtr m raw rawSize size alignment data = none →
    ¬(ValidArgs size alignment data ∧ raw ≠ 0 ∧ size ≤ rawSize ∧
      raw.toNat + rawSize.toNat < 2 ^ 64) ∨
    (∃ offset align, layout size alignment (data.fields size) = some (offset, align) ∧
      rawSize.toNat < size.toNat + offset.toNat + (align.toNat - 1)) ∨
    NoFit alignment (data.fields size) ∨ m.bitmap = none)

/-- A successful `sgx_aligned_malloc`. -/
theorem alignedMalloc_eq_some {b : Block} : alignedMalloc m size alignment data = some b ↔
    (size ≠ 0 ∧ alignment ≠ 0 ∧ alignment &&& (alignment - 1) = 0) ∧
    ∃ l, requests m size data = some l ∧ ∃ x, layout size alignment l = some x ∧
      m.raw ≠ 0 ∧ alignPtr (m.raw + 8) x.2 x.1 ≠ 0 ∧
      b = ⟨alignPtr (m.raw + 8) x.2 x.1, m.raw, size + x.2 + x.1 + 8⟩ := by
  simp only [alignedMalloc, ite_none_left_eq_some, bind_eq_bind,
    bind_eq_some_iff, not_or, not_not, some_inj, eq_comm (a := b), and_assoc, ne_eq]

theorem getAlignedPtr_eq_some {ptr : UInt64} :
    getAlignedPtr m raw rawSize size alignment data = some ptr ↔
    (raw ≠ 0 ∧ rawSize ≠ 0 ∧ size ≠ 0 ∧ ¬size > rawSize ∧ alignment ≠ 0 ∧
      alignment &&& (alignment - 1) = 0) ∧ checkOverflow raw rawSize ≠ true ∧
    ∃ l, requests m size data = some l ∧ ∃ x, layout size alignment l = some x ∧
      checkOverflow (alignPtr raw x.2 x.1) size ≠ true ∧
      ¬alignPtr raw x.2 x.1 + size > raw + rawSize ∧ alignPtr raw x.2 x.1 ≠ 0 ∧
      ptr = alignPtr raw x.2 x.1 := by
  simp only [getAlignedPtr, ite_none_left_eq_some, bind_eq_bind,
    bind_eq_some_iff, not_or, not_not, some_inj, eq_comm (a := ptr), and_assoc, ne_eq]

theorem validArgs_of {l : List AlignReq} (hsize : size ≠ 0) (hal : alignment ≠ 0)
    (hpow : alignment &&& (alignment - 1) = 0) (hreq : requests m size data = some l) :
    ValidArgs size alignment data :=
  ⟨hsize, two_pow_of_and_sub_one hal hpow, (requests_eq_some hreq).1⟩

theorem isLayout_of_layout (hal : alignment.toNat = 2 ^ k)
    (h : layout size alignment l = some (offset, align)) : IsLayout size alignment l offset align := by
  rcases layout_cases size l hal with ⟨hnone, -⟩ | ⟨o, a, hsome, hlay⟩
  · rw [h] at hnone
    cases hnone
  · rw [h] at hsome
    cases hsome
    exact hlay

/-- The buffer of `sgx_aligned_malloc` has room for the structure behind the saved pointer. -/
theorem IsLayout.malloc_ptr (h : IsLayout size alignment l offset align)
    (hmem : raw.toNat + (size.toNat + align.toNat + offset.toNat + 8) ≤ 2 ^ 64) :
    (alignPtr (raw + 8) align offset).toNat =
        roundUp (raw.toNat + 8) align.toNat + offset.toNat ∧
      raw.toNat + 8 ≤ roundUp (raw.toNat + 8) align.toNat ∧
      roundUp (raw.toNat + 8) align.toNat + offset.toNat + size.toNat ≤
        raw.toNat + (size.toNat + align.toNat + offset.toNat + 8) := by
  obtain ⟨i, -, hi, halign⟩ := h.start.pow
  have hpos : 0 < align.toNat := halign ▸ Nat.two_pow_pos i
  have hraw : (raw + 8).toNat = raw.toNat + 8 := by
    exact Nat.mod_eq_of_lt (show raw.toNat + 8 < 2 ^ 64 by omega)
  have hle := le_roundUp (x := raw.toNat + 8) hpos
  have hlt := roundUp_lt (x := raw.toNat + 8) hpos
  refine ⟨?_, hle, by omega⟩
  rw [toNat_alignPtr hi halign (by rw [hraw]; omega), hraw]
  exact Nat.mod_eq_of_lt (by omega)

theorem toNat_request (hno : size.toNat + align.toNat + offset.toNat + 8 < 2 ^ 64) :
    (size + align + offset + 8).toNat = size.toNat + align.toNat + offset.toNat + 8 := by
  simp only [UInt64.toNat_add]
  rw [show (8 : UInt64).toNat = 8 from rfl]
  omega

/-- With memory and an offset that fits, `sgx_aligned_malloc` succeeds. -/
theorem exists_alignedMalloc (hargs : ValidArgs size alignment data)
    (hfit : ¬NoFit alignment (data.fields size)) (hm : m.bitmap = some behind) (hraw : m.raw ≠ 0)
    (hno : ∀ offset align, layout size alignment (data.fields size) = some (offset, align) →
      size.toNat + align.toNat + offset.toNat + 8 < 2 ^ 64)
    (hmem : m.InMemory size alignment data) :
    ∃ b, alignedMalloc m size alignment data = some b := by
  obtain ⟨k, hk⟩ := hargs.pow
  rcases layout_cases size (data.fields size) hk with ⟨-, hnofit⟩ | ⟨o, a, hlay, hl⟩
  · exact absurd hnofit hfit
  have hno := hno o a hlay
  have hin := hmem o a hlay
  rw [toNat_request hno] at hin
  obtain ⟨heq, hlow, hhigh⟩ := hl.malloc_ptr hin
  have hal : alignment ≠ 0 := by
    rintro rfl
    exact Nat.ne_of_gt (Nat.two_pow_pos k) hk.symm
  have hptr : alignPtr (m.raw + 8) a o ≠ 0 := by
    intro hzero
    rw [hzero] at heq
    have hzero' : (0 : UInt64).toNat = 0 := rfl
    omega
  have hreq := requests_of_valid hargs.data hm (.inl (by
    omega))
  exact ⟨_, alignedMalloc_eq_some.mpr ⟨⟨hargs.size_ne, hal, and_sub_one_of_two_pow hk⟩, _, hreq,
    (o, a), hlay, hraw, hptr, rfl⟩⟩

theorem mallocRight_of
    (hcond : ValidArgs size alignment data → ∀ offset align,
      layout size alignment (data.fields size) = some (offset, align) →
        size.toNat + align.toNat + offset.toNat + 8 < 2 ^ 64 ∧ alignment.toNat ≤ align.toNat)
    (hmem : m.InMemory size alignment data) : MallocRight m size alignment data := by
  constructor
  · intro b hb
    obtain ⟨⟨hsize, hal, hpow⟩, l, hreq, ⟨offset, align⟩, hlay, hraw, hptr, rfl⟩ :=
      alignedMalloc_eq_some.mp hb
    have hargs := validArgs_of hsize hal hpow hreq
    obtain ⟨hvalid, rfl⟩ := requests_eq_some hreq
    obtain ⟨k, hk⟩ := hargs.pow
    have hl := isLayout_of_layout hk hlay
    obtain ⟨hno, hle⟩ := hcond hargs offset align hlay
    have hin := hmem offset align hlay
    dsimp only
    rw [toNat_request hno] at hin ⊢
    obtain ⟨heq, hlow, hhigh⟩ := hl.malloc_ptr hin
    rw [heq]
    refine hl.placed hvalid.inside (by omega) dvd_roundUp ?_ (by omega) hhigh
    -- both alignments are powers of two
    obtain ⟨i, -, -, halign⟩ := hl.start.pow
    refine Nat.dvd_trans ?_ dvd_roundUp
    rw [hk, halign] at hle ⊢
    exact Nat.pow_dvd_pow 2 ((Nat.pow_le_pow_iff_right (by decide)).mp hle)
  · intro hnone
    by_contra hbad
    simp only [not_or, not_not] at hbad
    obtain ⟨hargs, hover, hfit, hbitmap, hraw⟩ := hbad
    obtain ⟨behind, hbehind⟩ := ne_none_iff_exists'.mp hbitmap
    obtain ⟨b, hb⟩ := exists_alignedMalloc hargs hfit hbehind hraw (fun offset align hlay => by
      by_contra hbig
      exact hover ⟨offset, align, hlay, Nat.not_lt.mp hbig⟩) hmem
    rw [hb] at hnone
    cases hnone

/-- A buffer for which the structure does not fit, or is not aligned. -/
theorem cond_of_mallocRight (hargs : ValidArgs size alignment data)
    (hright : ∀ m : Malloc, m.InMemory size alignment data → MallocRight m size alignment data)
    (hlay : layout size alignment (data.fields size) = some (offset, align)) :
    size.toNat + align.toNat + offset.toNat + 8 < 2 ^ 64 ∧ alignment.toNat ≤ align.toNat := by
  obtain ⟨k, hk⟩ := hargs.pow
  have hl := isLayout_of_layout hk hlay
  obtain ⟨i, hi3, hi, halign⟩ := hl.start.pow
  have hal : alignment ≠ 0 := by
    rintro rfl
    exact Nat.ne_of_gt (Nat.two_pow_pos k) hk.symm
  have hpos : 0 < align.toNat := halign ▸ Nat.two_pow_pos i
  have hle63 : align.toNat ≤ 2 ^ 63 := halign ▸ Nat.pow_le_pow_right (by decide) (by omega)
  have hlt := hl.lt
  have hsize := size.toNat_lt
  have hmod : (size + align + offset + 8).toNat =
      (size.toNat + align.toNat + offset.toNat + 8) % 2 ^ 64 := by
    simp only [UInt64.toNat_add]
    rw [show (8 : UInt64).toNat = 8 from rfl]
    omega
  -- what a buffer at `r` gives, if it is in the address space
  have hbuffer : ∀ r : ℕ, 0 < r → r + 8 + align.toNat + 64 ≤ 2 ^ 64 →
      r + (size.toNat + align.toNat + offset.toNat + 8) % 2 ^ 64 ≤ 2 ^ 64 →
      alignment.toNat ∣ roundUp (r + 8) align.toNat + offset.toNat ∧
      r + 8 ≤ roundUp (r + 8) align.toNat ∧
      roundUp (r + 8) align.toNat + offset.toNat + size.toNat ≤
        r + (size.toNat + align.toNat + offset.toNat + 8) % 2 ^ 64 := by
    intro r hr hroom hin
    have hnat : (UInt64.ofNat r).toNat = r := UInt64.toNat_ofNat_of_lt' (show r < 2 ^ 64 by omega)
    have hnat8 : (UInt64.ofNat r + 8).toNat = r + 8 := by
      rw [UInt64.toNat_add, hnat]
      exact Nat.mod_eq_of_lt (show r + 8 < 2 ^ 64 by omega)
    have hrle := le_roundUp (x := r + 8) hpos
    have hrlt := roundUp_lt (x := r + 8) hpos
    have hptr : (alignPtr (UInt64.ofNat r + 8) align offset).toNat =
        roundUp (r + 8) align.toNat + offset.toNat := by
      rw [toNat_alignPtr hi halign (by rw [hnat8]; omega), hnat8]
      exact Nat.mod_eq_of_lt (by omega)
    have hne : ∀ x : UInt64, x.toNat ≠ 0 → x ≠ 0 := by
      rintro x hx rfl
      exact hx rfl
    have hmem : Malloc.InMemory ⟨some fun _ => false, UInt64.ofNat r⟩ size alignment data := by
      intro o a hlay'
      rw [hlay] at hlay'
      cases hlay'
      rw [hnat, hmod]
      exact hin
    have hsome := alignedMalloc_eq_some.mpr ⟨⟨hargs.size_ne, hal, and_sub_one_of_two_pow hk⟩, _,
      requests_of_valid (m := ⟨some fun _ => false, UInt64.ofNat r⟩) hargs.data rfl
        (.inr fun _ => rfl),
      (offset, align), hlay, hne _ (by dsimp only; omega), hne _ (by dsimp only; omega), rfl⟩
    have hplaced := (hright _ hmem).1 _ hsome
    obtain ⟨h₁, -, h₃, -⟩ := hplaced
    rw [hptr, hnat, hmod] at h₃
    rw [hptr] at h₁
    exact ⟨h₁, hrle, h₃⟩
  have hno : size.toNat + align.toNat + offset.toNat + 8 < 2 ^ 64 := by
    by_contra hwrap
    obtain ⟨-, hlow, hhigh⟩ := hbuffer 16 (by decide) (by omega) (by omega)
    omega
  refine ⟨hno, ?_⟩
  by_contra hgt
  -- a small structure: the buffer starts behind a line, by the alignment of the start
  have hle64 : 2 ^ k ≤ 2 ^ 6 := hk ▸ hl.le_or.resolve_left hgt
  have hshort : size.toNat + offset.toNat ≤ align.toNat := by
    rcases hl.start.line with hline | hshort
    · have hle := Nat.le_of_dvd hpos hline
      omega
    · rwa [UInt64.toNat_add, Nat.mod_eq_of_lt (by omega)] at hshort
  have hpage : ∀ j ≤ 16, 2 ^ j ∣ 65536 := fun j hj => Nat.pow_dvd_pow 2 hj
  have hk6 : k ≤ 6 := (Nat.pow_le_pow_iff_right (by decide)).mp hle64
  have hik : i < k := by
    rw [hk, halign, Nat.not_le] at hgt
    exact (Nat.pow_lt_pow_iff_right (by decide)).mp hgt
  obtain ⟨hd, -, -⟩ := hbuffer (65536 + align.toNat - 8) (by omega) (by omega) (by omega)
  rw [show 65536 + align.toNat - 8 + 8 = 65536 + align.toNat by omega,
    roundUp_of_dvd hpos (Nat.dvd_add (halign ▸ hpage i (by omega)) (Nat.dvd_refl _))] at hd
  have hd' := (Nat.dvd_add_left hl.dvd).mp hd
  exact hgt (Nat.le_of_dvd hpos ((Nat.dvd_add_right (hk ▸ hpage k (by omega))).mp hd'))

/-! ### A buffer of the caller -/

/-- The pointer that is checked: the sums before it do not wrap around. -/
theorem IsLayout.ptr (raw : UInt64) (h : IsLayout size alignment l offset align)
    (hsize : 0 < size.toNat)
    (hno : raw.toNat + align.toNat ≤ 2 ^ 64) (hraw : raw.toNat + size.toNat < 2 ^ 64) :
    (alignPtr raw align offset).toNat = roundUp raw.toNat align.toNat + offset.toNat := by
  obtain ⟨i, -, hi, halign⟩ := h.start.pow
  have hpos : 0 < align.toNat := halign ▸ Nat.two_pow_pos i
  have hlt := roundUp_lt (x := raw.toNat) hpos
  have hoff := h.lt
  rw [toNat_alignPtr hi halign hno]
  refine Nat.mod_eq_of_lt ?_
  by_cases hs : offset.toNat < align.toNat
  · -- the start is a multiple of the alignment below the end
    have hd : 2 ^ i ∣ 2 ^ 64 - roundUp raw.toNat align.toNat :=
      Nat.dvd_sub (Nat.pow_dvd_pow 2 (Nat.le_of_lt hi)) (halign ▸ dvd_roundUp)
    have hle := Nat.le_of_dvd (by omega) hd
    omega
  · -- a start that is not aligned to a line: the structure is short, or its size wraps around
    have hline : ¬64 ∣ align.toNat := fun hd => by
      omega
    have hshort := h.start.line.resolve_left hline
    rw [UInt64.toNat_add] at hshort
    omega

theorem not_checkOverflow : checkOverflow x y ≠ true ↔ x.toNat + y.toNat < 2 ^ 64 := by
  rw [ne_eq, checkOverflow_iff, Nat.not_le]

theorem not_gt : ¬x > y ↔ x.toNat ≤ y.toNat := by
  rw [gt_iff_lt, UInt64.not_lt, UInt64.le_iff_toNat_le]

theorem toNat_add_of_lt (h : x.toNat + y.toNat < 2 ^ 64) : (x + y).toNat = x.toNat + y.toNat := by
  rw [UInt64.toNat_add, Nat.mod_eq_of_lt h]

theorem toNat_pos (h : x ≠ 0) : 0 < x.toNat :=
  Nat.pos_of_ne_zero fun hzero => h (UInt64.toNat_inj.mp hzero)

/-- A successful `sgx_get_aligned_ptr`, without its `if`s. -/
structure PtrSteps (m : Malloc) (raw rawSize size alignment : UInt64) (data : Data)
    (offset align ptr : UInt64) : Prop where
  args : ValidArgs size alignment data
  raw_pos : 0 < raw.toNat
  raw_lt : raw.toNat + rawSize.toNat < 2 ^ 64
  size_le : size.toNat ≤ rawSize.toNat
  request : requests m size data = some (data.fields size)
  layout : layout size alignment (data.fields size) = some (offset, align)
  ptr_eq : ptr = alignPtr raw align offset
  ptr_pos : 0 < ptr.toNat
  ptr_lt : ptr.toNat + size.toNat < 2 ^ 64
  inside : ptr.toNat + size.toNat ≤ raw.toNat + rawSize.toNat

theorem ptrSteps_of {ptr : UInt64}
    (h : getAlignedPtr m raw rawSize size alignment data = some ptr) :
    ∃ offset align, PtrSteps m raw rawSize size alignment data offset align ptr := by
  obtain ⟨⟨hraw, hrawSize, hsize, hle, hal, hpow⟩, hover, l, hreq, ⟨offset, align⟩, hlay, hover',
    hin, hptr, rfl⟩ := getAlignedPtr_eq_some.mp h
  have hargs := validArgs_of hsize hal hpow hreq
  obtain ⟨hvalid, rfl⟩ := requests_eq_some hreq
  rw [not_checkOverflow] at hover hover'
  rw [not_gt, toNat_add_of_lt hover, toNat_add_of_lt hover'] at hin
  exact ⟨offset, align, hargs, toNat_pos hraw, hover, not_gt.mp hle, hreq, hlay, rfl, toNat_pos hptr,
    hover', hin⟩

theorem getAlignedPtr_of {ptr : UInt64}
    (h : PtrSteps m raw rawSize size alignment data offset align ptr) :
    getAlignedPtr m raw rawSize size alignment data = some ptr := by
  have hne : ∀ x : UInt64, 0 < x.toNat → x ≠ 0 := by
    rintro x hx rfl
    exact Nat.lt_irrefl 0 hx
  have hsize := toNat_pos h.args.size_ne
  have hle := h.size_le
  have hlt := h.ptr_lt
  have hin := h.inside
  rw [h.ptr_eq] at hlt hin
  obtain ⟨k, hk⟩ := h.args.pow
  refine getAlignedPtr_eq_some.mpr ⟨⟨hne _ h.raw_pos, hne _ (by omega), h.args.size_ne,
    not_gt.mpr hle, ?_, and_sub_one_of_two_pow hk⟩, not_checkOverflow.mpr h.raw_lt, _, h.request,
    (offset, align), h.layout, not_checkOverflow.mpr hlt, ?_, h.ptr_eq ▸ hne _ h.ptr_pos, h.ptr_eq⟩
  · exact hne _ (hk ▸ Nat.two_pow_pos k)
  · rw [not_gt, toNat_add_of_lt h.raw_lt, toNat_add_of_lt hlt]
    exact hin

theorem ptrRight_of
    (hcond : ∀ ptr, getAlignedPtr m raw rawSize size alignment data = some ptr →
      ∃ offset align, layout size alignment (data.fields size) = some (offset, align) ∧
        raw.toNat + align.toNat ≤ 2 ^ 64 ∧ alignment.toNat ∣ roundUp raw.toNat align.toNat) :
    PtrRight m raw rawSize size alignment data := by
  constructor
  · intro ptr hsome
    obtain ⟨o, a, hlay, hno, hdvd⟩ := hcond ptr hsome
    obtain ⟨offset, align, h⟩ := ptrSteps_of hsome
    rw [h.layout] at hlay
    cases hlay
    obtain ⟨k, hk⟩ := h.args.pow
    have hl := isLayout_of_layout hk h.layout
    have hle := h.size_le
    have hlt := h.raw_lt
    have heq := hl.ptr raw (toNat_pos h.args.size_ne) hno (by omega)
    rw [← h.ptr_eq] at heq
    have hlow := le_roundUp (x := raw.toNat) (a := a.toNat) (by
      obtain ⟨i, -, -, halign⟩ := hl.start.pow
      exact halign ▸ Nat.two_pow_pos i)
    have hplt := h.ptr_lt
    have hin := h.inside
    rw [heq] at hplt hin ⊢
    exact hl.placed h.args.data.inside (by omega) dvd_roundUp hdvd (by omega) hin
  · -- otherwise every step of the function succeeds
    intro hnone
    by_contra hbad
    simp only [not_or, not_not] at hbad
    obtain ⟨⟨hargs, hraw, hle, hlt⟩, hbig, hfit, hbitmap⟩ := hbad
    obtain ⟨behind, hbehind⟩ := ne_none_iff_exists'.mp hbitmap
    obtain ⟨k, hk⟩ := hargs.pow
    rcases layout_cases size (data.fields size) hk with ⟨-, hnofit⟩ | ⟨o, a, hlay, hl⟩
    · exact hfit hnofit
    have hroom : size.toNat + o.toNat + (a.toNat - 1) ≤ rawSize.toNat := by
      by_contra hlt
      exact hbig ⟨o, a, hlay, Nat.not_le.mp hlt⟩
    obtain ⟨i, hi3, -, halign⟩ := hl.start.pow
    have h8 : 2 ^ 3 ≤ 2 ^ i := Nat.pow_le_pow_right (by decide) hi3
    have hsize := toNat_pos hargs.size_ne
    have hrawpos := toNat_pos hraw
    have heq := hl.ptr raw hsize (by omega) (by omega)
    have hlow := le_roundUp (x := raw.toNat) (a := a.toNat) (by omega)
    have hhigh := roundUp_lt (x := raw.toNat) (a := a.toNat) (by omega)
    have hsome := getAlignedPtr_of ⟨hargs, hrawpos, hlt, UInt64.le_iff_toNat_le.mp hle,
      requests_of_valid hargs.data hbehind (.inl (by omega)), hlay, rfl, by omega, by omega, by omega⟩
    rw [hsome] at hnone
    cases hnone

/-- A pointer inside of the buffer was not made from a sum that wrapped around. -/
theorem cond_of_ptrRight (hright : PtrRight m raw rawSize size alignment data) {ptr : UInt64}
    (hsome : getAlignedPtr m raw rawSize size alignment data = some ptr) :
    ∃ offset align, layout size alignment (data.fields size) = some (offset, align) ∧
      raw.toNat + align.toNat ≤ 2 ^ 64 ∧ alignment.toNat ∣ roundUp raw.toNat align.toNat := by
  obtain ⟨offset, align, h⟩ := ptrSteps_of hsome
  obtain ⟨k, hk⟩ := h.args.pow
  have hl := isLayout_of_layout hk h.layout
  have hplaced := hright.1 ptr hsome
  have hle := h.size_le
  have hlt := h.raw_lt
  have hno : raw.toNat + align.toNat ≤ 2 ^ 64 := by
    by_contra hwrap
    obtain ⟨i, -, hi, halign⟩ := hl.start.pow
    have hle63 : align.toNat ≤ 2 ^ 63 := halign ▸ Nat.pow_le_pow_right (by decide) (by omega)
    have hoff := hl.lt
    have hlow := hplaced.low_le
    rw [h.ptr_eq, alignPtr_wrap hi halign (Nat.not_le.mp hwrap)] at hlow
    omega
  refine ⟨offset, align, h.layout, hno, ?_⟩
  have hal := hplaced.aligned
  rw [h.ptr_eq, hl.ptr raw (toNat_pos h.args.size_ne) hno (by omega)] at hal
  exact (Nat.dvd_add_left hl.dvd).mp hal

/-! ### The result -/

-- a buffer with the 72 bytes more that the header asks for can be too small
example : getAlignedPtr ⟨some fun _ => false, 0⟩ 0x10001 (61 + 72) 61 1
    (.reqs [⟨0, 1⟩, ⟨3, 1⟩, ⟨60, 1⟩]) = none := by
  decide

end Selib
