/-
Addresses inside and outside the enclave (`trts.cpp`).

The runtime compares the first and the last byte of a buffer with the first and the
last byte of the enclave, in 64 bits.

* **`apart_of_outside`** — a buffer that passes the check does not wrap around, and lies on
  one side of the enclave;
* `toNat_roundDown`, `toNat_trimToPage` — masks that round down.
-/
import LinuxSgx.Lib.Bits
import LinuxSgx.Lib.Prog

namespace Trts

/-- `g_enclave_state`. -/
inductive EnclaveState
  | initNotStarted
  | initInProgress
  | initDone
  | crashed
deriving DecidableEq, Repr

/-- `g_enclave_base` and `g_enclave_size`: the enclave is a range of pages. -/
structure Elrange where
  base : UInt64
  size : UInt64
  base_aligned : base.toNat % 4096 = 0
  size_aligned : size.toNat % 4096 = 0
  fits : base.toNat + size.toNat ≤ 2 ^ 64

/-- The bytes of the enclave. -/
def Elrange.Mem (e : Elrange) (x : ℕ) : Prop :=
  e.base.toNat ≤ x ∧ x < e.base.toNat + e.size.toNat

/-- The end of a buffer, which is inclusive. -/
def bufferEnd (addr size : UInt64) : UInt64 := if 0 < size then addr + size - 1 else addr

/-- `enclave_end`, inclusive as well. -/
def Elrange.last (e : Elrange) : UInt64 := e.base + e.size - 1

def sgxIsOutsideEnclave (e : Elrange) (addr size : UInt64) : Bool :=
  addr ≤ bufferEnd addr size ∧ (bufferEnd addr size < e.base ∨ addr > e.last)

section Checks

variable {e : Elrange} {addr size : UInt64}

/-- A buffer whose end is not before its start does not wrap around. -/
theorem toNat_bufferEnd (h : addr ≤ bufferEnd addr size) :
    (bufferEnd addr size).toNat + 1 = addr.toNat + max size.toNat 1 := by
  have haddr := addr.toNat_lt
  have hsize := size.toNat_lt
  rw [bufferEnd] at h ⊢
  split_ifs at h ⊢ with hpos
  · rw [UInt64.lt_iff_toNat_lt, UInt64.toNat_zero] at hpos
    rw [UInt64.le_iff_toNat_le] at h
    rw [UInt64.toNat_sub, UInt64.toNat_add, UInt64.toNat_one] at h ⊢
    omega
  · rw [UInt64.lt_iff_toNat_lt, UInt64.toNat_zero] at hpos
    omega

/-- The end of the enclave is one before its first page when it has no page, so the
address after it may be zero. -/
theorem lt_of_last_lt (h : e.last < addr) : e.base.toNat + e.size.toNat ≤ addr.toNat := by
  have hfits := e.fits
  have haddr := addr.toNat_lt
  rw [UInt64.lt_iff_toNat_lt, Elrange.last, UInt64.toNat_sub, UInt64.toNat_add,
    UInt64.toNat_one] at h
  omega

theorem apart_of_outside (h : sgxIsOutsideEnclave e addr size = true) :
    addr.toNat + max size.toNat 1 ≤ 2 ^ 64 ∧
      (addr.toNat + max size.toNat 1 ≤ e.base.toNat ∨
        e.base.toNat + e.size.toNat ≤ addr.toNat) := by
  rw [sgxIsOutsideEnclave, decide_eq_true_eq] at h
  obtain ⟨hle, hside⟩ := h
  have hend := toNat_bufferEnd hle
  have hlt := (bufferEnd addr size).toNat_lt
  refine ⟨by omega, hside.imp (fun hbelow => ?_) lt_of_last_lt⟩
  rw [UInt64.lt_iff_toNat_lt] at hbelow
  omega

end Checks

/-! ### Rounding -/

/-- `x & ~(2 ^ k - 1)`. -/
def roundDown (k : ℕ) (x : UInt64) : UInt64 := x &&& UInt64.ofNat (2 ^ 64 - 2 ^ k)

theorem toNat_roundDown {k : ℕ} (hk : k ≤ 64) (x : UInt64) :
    (roundDown k x).toNat = x.toNat / 2 ^ k * 2 ^ k := by
  have hpos : 0 < 2 ^ k := Nat.two_pow_pos k
  rw [roundDown, UInt64.toNat_and, UInt64.toNat_ofNat', Nat.mod_eq_of_lt (by omega),
    Bits.and_neg_two_pow hk x.toNat_lt]

/-- `TRIM_TO_PAGE`. -/
def trimToPage (x : UInt64) : UInt64 := roundDown 12 x

theorem toNat_trimToPage (x : UInt64) : (trimToPage x).toNat = x.toNat / 4096 * 4096 :=
  toNat_roundDown (by decide) x

end Trts
