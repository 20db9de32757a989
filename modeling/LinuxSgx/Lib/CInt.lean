/-
Integers of C, on a machine with 32-bit `int` and 64-bit `long`.

An integer type is a width with or without a sign.  Operands of a product are converted to a common
type; the product is exact if it is a value of this type.  If it is not, an unsigned type wraps
around, and for a signed type C says nothing: the value is then an arbitrary number `undef`.

* `IntType.Mem`, `IntType.conv` — the values of a type, and conversion to it;
* `promote`, `usual` — the integer promotions and the usual arithmetic conversions;
* `Value.mul`, `Value.toSize` — products, and conversion to `size_t`;
* **`toSize_mul_eq_iff`** — when a product that is stored as a `size_t` is exact.
-/
import Mathlib.Algebra.Order.Ring.Int
import Mathlib.Data.Int.ModEq
import Mathlib.Tactic.Ring

namespace CInt

inductive Width where
  | w8
  | w16
  | w32
  | w64
deriving DecidableEq, Repr

def Width.bits : Width → ℕ
  | .w8 => 8
  | .w16 => 16
  | .w32 => 32
  | .w64 => 64

structure IntType where
  signed : Bool
  width : Width
deriving DecidableEq, Repr

/-- The number of values of a type. -/
def IntType.size (t : IntType) : ℤ := 2 ^ t.width.bits

/-- The least value of a type. -/
def IntType.low (t : IntType) : ℤ := if t.signed then -2 ^ (t.width.bits - 1) else 0

/-- A value of a type. -/
def IntType.Mem (t : IntType) (x : ℤ) : Prop := t.low ≤ x ∧ x < t.low + t.size

instance (t : IntType) (x : ℤ) : Decidable (t.Mem x) := inferInstanceAs (Decidable (_ ∧ _))

/-- The value of a type that is congruent to a number. -/
def IntType.conv (t : IntType) (x : ℤ) : ℤ := t.low + (x - t.low) % t.size

def sizeT : IntType := ⟨false, .w64⟩

def int : IntType := ⟨true, .w32⟩

/-- Types smaller than `int` become `int`. -/
def promote (t : IntType) : IntType :=
  match t.width with
  | .w8 | .w16 => int
  | .w32 | .w64 => t

/-- The common type of two operands: the wider one, and of two with the same width the unsigned
one. -/
def usual (t u : IntType) : IntType :=
  let t := promote t
  let u := promote u
  if t.width.bits < u.width.bits then u
  else if u.width.bits < t.width.bits then t
  else ⟨t.signed && u.signed, t.width⟩

variable {t u : IntType} {x y : ℤ}

theorem size_pos (t : IntType) : 0 < t.size := Int.pow_pos (by decide)

theorem conv_mem (t : IntType) (x : ℤ) : t.Mem (t.conv x) := by
  have hlow := Int.emod_nonneg (x - t.low) (size_pos t).ne'
  have hhigh := Int.emod_lt_of_pos (x - t.low) (size_pos t)
  rw [IntType.Mem, IntType.conv]
  omega

theorem conv_of_mem (h : t.Mem x) : t.conv x = x := by
  obtain ⟨hlow, hhigh⟩ := h
  rw [IntType.conv, Int.emod_eq_of_lt (by omega) (by omega)]
  omega

theorem conv_eq_self_iff : t.conv x = x ↔ t.Mem x :=
  ⟨fun h => h ▸ conv_mem t x, conv_of_mem⟩

theorem conv_modEq (t : IntType) (x : ℤ) : t.conv x ≡ x [ZMOD t.size] := by
  have h : t.low + (x - t.low) % t.size ≡ t.low + (x - t.low) [ZMOD t.size] :=
    (Int.mod_modEq _ _).add_left _
  rwa [add_sub_cancel] at h

theorem conv_congr (h : x ≡ y [ZMOD t.size]) : t.conv x = t.conv y := by
  rw [IntType.conv, IntType.conv, h.sub_right t.low]

/-- A signed common type has all values of the operands. -/
theorem Mem.usual_left (hs : (usual t u).signed = true) (h : t.Mem x) : (usual t u).Mem x := by
  have hbounds : (usual t u).low ≤ t.low ∧ t.low + t.size ≤ (usual t u).low + (usual t u).size := by
    revert hs
    rcases t with ⟨_ | _, _ | _ | _ | _⟩ <;> rcases u with ⟨_ | _, _ | _ | _ | _⟩ <;> decide
  obtain ⟨hlow, hhigh⟩ := h
  exact ⟨by omega, by omega⟩

theorem usual_comm (t u : IntType) : usual t u = usual u t := by
  rcases t with ⟨_ | _, _ | _ | _ | _⟩ <;> rcases u with ⟨_ | _, _ | _ | _ | _⟩ <;> rfl

/-- A typed value. -/
structure Value where
  type : IntType
  val : ℤ
  mem : type.Mem val

/-- A number as a value of a type. -/
def Value.of (t : IntType) (x : ℤ) : Value := ⟨t, t.conv x, conv_mem t x⟩

/-- A literal of C: an `int`, or a `long` if it does not fit. -/
def Value.lit (n : ℤ) : Value := if int.Mem n then .of int n else .of ⟨true, .w64⟩ n

/-- A product; `undef` is the result where C says nothing. -/
def Value.mul (undef : ℤ) (a b : Value) : Value :=
  let t := usual a.type b.type
  let r := t.conv a.val * t.conv b.val
  if t.signed ∧ ¬t.Mem r then .of t undef else .of t r

/-- Conversion to `size_t`. -/
def Value.toSize (a : Value) : ℕ := (sizeT.conv a.val).toNat

theorem conv_sizeT (x : ℤ) : sizeT.conv x = x % 2 ^ 64 := by
  show (0 : ℤ) + (x - 0) % 2 ^ 64 = x % 2 ^ 64
  rw [zero_add, sub_zero]

theorem cast_toSize (a : Value) : (a.toSize : ℤ) = a.val % 2 ^ 64 := by
  rw [Value.toSize, conv_sizeT, Int.toNat_of_nonneg (Int.emod_nonneg _ (by decide))]

theorem Width.bits_le (w : Width) : w.bits ≤ 64 := by
  cases w <;> decide

theorem IntType.Mem.lt (h : t.Mem x) : x < 2 ^ 64 := by
  have hpow : (2 : ℤ) ^ t.width.bits ≤ 2 ^ 64 := pow_le_pow_right₀ (by decide) t.width.bits_le
  have hlow : t.low ≤ 0 := by
    rw [IntType.low]
    split
    · exact neg_nonpos.mpr (pow_nonneg (by decide) _)
    · exact le_rfl
  have hhigh := h.2
  rw [IntType.size] at hhigh
  omega

theorem Value.toSize_eq_iff (a : Value) : (a.toSize : ℤ) = a.val ↔ 0 ≤ a.val := by
  rw [cast_toSize]
  constructor
  · intro h
    rw [← h]
    exact Int.emod_nonneg _ (by decide)
  · intro h
    exact Int.emod_eq_of_lt h a.mem.lt

/-- The product of the converted operands. -/
theorem Value.val_mul (undef : ℤ) (a b : Value) :
    (Value.mul undef a b).val =
      if (usual a.type b.type).signed = true ∧ ¬(usual a.type b.type).Mem (a.val * b.val) then
        (usual a.type b.type).conv undef
      else (usual a.type b.type).conv (a.val * b.val) := by
  rw [Value.mul]
  by_cases hs : (usual a.type b.type).signed = true
  · have ha := conv_of_mem (Mem.usual_left hs a.mem)
    have hb := conv_of_mem (usual_comm b.type a.type ▸ Mem.usual_left (usual_comm a.type b.type ▸ hs)
      b.mem : (usual a.type b.type).Mem b.val)
    simp only [ha, hb]
    split <;> rfl
  · rw [if_neg fun h => hs h.1, if_neg fun h => hs h.1]
    exact conv_congr ((conv_modEq _ _).mul (conv_modEq _ _))

/-- **Products as sizes.**  A product that is stored as a `size_t` is the product of the numbers,
whatever an undefined result is, if and only if it is not negative and a value of the common type. -/
theorem toSize_mul_eq_iff (a b : Value) :
    (∀ undef, ((Value.mul undef a b).toSize : ℤ) = a.val * b.val) ↔
      0 ≤ a.val * b.val ∧ (usual a.type b.type).Mem (a.val * b.val) := by
  simp only [cast_toSize, Value.val_mul]
  constructor
  · intro h
    have hnn : 0 ≤ a.val * b.val := h 0 ▸ Int.emod_nonneg _ (by decide)
    refine ⟨hnn, ?_⟩
    by_contra hmem
    by_cases hs : (usual a.type b.type).signed = true
    · -- two results that differ cannot both be the product
      have hsmall : ∀ x, 0 ≤ x → x ≤ 1 → (usual a.type b.type).Mem x := by
        intro x hx hx'
        rw [IntType.Mem, IntType.low, IntType.size, if_pos hs]
        cases (usual a.type b.type).width <;> norm_num [Width.bits] <;> omega
      have h₀ := h 0
      have h₁ := h 1
      rw [if_pos ⟨hs, hmem⟩, conv_of_mem (hsmall 0 le_rfl zero_le_one)] at h₀
      rw [if_pos ⟨hs, hmem⟩, conv_of_mem (hsmall 1 zero_le_one le_rfl)] at h₁
      omega
    · have h₀ := h 0
      rw [if_neg fun hc => hs hc.1] at h₀
      have hconv := conv_mem (usual a.type b.type) (a.val * b.val)
      have hlow : (usual a.type b.type).low = 0 := by rw [IntType.low, if_neg hs]
      have hmod : (usual a.type b.type).conv (a.val * b.val) % 2 ^ 64 =
          (usual a.type b.type).conv (a.val * b.val) :=
        Int.emod_eq_of_lt (hlow ▸ hconv.1) hconv.lt
      exact hmem (conv_eq_self_iff.mp (hmod.symm.trans h₀))
  · rintro ⟨hnn, hmem⟩ undef
    rw [if_neg fun hc => hc.2 hmem, conv_of_mem hmem]
    exact Int.emod_eq_of_lt hnn hmem.lt

end CInt
