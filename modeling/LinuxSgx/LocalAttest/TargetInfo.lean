/-
The target info that a protocol specification asks for (`ec_dh.cpp`, LAv2).

The peer sends, in the report data of its report, a list of instructions: how many bytes of the report
to copy, from where, to the next aligned place of the target info.  `make_target_info`
interprets it.

* `ProtoSpec`, `makeTargetInfo` — the specification and its interpreter, with a list of what it copies;
* `Confined` — what holds after every instruction;
* **`target_info_confined`** — it reads inside of the report and writes inside of the target info,
  one place after the other, and everything else is zero;
* `target_info_untouched` — nothing is written for a specification that is not valid.
-/
import LinuxSgx.Lib.Bits
import Mathlib.Data.List.OfFn
import Mathlib.Data.List.Pairwise

namespace LocalAttest.Spec

/-- `sizeof(sgx_report_t)`. -/
def reportSize : ℕ := 432

/-- `sizeof(sgx_target_info_t)`. -/
def targetInfoSize : ℕ := 512

/-- The specification, without its signature. -/
structure ProtoSpec where
  ver : UInt8
  rev : UInt8
  targetSpec : Fin 28 → UInt16

namespace ProtoSpec

variable (ps : ProtoSpec)

def tsCount : ℕ := (ps.targetSpec 0 >>> 8).toNat

def isValid : Bool :=
  ps.ver = 2 && ps.rev = 0 && (ps.targetSpec 0).toUInt8 = 0 && decide (ps.tsCount < 28)

/-- The instructions `target_spec[1]` to `target_spec[ts_count()]`. -/
def instructions : List UInt16 := ((List.ofFn ps.targetSpec).drop 1).take ps.tsCount

end ProtoSpec

/-- A call of `memcpy`, from the report to the target info. -/
structure Copy where
  dest : ℕ
  source : ℕ
  size : ℕ
  deriving DecidableEq

def Copy.Covers (c : Copy) (p : ℕ) : Prop := c.dest ≤ p ∧ p < c.dest + c.size

instance (c : Copy) (p : ℕ) : Decidable (c.Covers p) := inferInstanceAs (Decidable (_ ∧ _))

/-- The memory at the target info, and what was copied so far. -/
structure Filled where
  ti : ℕ → UInt8
  copies : List Copy

def Filled.memcpy (f : Filled) (rpt : ℕ → UInt8) (c : Copy) : Filled where
  ti p := if c.Covers p then rpt (c.source + (p - c.dest)) else f.ti p
  copies := f.copies ++ [c]

inductive Status where
  | success
  | invalidParameter
  | unexpected
  deriving DecidableEq

/-- The loop of `make_target_info`; an `int` is a word of 32 bits, and `dest` is
the source's `to`. -/
def interpret (rpt : ℕ → UInt8) : List UInt16 → BitVec 32 → Filled → Filled × Status
  | [], _, f => (f, .success)
  | spec :: specs, dest, f =>
    let size := 1#32 <<< (spec.toNat % 16)
    let dest := (dest + (size - 1)) &&& -size
    if (dest + size).toInt > targetInfoSize then (f, .unexpected)
    else
      let source := spec.toBitVec.toInt >>> (4 : ℕ)
      if source ≥ 0 then
        if source + size.toInt > reportSize then (f, .unexpected)
        else interpret rpt specs (dest + size) (f.memcpy rpt ⟨dest.toNat, source.toNat, size.toNat⟩)
      else if source = -1 then interpret rpt specs (dest + size) f
      else (f, .unexpected)

/-- `make_target_info`; `ti` is what the memory holds before. -/
def makeTargetInfo (ps : ProtoSpec) (rpt ti : ℕ → UInt8) : Filled × Status :=
  if ps.isValid = false then (⟨ti, []⟩, .invalidParameter)
  else interpret rpt ps.instructions 0 ⟨fun p => if p < targetInfoSize then 0 else ti p, []⟩

/-- `LAv2_proto_spec`. -/
def lav2ProtoSpec : ProtoSpec where
  ver := 2
  rev := 0
  targetSpec i := ([0x0600, 0x0405, 0x0304, 0x0140, 0x1041, 0x0102, 0x0C06][i.val]?).getD 0

/-- The fields of a target info and those of a report: measurement, attributes, CET attributes,
`config_svn`, `misc_select` and `config_id`. -/
def sharedFields : List Copy :=
  [⟨0, 64, 32⟩, ⟨32, 48, 16⟩, ⟨48, 20, 1⟩, ⟨50, 260, 2⟩, ⟨52, 16, 4⟩, ⟨64, 192, 64⟩]

/-! ### Every instruction -/

section Confined

variable {rpt ti : ℕ → UInt8} {dest k : ℕ} {f : Filled}

/-- What was copied lies in front of `dest`, and is all that was changed. -/
structure Confined (rpt ti : ℕ → UInt8) (dest : ℕ) (f : Filled) : Prop where
  bound : dest ≤ targetInfoSize
  inside : ∀ c ∈ f.copies, c.source + c.size ≤ reportSize ∧ c.dest + c.size ≤ dest ∧
    c.size ∣ c.dest ∧ 0 < c.size
  order : f.copies.Pairwise fun c c' => c.dest + c.size ≤ c'.dest
  outside : ∀ p, targetInfoSize ≤ p → f.ti p = ti p
  zero : ∀ p < targetInfoSize, (∀ c ∈ f.copies, ¬c.Covers p) → f.ti p = 0
  copied : ∀ c ∈ f.copies, ∀ i < c.size, f.ti (c.dest + i) = rpt (c.source + i)

theorem Confined.mono {dest' : ℕ} (h : Confined rpt ti dest f) (hle : dest ≤ dest')
    (hbound : dest' ≤ targetInfoSize) : Confined rpt ti dest' f := by
  refine { h with bound := hbound, inside := ?_ }
  intro c hc
  obtain ⟨hsource, hto, hdvd, hpos⟩ := h.inside c hc
  exact ⟨hsource, hto.trans hle, hdvd, hpos⟩

/-- A copy to a place behind the others. -/
theorem Confined.memcpy {c : Copy} (h : Confined rpt ti dest f) (hto : dest ≤ c.dest)
    (hsource : c.source + c.size ≤ reportSize) (hbound : c.dest + c.size ≤ targetInfoSize)
    (hdvd : c.size ∣ c.dest) (hpos : 0 < c.size) :
    Confined rpt ti (c.dest + c.size) (f.memcpy rpt c) := by
  have hold : ∀ p, ¬c.Covers p → (f.memcpy rpt c).ti p = f.ti p := fun p hp => if_neg hp
  have hnew : ∀ i < c.size, (f.memcpy rpt c).ti (c.dest + i) = rpt (c.source + i) := by
    intro i hi
    show (if c.Covers (c.dest + i) then rpt (c.source + (c.dest + i - c.dest)) else _) = _
    rw [if_pos ⟨by omega, by omega⟩, Nat.add_sub_cancel_left]
  refine ⟨hbound, ?_, ?_, ?_, ?_, ?_⟩
  · intro d hd
    simp only [Filled.memcpy, List.mem_append, List.mem_singleton] at hd
    rcases hd with hd | rfl
    · obtain ⟨hsource', hto', hdvd', hpos'⟩ := h.inside d hd
      exact ⟨hsource', by omega, hdvd', hpos'⟩
    · exact ⟨hsource, le_rfl, hdvd, hpos⟩
  · refine List.pairwise_append.mpr ⟨h.order, List.pairwise_singleton _ _, ?_⟩
    intro d hd d' hd'
    rw [List.mem_singleton.mp hd']
    exact (h.inside d hd).2.1.trans hto
  · intro p hp
    rw [hold p (fun hc => by have := hc.2; omega)]
    exact h.outside p hp
  · intro p hp hall
    simp only [Filled.memcpy, List.mem_append, List.mem_singleton] at hall
    rw [hold p (hall c (.inr rfl))]
    exact h.zero p hp fun d hd => hall d (.inl hd)
  · intro d hd i hi
    simp only [Filled.memcpy, List.mem_append, List.mem_singleton] at hd
    rcases hd with hd | rfl
    · -- an earlier copy ends in front of the new one
      have hbefore := (h.inside d hd).2.1
      rw [hold _ (fun hc => by have := hc.1; omega)]
      exact h.copied d hd i hi
    · exact hnew i hi

theorem toNat_size (hk : k < 16) : (1#32 <<< k).toNat = 2 ^ k := by
  have hpow : 2 ^ k ≤ 2 ^ 15 := Nat.pow_le_pow_right (by decide) (by omega)
  rw [BitVec.toNat_shiftLeft, BitVec.toNat_ofNat, Nat.shiftLeft_eq]
  omega

/-- `to += size - 1; to &= -size` rounds up. -/
theorem toNat_roundUp {dest : BitVec 32} (hto : dest.toNat ≤ targetInfoSize) (hk : k < 16) :
    ((dest + (1#32 <<< k - 1)) &&& -(1#32 <<< k)).toNat = (dest.toNat + (2 ^ k - 1)) / 2 ^ k * 2 ^ k := by
  have hpow : 2 ^ k ≤ 2 ^ 15 := Nat.pow_le_pow_right (by decide) (by omega)
  have hpos : 0 < 2 ^ k := Nat.two_pow_pos k
  have hsize := toNat_size hk
  have hneg : (-(1#32 <<< k)).toNat = 2 ^ 32 - 2 ^ k := by
    rw [BitVec.toNat_neg, hsize]
    omega
  have hsum : (dest + (1#32 <<< k - 1)).toNat = dest.toNat + (2 ^ k - 1) := by
    have hone : (1 : BitVec 32).toNat = 1 := rfl
    rw [BitVec.toNat_add, BitVec.toNat_sub, hsize, hone]
    rw [targetInfoSize] at hto
    omega
  rw [BitVec.toNat_and, hneg, hsum]
  exact Bits.and_neg_two_pow (by omega) (by rw [targetInfoSize] at hto; omega)

theorem toInt_size (hk : k < 16) : (1#32 <<< k).toInt = ((2 ^ k : ℕ) : ℤ) := by
  have hpow : 2 ^ k ≤ 2 ^ 15 := Nat.pow_le_pow_right (by decide) (by omega)
  have hsize := toNat_size hk
  rw [BitVec.toInt_eq_toNat_of_lt (by omega), hsize]

/-- The comparison with the size of the target info is that of the numbers. -/
theorem toInt_add_size {dest : BitVec 32} (hdest : dest.toNat < 2 ^ 16) (hk : k < 16) :
    (dest + 1#32 <<< k).toInt = ((dest.toNat + 2 ^ k : ℕ) : ℤ) ∧
      (dest + 1#32 <<< k).toNat = dest.toNat + 2 ^ k := by
  have hpow : 2 ^ k ≤ 2 ^ 15 := Nat.pow_le_pow_right (by decide) (by omega)
  have hsum : (dest + 1#32 <<< k).toNat = dest.toNat + 2 ^ k := by
    rw [BitVec.toNat_add, toNat_size hk]
    exact Nat.mod_eq_of_lt (by omega)
  refine ⟨?_, hsum⟩
  rw [BitVec.toInt_eq_toNat_of_lt (by omega), hsum]

/-- The loop keeps what the copies did so far, and never leaves the two structures. -/
theorem Confined.interpret (specs : List UInt16) {dest : BitVec 32} {f : Filled}
    (h : Confined rpt ti dest.toNat f) :
    ∃ last, Confined rpt ti last (interpret rpt specs dest f).1 := by
  induction specs generalizing dest f with
  | nil => exact ⟨dest.toNat, h⟩
  | cons spec specs ih =>
    have hk : spec.toNat % 16 < 16 := Nat.mod_lt _ (by decide)
    have hpos : 0 < 2 ^ (spec.toNat % 16) := Nat.two_pow_pos _
    have hpow : 2 ^ (spec.toNat % 16) ≤ 2 ^ 15 := Nat.pow_le_pow_right (by decide) (by omega)
    have hbound := h.bound
    -- the place of this instruction, rounded up from the end of the last one
    have hround := toNat_roundUp h.bound hk
    set next := (dest + (1#32 <<< (spec.toNat % 16) - 1)) &&& -(1#32 <<< (spec.toNat % 16)) with hnext
    have hle : dest.toNat ≤ next.toNat := by
      have := Nat.lt_div_mul_add (a := dest.toNat + (2 ^ (spec.toNat % 16) - 1)) hpos
      omega
    have hdvd : 2 ^ (spec.toNat % 16) ∣ next.toNat := hround ▸ Dvd.intro_left _ rfl
    have hsmall : next.toNat < 2 ^ 16 := by
      have := Nat.div_mul_le_self (dest.toNat + (2 ^ (spec.toNat % 16) - 1)) (2 ^ (spec.toNat % 16))
      rw [targetInfoSize] at hbound
      omega
    obtain ⟨hint, hnat⟩ := toInt_add_size hsmall hk
    simp only [Spec.interpret, ← hnext]
    split_ifs with hover hfrom hread hskip
    · exact ⟨_, h⟩
    · exact ⟨_, h⟩
    · rw [hint] at hover
      rw [toInt_size hk] at hread
      refine ih ?_
      rw [hnat, toNat_size hk]
      have hcopy := h.memcpy (c := ⟨next.toNat, (spec.toBitVec.toInt >>> (4 : ℕ)).toNat,
        2 ^ (spec.toNat % 16)⟩) hle (by simp only; omega) (by simp only; omega) hdvd hpos
      exact hcopy
    · -- a gap, nothing is copied
      rw [hint] at hover
      exact ih (hnat ▸ h.mono (by omega) (by omega))
    · exact ⟨_, h⟩

end Confined

/-! ### Every specification -/

theorem confined_zeroed (rpt ti : ℕ → UInt8) :
    Confined rpt ti 0 ⟨fun p => if p < targetInfoSize then 0 else ti p, []⟩ where
  bound := Nat.zero_le _
  inside := by simp
  order := List.Pairwise.nil
  outside p hp := if_neg (by omega)
  zero p hp _ := if_pos hp
  copied := by simp

theorem makeTargetInfo_of_isValid (ps : ProtoSpec) (hvalid : ps.isValid = true)
    (rpt ti : ℕ → UInt8) : ∃ last, Confined rpt ti last (makeTargetInfo ps rpt ti).1 := by
  rw [makeTargetInfo, if_neg (by simp [hvalid])]
  exact Confined.interpret ps.instructions (confined_zeroed rpt ti)

theorem makeTargetInfo_of_not_isValid {ps : ProtoSpec} (hvalid : ps.isValid = false)
    (rpt ti : ℕ → UInt8) : makeTargetInfo ps rpt ti = (⟨ti, []⟩, .invalidParameter) :=
  if_pos hvalid

theorem makeTargetInfo_lav2ProtoSpec (rpt ti : ℕ → UInt8) :
    (makeTargetInfo lav2ProtoSpec rpt ti).2 = .success ∧
      (makeTargetInfo lav2ProtoSpec rpt ti).1.copies = sharedFields :=
  ⟨rfl, rfl⟩

/-- **The interpreter is confined.**  Whatever the peer asks for, what is copied comes from inside of
the report and goes to aligned places of the target info, one behind the other; outside of the target
info nothing is written.  A valid specification leaves the other bytes zero, one that is not valid
leaves the memory as it was.  The built-in specification fills exactly the fields that the two
structures share. -/
theorem target_info_confined (ps : ProtoSpec) (rpt ti : ℕ → UInt8) :
    let r := (makeTargetInfo ps rpt ti).1
    (∀ c ∈ r.copies, c.source + c.size ≤ reportSize ∧ c.dest + c.size ≤ targetInfoSize ∧
      c.size ∣ c.dest ∧ ∀ i < c.size, r.ti (c.dest + i) = rpt (c.source + i)) ∧
    r.copies.Pairwise (fun c c' => c.dest < c'.dest ∧ c.dest + c.size ≤ c'.dest) ∧
    (∀ p, targetInfoSize ≤ p → r.ti p = ti p) ∧
    (ps.isValid = true → ∀ p < targetInfoSize, (∀ c ∈ r.copies, ¬c.Covers p) → r.ti p = 0) ∧
    (ps.isValid = false → r.ti = ti ∧ r.copies = [] ∧
      (makeTargetInfo ps rpt ti).2 = .invalidParameter) ∧
    (makeTargetInfo lav2ProtoSpec rpt ti).2 = .success ∧
    (∀ c ∈ sharedFields, ∀ i < c.size,
      (makeTargetInfo lav2ProtoSpec rpt ti).1.ti (c.dest + i) = rpt (c.source + i)) := by
  intro r
  have hbuiltIn := makeTargetInfo_lav2ProtoSpec rpt ti
  obtain ⟨_, hfields⟩ := makeTargetInfo_of_isValid lav2ProtoSpec rfl rpt ti
  have hshared := hfields.copied
  rw [hbuiltIn.2] at hshared
  cases hvalid : ps.isValid with
  | false =>
    have hr : makeTargetInfo ps rpt ti = (⟨ti, []⟩, .invalidParameter) :=
      makeTargetInfo_of_not_isValid hvalid rpt ti
    rw [show r = ⟨ti, []⟩ from congrArg Prod.fst hr, hr]
    exact ⟨by simp, List.Pairwise.nil, fun _ _ => rfl, by simp, fun _ => ⟨rfl, rfl, rfl⟩,
      hbuiltIn.1, hshared⟩
  | true =>
    obtain ⟨last, h⟩ := makeTargetInfo_of_isValid ps hvalid rpt ti
    refine ⟨?_, ?_, h.outside, fun _ => h.zero, by simp, hbuiltIn.1, hshared⟩
    · intro c hc
      obtain ⟨hsource, hdest, hdvd, -⟩ := h.inside c hc
      exact ⟨hsource, hdest.trans h.bound, hdvd, h.copied c hc⟩
    · refine h.order.imp_of_mem ?_
      intro c c' hc _ hle
      have := (h.inside c hc).2.2.2
      exact ⟨by omega, hle⟩

/-- A specification of another version leaves in the target info what was there. -/
theorem target_info_untouched :
    ∃ ps : ProtoSpec, ∃ rpt ti : ℕ → UInt8, ∃ p < targetInfoSize,
      (∀ c ∈ (makeTargetInfo ps rpt ti).1.copies, ¬c.Covers p) ∧
      (makeTargetInfo ps rpt ti).1.ti p ≠ 0 := by
  refine ⟨⟨1, 0, fun _ => 0⟩, fun _ => 0, fun _ => 255, 0, by decide, ?_, ?_⟩
  · rw [makeTargetInfo_of_not_isValid rfl]
    simp
  · rw [makeTargetInfo_of_not_isValid rfl]
    decide

end LocalAttest.Spec
