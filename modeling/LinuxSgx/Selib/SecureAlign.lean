/-
Where a structure with secrets goes in a cache line (sgx_secure_align.h).

Bytes at the positions 0 and 4 to 7 of a line must not hold secrets.  The secret bytes of a
structure, modulo 64, are the bits of a word; rotations of the word say which offsets of the
structure would put one of them on a bad position, and the number of leading zeros of what is
left is the first good offset.

* `makeBitmap`, `calcLspc`, `calcAlgn` — as in the source, `size_t` being `UInt64` and the
  bitmaps words of 64 bits;
* `Hidden` — a good position, and `Fits` — an offset that puts every secret byte on one;
* **`calcLspc_spec`** — the result is the first multiple of the alignment that fits.
-/
import LinuxSgx.Lib.Bits
import Mathlib.Tactic.IntervalCases

namespace Selib

/-! ### The model -/

/-- `align_req_t`: a field of the structure with secrets. -/
structure AlignReq where
  offset : UInt64
  len : UInt64
deriving DecidableEq, Repr

/-- `rol` for 64 bits. -/
def rol (v : BitVec 64) (c : UInt64) : BitVec 64 :=
  v <<< (c &&& 63).toNat ||| v >>> ((0 - c) &&& 63).toNat

def ror (v : BitVec 64) (c : UInt64) : BitVec 64 := rol v (0 - c)

/-- `make_bitmap`, from the fields that are left. -/
def makeBitmap : List AlignReq → BitVec 64 → BitVec 64
  | [], bmp => bmp
  | r :: l, bmp =>
    if r.len > 63 then -1
    else makeBitmap l (bmp ||| rol (1#64 <<< r.len.toNat - 1#64) r.offset)

/-- `__gen_alignmask`; `a` is halved at most seven times. -/
def genAlignmask (al : UInt64) : (fuel : ℕ) → (a : UInt64) → (m : BitVec 64) → BitVec 64
  | 0, _, m => m
  | fuel + 1, a, m =>
    if a > al then genAlignmask al fuel (a >>> 1) (m ||| m >>> (a >>> 1).toNat) else m

/-- `count_lzb`; a word that is not zero has fewer than 64 leading zeros. -/
def countLzb : (fuel : ℕ) → BitVec 64 → ℤ
  | 0, _ => -1
  | fuel + 1, bmp =>
    if bmp = 0 then -1 else if bmp.msb then 0 else countLzb fuel (bmp <<< 1) + 1

/-- `calc_lspc`. -/
def calcLspc (al : UInt64) (bmp : BitVec 64) : ℤ :=
  if al &&& (al - 1) ≠ 0 then -2
  else countLzb 64
    (~~~(ror (bmp ||| ror bmp 1 ||| ror bmp 2 ||| ror bmp 3) 5 ||| ror bmp 1) &&&
      genAlignmask al 7 64 (1#64 <<< 63))

/-- `__calc_algn`. -/
def calcAlgnFrom (size : UInt64) : (fuel : ℕ) → (a : UInt64) → UInt64
  | 0, a => a
  | fuel + 1, a => if a > 8 ∧ size ≤ a / 2 then calcAlgnFrom size fuel (a / 2) else a

/-- `calc_algn`. -/
def calcAlgn (al size : UInt64) : UInt64 := if al > 64 then al else calcAlgnFrom size 3 64

/-! ### Rotations -/

variable {v bmp : BitVec 64} {c al : UInt64} {s b k : ℕ}

theorem toNat_and_63 (c : UInt64) : (c &&& 63).toNat = c.toNat % 64 := by
  rw [UInt64.toNat_and]
  exact Nat.and_two_pow_sub_one_eq_mod c.toNat 6

theorem toNat_neg (c : UInt64) : (0 - c).toNat = (2 ^ 64 - c.toNat) % 2 ^ 64 := by
  rw [UInt64.toNat_sub]
  rfl

theorem rol_eq_rotateLeft : rol v c = v.rotateLeft c.toNat := by
  have hlt := c.toNat_lt
  rw [rol, toNat_and_63, toNat_and_63, toNat_neg, BitVec.rotateLeft_def]
  by_cases hzero : c.toNat % 64 = 0
  · have hneg : (2 ^ 64 - c.toNat) % 2 ^ 64 % 64 = 0 := by omega
    rw [hzero, hneg]
    simp [BitVec.ushiftRight_eq_zero]
  · rw [show (2 ^ 64 - c.toNat) % 2 ^ 64 % 64 = 64 - c.toNat % 64 by omega]

theorem getLsbD_rol (hb : b < 64) :
    (rol v c).getLsbD b = v.getLsbD ((b + 64 - c.toNat % 64) % 64) := by
  rw [rol_eq_rotateLeft, BitVec.getLsbD_rotateLeft]
  by_cases hlt : b < c.toNat % 64
  · rw [show (b + 64 - c.toNat % 64) % 64 = 64 - c.toNat % 64 + b by omega]
    simp [hlt]
  · rw [show (b + 64 - c.toNat % 64) % 64 = b - c.toNat % 64 by omega]
    simp [hlt, hb]

theorem getLsbD_ror (hb : b < 64) (hc : c.toNat < 64) :
    (ror v c).getLsbD b = v.getLsbD ((b + c.toNat) % 64) := by
  rw [ror, getLsbD_rol hb, toNat_neg]
  congr 1
  omega

theorem getMsbD_eq (hs : s < 64) : v.getMsbD s = v.getLsbD (63 - s) := by
  rw [BitVec.getMsbD_eq_getLsbD]
  simp [hs]

/-! ### The secret bytes -/

/-- A position that may hold a secret. -/
def Hidden (a : ℕ) : Prop := a % 64 ≠ 0 ∧ ¬(4 ≤ a % 64 ∧ a % 64 ≤ 7)

instance (a : ℕ) : Decidable (Hidden a) := by
  unfold Hidden
  infer_instance

/-- Position `b` of a line holds a secret if the structure starts at a line. -/
def Secret (l : List AlignReq) (b : ℕ) : Prop :=
  ∃ r ∈ l, ∃ j < r.len.toNat, (r.offset.toNat + j) % 64 = b

/-- The structure may start `s` bytes after a line. -/
def Fits (l : List AlignReq) (s : ℕ) : Prop :=
  ∀ r ∈ l, ∀ j < r.len.toNat, Hidden (s + r.offset.toNat + j)

/-- The lowest `k` bits. -/
theorem getLsbD_ones (hk : k < 64) :
    (1#64 <<< k - 1#64).getLsbD b = decide (b < k) := by
  have htwo : 2 ^ k < 2 ^ 64 := Nat.pow_lt_pow_right (by decide) hk
  have hpos : 0 < 2 ^ k := Nat.two_pow_pos k
  have hval : (1#64 <<< k - 1#64).toNat = 2 ^ k - 1 := by
    rw [BitVec.toNat_sub, BitVec.toNat_shiftLeft, Nat.shiftLeft_eq]
    simp only [BitVec.toNat_ofNat]
    rw [show 1 % 2 ^ 64 = 1 from rfl, Nat.one_mul, Nat.mod_eq_of_lt htwo]
    omega
  rw [BitVec.getLsbD, hval, Nat.testBit_two_pow_sub_one]

/-- The bitmap of one field. -/
theorem getLsbD_field {r : AlignReq} (hlen : r.len.toNat < 64) (hb : b < 64) :
    (rol (1#64 <<< r.len.toNat - 1#64) r.offset).getLsbD b = true ↔
      ∃ j < r.len.toNat, (r.offset.toNat + j) % 64 = b := by
  rw [getLsbD_rol hb, getLsbD_ones hlen, decide_eq_true_eq]
  constructor
  · intro h
    exact ⟨_, h, by omega⟩
  · rintro ⟨j, hj, rfl⟩
    omega

/-- A field of 64 bytes or more has a byte on every position. -/
theorem exists_of_long (offset : ℕ) (hb : b < 64) {n : ℕ} (hn : 64 ≤ n) :
    ∃ j < n, (offset + j) % 64 = b :=
  ⟨(b + 64 - offset % 64) % 64, by omega, by omega⟩

variable {l : List AlignReq}

/-- The bits of the bitmap are the secret positions. -/
theorem getLsbD_makeBitmap (hb : b < 64) :
    (makeBitmap l bmp).getLsbD b = true ↔ bmp.getLsbD b = true ∨ Secret l b := by
  induction l generalizing bmp with
  | nil => simp [makeBitmap, Secret]
  | cons r l ih =>
    have hcons : Secret (r :: l) b ↔
        (∃ j < r.len.toNat, (r.offset.toNat + j) % 64 = b) ∨ Secret l b := by
      simp only [Secret, List.mem_cons, or_and_right, exists_or, exists_eq_left]
    rw [makeBitmap, hcons]
    by_cases hlong : r.len > 63
    · have hlen : 64 ≤ r.len.toNat := UInt64.lt_iff_toNat_lt.mp hlong
      rw [if_pos hlong]
      simp only [exists_of_long r.offset.toNat hb hlen, true_or, or_true, iff_true]
      exact BitVec.getLsbD_allOnes.trans (decide_eq_true hb)
    · have hlen : r.len.toNat < 64 := by
        have := UInt64.le_iff_toNat_le.mp (UInt64.not_lt.mp hlong)
        exact Nat.lt_succ_of_le this
      rw [if_neg hlong, ih, BitVec.getLsbD_or, Bool.or_eq_true, getLsbD_field hlen hb, or_assoc]

theorem fits_iff : Fits l s ↔ ∀ b < 64, Secret l b → Hidden (s + b) := by
  constructor
  · rintro h b - ⟨r, hr, j, hj, rfl⟩
    have hhid := h r hr j hj
    simp only [Hidden] at hhid ⊢
    omega
  · intro h r hr j hj
    have hhid := h _ (Nat.mod_lt _ (by decide)) ⟨r, hr, j, hj, rfl⟩
    simp only [Hidden] at hhid ⊢
    omega

/-! ### The first offset that fits -/

/-- The word whose leading bit is searched: bit `s` from the top is an offset. -/
def offsets (al : UInt64) (bmp : BitVec 64) : BitVec 64 :=
  ~~~(ror (bmp ||| ror bmp 1 ||| ror bmp 2 ||| ror bmp 3) 5 ||| ror bmp 1) &&&
    genAlignmask al 7 64 (1#64 <<< 63)

/-- The rotations collect the positions 0 and 4 to 7. -/
theorem getMsbD_rotations (hs : s < 64) :
    (ror (bmp ||| ror bmp 1 ||| ror bmp 2 ||| ror bmp 3) 5 ||| ror bmp 1).getMsbD s = false ↔
      ∀ b < 64, bmp.getLsbD b = true → Hidden (s + b) := by
  have hs' : 63 - s < 64 := by omega
  have hlt : (63 - s + UInt64.toNat 5) % 64 < 64 := Nat.mod_lt _ (by decide)
  rw [getMsbD_eq hs, BitVec.getLsbD_or, getLsbD_ror hs' (by decide), getLsbD_ror hs' (by decide)]
  simp only [BitVec.getLsbD_or, Bool.or_eq_false_iff]
  rw [getLsbD_ror hlt (by decide), getLsbD_ror hlt (by decide), getLsbD_ror hlt (by decide)]
  simp only [show UInt64.toNat 1 = 1 from rfl, show UInt64.toNat 2 = 2 from rfl,
    show UInt64.toNat 3 = 3 from rfl, show UInt64.toNat 5 = 5 from rfl]
  constructor
  · rintro ⟨⟨⟨⟨h4, h5⟩, h6⟩, h7⟩, h0⟩ b hb hbit
    by_contra hbad
    have hcases : b = (63 - s + 5) % 64 ∨ b = ((63 - s + 5) % 64 + 1) % 64 ∨
        b = ((63 - s + 5) % 64 + 2) % 64 ∨ b = ((63 - s + 5) % 64 + 3) % 64 ∨
        b = (63 - s + 1) % 64 := by
      simp only [Hidden] at hbad
      omega
    rcases hcases with rfl | rfl | rfl | rfl | rfl
    · rw [h4] at hbit
      cases hbit
    · rw [h5] at hbit
      cases hbit
    · rw [h6] at hbit
      cases hbit
    · rw [h7] at hbit
      cases hbit
    · rw [h0] at hbit
      cases hbit
  · intro h
    have hoff : ∀ x, ¬Hidden (s + x % 64) → bmp.getLsbD (x % 64) = false := by
      intro x hbad
      by_contra hbit
      exact hbad (h _ (Nat.mod_lt _ (by decide)) (Bool.not_eq_false _ ▸ hbit))
    refine ⟨⟨⟨⟨hoff _ ?_, hoff _ ?_⟩, hoff _ ?_⟩, hoff _ ?_⟩, hoff _ ?_⟩
    all_goals
      simp only [Hidden]
      omega

/-- The mask has the multiples of the alignment. -/
theorem getMsbD_genAlignmask (hal : al.toNat = 2 ^ k) (hs : s < 64) :
    (genAlignmask al 7 64 (1#64 <<< 63)).getMsbD s = decide (al.toNat ∣ s) := by
  by_cases hk : k ≤ 6
  · have heq : al = UInt64.ofNat (2 ^ k) := by
      rw [← hal, UInt64.ofNat_toNat]
    subst heq
    revert s
    interval_cases k
    all_goals decide
  · have hbig : 64 < al.toNat := by
      rw [hal]
      exact Nat.lt_of_lt_of_le (show 64 < 2 ^ 7 by decide) (Nat.pow_le_pow_right (by decide) (by omega))
    have hmask : genAlignmask al 7 64 (1#64 <<< 63) = 1#64 <<< 63 := by
      rw [genAlignmask, if_neg]
      rw [gt_iff_lt, UInt64.lt_iff_toNat_lt]
      exact Nat.not_lt.mpr (Nat.le_of_lt hbig)
    -- a multiple of the alignment below 64 is zero
    have hdvd : al.toNat ∣ s ↔ s = 0 := by
      constructor
      · intro hd
        exact Nat.eq_zero_of_dvd_of_lt hd (by omega)
      · rintro rfl
        exact Nat.dvd_zero _
    have hbits : ∀ s < 64, (1#64 <<< 63).getMsbD s = decide (s = 0) := by decide
    rw [hmask, decide_eq_decide.mpr hdvd, hbits s hs]

theorem getMsbD_offsets (hal : al.toNat = 2 ^ k) (hs : s < 64) :
    (offsets al bmp).getMsbD s = true ↔
      al.toNat ∣ s ∧ ∀ b < 64, bmp.getLsbD b = true → Hidden (s + b) := by
  rw [offsets, BitVec.getMsbD_and, BitVec.getMsbD_not, getMsbD_genAlignmask hal hs,
    ← getMsbD_rotations hs]
  simp [hs, and_comm]

theorem eq_zero_of_getMsbD (h : ∀ i, v.getMsbD i = false) : v = 0 := by
  refine BitVec.eq_of_getMsbD_eq fun i _ => ?_
  rw [h i, BitVec.ofNat_eq_ofNat, BitVec.getMsbD_zero]

/-- The leading bit of a word. -/
theorem countLzb_spec {fuel : ℕ} (hfuel : ∀ i, v.getMsbD i = true → i < fuel) :
    v = 0 ∧ countLzb fuel v = -1 ∨
    ∃ s : ℕ, countLzb fuel v = s ∧ v.getMsbD s = true ∧ ∀ i < s, v.getMsbD i = false := by
  induction fuel generalizing v with
  | zero =>
    refine .inl ⟨eq_zero_of_getMsbD fun i => ?_, rfl⟩
    by_contra hi
    exact Nat.not_lt_zero i (hfuel i (Bool.not_eq_false _ ▸ hi))
  | succ fuel ih =>
    rw [countLzb]
    by_cases hzero : v = 0
    · rw [if_pos hzero]
      exact .inl ⟨hzero, rfl⟩
    rw [if_neg hzero]
    by_cases hmsb : v.msb = true
    · rw [if_pos hmsb]
      exact .inr ⟨0, rfl, hmsb, fun i hi => absurd hi (Nat.not_lt_zero i)⟩
    rw [if_neg hmsb]
    have hshift : ∀ i, (v <<< 1).getMsbD i = v.getMsbD (i + 1) := fun i => BitVec.getMsbD_shiftLeft v 1
    have hfirst : v.getMsbD 0 = false := Bool.not_eq_true _ ▸ hmsb
    refine .inr ?_
    rcases ih (v := v <<< 1) (fun i hi => Nat.lt_of_succ_lt_succ (hfuel _ (hshift i ▸ hi))) with
      ⟨hall, -⟩ | ⟨s, hs, hbit, hbefore⟩
    · -- all bits after the first are zero, and so is the first
      refine absurd (eq_zero_of_getMsbD fun i => ?_) hzero
      rcases i with _ | i
      · exact hfirst
      · rw [← hshift, hall, BitVec.ofNat_eq_ofNat, BitVec.getMsbD_zero]
    · refine ⟨s + 1, ?_, hshift s ▸ hbit, fun i hi => ?_⟩
      · rw [hs]
        rfl
      · rcases i with _ | i
        · exact hfirst
        · rw [← hshift]
          exact hbefore i (Nat.lt_of_succ_lt_succ hi)

/-- The test for a power of two. -/
theorem toNat_and_sub_one (hal : al ≠ 0) : (al &&& (al - 1)).toNat = al.toNat &&& (al.toNat - 1) := by
  have hone : (1 : UInt64) ≤ al := by
    rw [UInt64.le_iff_toNat_le]
    exact Nat.pos_of_ne_zero fun h => hal (UInt64.toNat_inj.mp h)
  rw [UInt64.toNat_and, UInt64.toNat_sub_of_le _ _ hone]
  rfl

theorem two_pow_of_and_sub_one (hal : al ≠ 0) (h : al &&& (al - 1) = 0) : ∃ k, al.toNat = 2 ^ k := by
  refine Bits.two_pow_of_and_sub_one (fun hzero => hal (UInt64.toNat_inj.mp hzero)) ?_
  rw [← toNat_and_sub_one hal, h]
  rfl

theorem and_sub_one_of_two_pow (hal : al.toNat = 2 ^ k) : al &&& (al - 1) = 0 := by
  have hne : al ≠ 0 := by
    rintro rfl
    exact Nat.ne_of_gt (Nat.two_pow_pos k) hal.symm
  refine UInt64.toNat_inj.mp ?_
  rw [toNat_and_sub_one hne, hal, Bits.and_sub_one_two_pow]
  rfl

/-- **The offset of a structure.**  For an alignment that is a power of two, the result is the
first multiple of it in a line that fits, or negative if there is none. -/
theorem calcLspc_spec (hal : al.toNat = 2 ^ k) :
    (calcLspc al (makeBitmap l 0) = -1 ∧ ∀ s < 64, al.toNat ∣ s → ¬Fits l s) ∨
    ∃ s : ℕ, s < 64 ∧ calcLspc al (makeBitmap l 0) = s ∧ al.toNat ∣ s ∧ Fits l s := by
  have hpow := and_sub_one_of_two_pow hal
  have hbit : ∀ s < 64, (offsets al (makeBitmap l 0)).getMsbD s = true ↔
      al.toNat ∣ s ∧ Fits l s := by
    intro s hs
    rw [getMsbD_offsets hal hs, fits_iff]
    refine and_congr_right fun _ => forall₂_congr fun b hb => ?_
    rw [getLsbD_makeBitmap hb]
    simp
  have hlt : ∀ i, (offsets al (makeBitmap l 0)).getMsbD i = true → i < 64 := by
    intro i hi
    by_contra hge
    rw [BitVec.getMsbD_of_ge _ _ (Nat.not_lt.mp hge)] at hi
    cases hi
  have hcalc : calcLspc al (makeBitmap l 0) = countLzb 64 (offsets al (makeBitmap l 0)) :=
    if_neg (not_not.mpr hpow)
  rw [hcalc]
  rcases countLzb_spec hlt with ⟨hzero, hneg⟩ | ⟨s, hs, hset, -⟩
  · refine .inl ⟨hneg, fun s hs hd hfits => ?_⟩
    have hset := (hbit s hs).mpr ⟨hd, hfits⟩
    rw [hzero, BitVec.ofNat_eq_ofNat, BitVec.getMsbD_zero] at hset
    cases hset
  · have hs64 := hlt s hset
    obtain ⟨hd, hfits⟩ := (hbit s hs64).mp hset
    exact .inr ⟨s, hs64, hs, hd, hfits⟩

/-! ### The alignment of the start -/

/-- The alignment of the start is a power of two, and at least 8.  If it is not a multiple of a
line, the structure and the bytes before it are no longer than it. -/
structure IsStart (size a : ℕ) : Prop where
  pow : ∃ i, 3 ≤ i ∧ i < 64 ∧ a = 2 ^ i
  line : 64 ∣ a ∨ size ≤ a

theorem calcAlgnFrom_spec (size : UInt64) : IsStart size.toNat (calcAlgnFrom size 3 64).toNat := by
  have hfrom : ∀ fuel a, a > 8 → calcAlgnFrom size (fuel + 1) a =
      if size ≤ a / 2 then calcAlgnFrom size fuel (a / 2) else a := by
    intro fuel a ha
    simp [calcAlgnFrom, ha]
  rw [hfrom 2 64 (by decide)]
  split
  · rw [hfrom 1 _ (by decide)]
    split
    · rw [hfrom 0 _ (by decide)]
      split
      · rename_i hle
        exact ⟨⟨3, by decide, by decide, rfl⟩, .inr (UInt64.le_iff_toNat_le.mp hle)⟩
      · rename_i hle _
        exact ⟨⟨4, by decide, by decide, rfl⟩, .inr (UInt64.le_iff_toNat_le.mp hle)⟩
    · rename_i hle _
      exact ⟨⟨5, by decide, by decide, rfl⟩, .inr (UInt64.le_iff_toNat_le.mp hle)⟩
  · exact ⟨⟨6, by decide, by decide, rfl⟩, .inl (Nat.dvd_refl 64)⟩

theorem calcAlgn_spec (hal : al.toNat = 2 ^ k) (size : UInt64) :
    IsStart size.toNat (calcAlgn al size).toNat := by
  rw [calcAlgn]
  split
  · rename_i hgt
    have hbig : 2 ^ 6 < 2 ^ k := by
      rw [← hal]
      exact UInt64.lt_iff_toNat_lt.mp hgt
    have hk : 6 < k := (Nat.pow_lt_pow_iff_right (by decide)).mp hbig
    have hk' : k < 64 := (Nat.pow_lt_pow_iff_right (by decide)).mp (hal ▸ al.toNat_lt)
    refine ⟨⟨k, by omega, hk', hal⟩, .inl ?_⟩
    rw [hal]
    exact Nat.pow_dvd_pow 2 (Nat.le_of_lt hk)
  · exact calcAlgnFrom_spec size

/-- The structure may also start at a smaller multiple than a line: the bad positions are all
in the first eight bytes. -/
theorem Fits.at_start {size a base : ℕ} (h : Fits l s)
    (hl : ∀ r ∈ l, r.offset.toNat + r.len.toNat ≤ size) (ha : IsStart (size + s) a)
    (hbase : a ∣ base) :
    ∀ r ∈ l, ∀ j < r.len.toNat, Hidden (base + s + r.offset.toNat + j) := by
  intro r hr j hj
  have hhid := h r hr j hj
  have hle := hl r hr
  obtain ⟨⟨i, hi, -, rfl⟩, hline⟩ := ha
  simp only [Hidden] at hhid ⊢
  by_cases hlarge : 6 ≤ i
  · obtain ⟨q, rfl⟩ := (Nat.pow_dvd_pow 2 hlarge).trans hbase
    omega
  · -- the block is inside of one of the 2 ^ i bytes from `base`
    have hshort : size + s ≤ 2 ^ i := by
      rcases hline with hline | hshort
      · exact absurd ((Nat.pow_dvd_pow_iff_le_right (by decide)).mp (show 2 ^ 6 ∣ 2 ^ i from hline)) hlarge
      · exact hshort
    obtain ⟨q, rfl⟩ := hbase
    interval_cases i
    · omega
    · omega
    · omega

end Selib
