/-
Memory on the untrusted stack (`trts.cpp`).

The host chooses the stack pointer that an ECALL finds in the SSA.  `sgx_ocalloc` moves
it down over the new block, and writes to each page it passes, from the highest to the
lowest; `sgx_ocfree` puts it back to where the ECALL found it.  An abort ends the
enclave.

* `spec_sgxOcalloc` — one call, from any stack pointer;
* **`ocalloc_blocks`** — the blocks that are handed out between two calls of
  `sgx_ocfree`.
-/
import LinuxSgx.Trts.Range

namespace Trts

open Prog

/-- What the two functions read and write. -/
structure UStack where
  /-- `REG(sp_u)` of the first SSA frame. -/
  spU : UInt64
  /-- `xsp_u`, which the ECALL saved below `last_sp`. -/
  savedSp : UInt64
  /-- The bytes outside that were written to, the last one first. -/
  probed : List UInt64
deriving DecidableEq, Repr

/-- The loop over the pages.  It does not end if the pages come round to the first
one. -/
def probe (lastPage : UInt64) : ℕ → UInt64 → Prog UStack Unit
  | 0, _ => failure
  | fuel + 1, page => do
    if page ≥ lastPage then
      modify fun s => { s with spU := page, probed := page :: s.probed }
      probe lastPage fuel (page - 4096)

/-- The address of the block; `none` is `abort`. -/
def sgxOcalloc (e : Elrange) (size : UInt64) : Prog UStack (Option UInt64) := do
  let spU := (← get).spU
  if !sgxIsOutsideEnclave e spU 8 then return none
  else if spU < size then return none
  else
    -- `OC_ROUND` is 16
    let addr := roundDown 4 (spU - size)
    if !sgxIsOutsideEnclave e addr size then return none
    else
      let firstPage := trimToPage (spU - 1)
      let lastPage := trimToPage addr
      if lastPage = 0 then return none
      else
        probe lastPage (2 ^ 52) firstPage
        modify fun s => { s with spU := addr }
        return some addr

/-- False is `abort`. -/
def sgxOcfree (e : Elrange) : Prog UStack Bool := do
  let usp := (← get).savedSp
  if !sgxIsOutsideEnclave e usp 8 then return false
  else
    modify fun s => { s with spU := usp }
    return true

/-! ### One call -/

variable {e : Elrange} {s s' : UStack}

/-- What a call writes to outside: nothing of it is in the enclave. -/
def ProbesOutside (e : Elrange) (s s' : UStack) : Prop :=
  ∀ p ∈ s'.probed, p ∈ s.probed ∨ ¬e.Mem p.toNat

theorem ProbesOutside.trans {s'' : UStack} (h : ProbesOutside e s s')
    (h' : ProbesOutside e s' s'') : ProbesOutside e s s'' :=
  fun p hp => (h' p hp).elim (h p) .inr

/-- The loop ends, because the pages go down to a page that is not page zero. -/
theorem spec_probe {lastPage page : UInt64} {fuel : ℕ} (hlast : 4096 ≤ lastPage.toNat)
    (hfuel : page.toNat < 4096 * fuel) (s : UStack) :
    wp False (probe lastPage fuel page) (fun _ s' => ∀ p ∈ s'.probed, p ∈ s.probed ∨
      lastPage.toNat ≤ p.toNat ∧ p.toNat ≤ page.toNat) s := by
  induction fuel generalizing page s with
  | zero => omega
  | succ fuel ih =>
    rw [probe, wp_ite]
    refine ⟨fun hge => ?_, fun _ p hp => .inl hp⟩
    rw [ge_iff_le, UInt64.le_iff_toNat_le] at hge
    have hsub : (page - 4096).toNat = page.toNat - 4096 := by
      rw [UInt64.toNat_sub_of_le _ _ (by rw [UInt64.le_iff_toNat_le]; exact hlast.trans hge)]
      rfl
    refine wp_mono (ih (by omega) _) fun _ s' hs p hp => ?_
    rcases hs p hp with hold | hrange
    · rcases List.mem_cons.mp hold with rfl | hold
      · exact .inr ⟨hge, le_rfl⟩
      · exact .inl hold
    · exact .inr ⟨hrange.1, by omega⟩

/-- The block that a call returns. -/
structure Granted (e : Elrange) (sp size addr : ℕ) : Prop where
  aligned : addr % 16 = 0
  below : addr + size ≤ sp
  outside : ∀ x, addr ≤ x → x < addr + size → ¬e.Mem x

/-- What a call does, from any stack pointer; if it aborts it has done nothing. -/
structure Allocates (e : Elrange) (size : UInt64) (s : UStack) (r : Option UInt64) (s' : UStack) :
    Prop where
  probes : ProbesOutside e s s'
  aborted : r = none → s' = s
  granted : ∀ a, r = some a → s'.spU = a ∧ Granted e s.spU.toNat size.toNat a.toNat

theorem spec_sgxOcalloc (e : Elrange) (size : UInt64) (s : UStack) :
    wp False (sgxOcalloc e size) (Allocates e size s) s := by
  have habort : wp False (pure none : Prog UStack (Option UInt64)) (Allocates e size s) s :=
    ⟨fun p hp => .inl hp, fun _ => rfl, by simp⟩
  rw [sgxOcalloc, wp_bind, wp_get, wp_ite]
  refine ⟨fun _ => habort, fun hsp => ?_⟩
  rw [wp_ite]
  refine ⟨fun _ => habort, fun hsize => ?_⟩
  rw [wp_ite]
  refine ⟨fun _ => habort, fun haddr => ?_⟩
  rw [wp_ite]
  refine ⟨fun _ => habort, fun hzero => ?_⟩
  obtain ⟨-, hsp⟩ := apart_of_outside (by simpa using hsp)
  obtain ⟨-, haddr⟩ := apart_of_outside (by simpa using haddr)
  have hle : size ≤ s.spU := by simpa using hsize
  set addr := roundDown 4 (s.spU - size)
  have hround : addr.toNat = (s.spU.toNat - size.toNat) / 16 * 16 := by
    rw [toNat_roundDown (by decide), UInt64.toNat_sub_of_le _ _ hle]
    rfl
  have hlast : (trimToPage addr).toNat = addr.toNat / 4096 * 4096 := toNat_trimToPage addr
  have hpage : 4096 ≤ (trimToPage addr).toNat := by
    have : (trimToPage addr).toNat ≠ 0 := fun h => hzero (UInt64.toNat_inj.mp h)
    omega
  have hfirst : (trimToPage (s.spU - 1)).toNat ≤ s.spU.toNat - 1 := by
    have hone : 1 ≤ s.spU := by
      rw [UInt64.le_iff_toNat_le, UInt64.toNat_one]
      omega
    rw [toNat_trimToPage, UInt64.toNat_sub_of_le _ _ hone, UInt64.toNat_one]
    exact Nat.div_mul_le_self _ _
  have hbase := e.base_aligned
  have hsizes := e.size_aligned
  rw [wp_bind]
  have hfuel : (trimToPage (s.spU - 1)).toNat < 4096 * 2 ^ 52 := (trimToPage (s.spU - 1)).toNat_lt
  refine wp_mono (spec_probe hpage hfuel s) fun _ s' hs => ?_
  refine ⟨fun p hp => (hs p hp).imp_right ?_, by simp, ?_⟩
  · -- the page of the block is not below the end of the enclave, or the pointer is below
    -- its start: a block around the enclave would not have passed the check
    rintro ⟨hlow, hhigh⟩ ⟨hin, hin'⟩
    omega
  · rintro a ⟨⟩
    refine ⟨rfl, ⟨by omega, by omega, ?_⟩⟩
    rintro x hx hx' ⟨hin, hin'⟩
    omega

/-! ### Sequences of calls -/

/-- A block outside. -/
structure Block where
  addr : UInt64
  size : UInt64
deriving DecidableEq, Repr

inductive Call
  | ocalloc (size : UInt64)
  | ocfree
deriving DecidableEq, Repr

/-- The blocks in use after some calls, the newest first; an abort ends them. -/
def runCalls (e : Elrange) : List Call → List Block → Prog UStack (List Block)
  | [], live => return live
  | .ocalloc size :: calls, live => do
    match ← sgxOcalloc e size with
    | none => return live
    | some addr => runCalls e calls (⟨addr, size⟩ :: live)
  | .ocfree :: calls, live => do
    if ← sgxOcfree e then runCalls e calls [] else return live

/-- The blocks lie one below the other, above the stack pointer and outside. -/
structure Stacked (e : Elrange) (live : List Block) (s : UStack) : Prop where
  descending : live.Pairwise fun b c => b.addr.toNat + b.size.toNat ≤ c.addr.toNat
  above : ∀ b ∈ live, s.spU.toNat ≤ b.addr.toNat
  outside : ∀ b ∈ live, ∀ x, b.addr.toNat ≤ x → x < b.addr.toNat + b.size.toNat → ¬e.Mem x

theorem stacked_nil (e : Elrange) (s : UStack) : Stacked e [] s :=
  ⟨.nil, by simp, by simp⟩

theorem Stacked.push {live : List Block} {size addr : UInt64} (h : Stacked e live s)
    (hsp : s'.spU = addr) (hg : Granted e s.spU.toNat size.toNat addr.toNat) :
    Stacked e (⟨addr, size⟩ :: live) s' := by
  refine ⟨List.pairwise_cons.mpr ⟨fun b hb => ?_, h.descending⟩, ?_, ?_⟩
  · exact hg.below.trans (h.above b hb)
  · intro b hb
    rw [hsp]
    rcases List.mem_cons.mp hb with rfl | hb
    · exact le_rfl
    · have := hg.below
      have := h.above b hb
      omega
  · intro b hb
    rcases List.mem_cons.mp hb with rfl | hb
    · exact hg.outside
    · exact h.outside b hb

theorem spec_sgxOcfree (e : Elrange) (s : UStack) :
    wp False (sgxOcfree e) (fun ok s' => s'.probed = s.probed ∧ (ok = false → s' = s)) s := by
  rw [sgxOcfree, wp_bind, wp_get, wp_ite]
  exact ⟨fun _ => ⟨rfl, fun _ => rfl⟩, fun _ => ⟨rfl, by simp⟩⟩

theorem spec_runCalls (e : Elrange) (calls : List Call) {live : List Block}
    (h : Stacked e live s) : wp False (runCalls e calls live) (fun live' s' =>
      ProbesOutside e s s' ∧ Stacked e live' s') s := by
  induction calls generalizing live s with
  | nil => exact ⟨fun p hp => .inl hp, h⟩
  | cons call calls ih =>
    cases call with
    | ocalloc size =>
      rw [runCalls, wp_bind]
      refine wp_mono (spec_sgxOcalloc e size s) fun r s₁ h₁ => ?_
      cases r with
      | none =>
        cases h₁.aborted rfl
        exact ⟨h₁.probes, h⟩
      | some addr =>
        obtain ⟨hsp, hg⟩ := h₁.granted addr rfl
        exact wp_mono (ih (h.push hsp hg)) fun _ s₂ h₂ => ⟨h₁.probes.trans h₂.1, h₂.2⟩
    | ocfree =>
      rw [runCalls, wp_bind]
      refine wp_mono (spec_sgxOcfree e s) fun ok s₁ h₁ => ?_
      have hprobes : ProbesOutside e s s₁ := fun p hp => .inl (h₁.1 ▸ hp)
      cases ok with
      | false =>
        cases h₁.2 rfl
        exact ⟨hprobes, h⟩
      | true =>
        exact wp_mono (ih (stacked_nil e s₁)) fun _ s₂ h₂ => ⟨hprobes.trans h₂.1, h₂.2⟩

/-- Whatever the stack pointers are, and after any calls: the blocks in use are pairwise
disjoint and outside the enclave, and a further call of `sgx_ocalloc` ends, writes to
nothing in the enclave, and returns a block below the stack pointer that is aligned and
outside, unless it aborts. -/
theorem ocalloc_blocks (e : Elrange) (s : UStack) (calls : List Call) :
    ∃ live s₁, runCalls e calls [] s = some (live, s₁) ∧ ProbesOutside e s s₁ ∧
      Stacked e live s₁ ∧
      ∀ size, ∃ r s₂, sgxOcalloc e size s₁ = some (r, s₂) ∧ Allocates e size s₁ r s₂ := by
  obtain ⟨live, s₁, hrun, hprobes, hstacked⟩ :=
    wp_false_iff.mp (spec_runCalls e calls (stacked_nil e s))
  exact ⟨live, s₁, hrun, hprobes, hstacked, fun size => wp_false_iff.mp (spec_sgxOcalloc e size s₁)⟩

-- two blocks above the enclave, over a page boundary
example : runCalls ⟨0x10000, 0x10000, rfl, rfl, by decide⟩ [.ocalloc 0x2f, .ocalloc 0x1000] []
    ⟨0x30008, 0, []⟩ =
      some ([⟨0x2efd0, 0x1000⟩, ⟨0x2ffd0, 0x2f⟩],
        ⟨0x2efd0, 0, [0x2e000, 0x2f000, 0x2f000, 0x30000]⟩) := by
  decide +kernel

end Trts
