/-
Freeing reserved memory.

The call first cuts the descriptors at both ends of the range and then removes
the descriptors between.  It goes on when cutting has failed, and it does not
look at what `free_vrds` says; so exactly the range is freed if and only if there
were descriptors for the cuts that were needed (`Enough`) and nothing in between
was missing.

* **`spec_sgxFreeRsrvMem`** — every outcome of the call.
-/
import LinuxSgx.ReservedMem.Protect

namespace ReservedMem

open Prog Dll Extents

variable {u : Prop} {c : Config} {l : List (Addr × Vrd)} {f : List Addr} {x n : ℕ} {s s' : St}

/-- The pages of `[x, x + n)` and no others become free. -/
structure Frees (x n : ℕ) (s s' : St) : Prop where
  covered : ∀ p, x ≤ p → p < x + n → s.pages p ≠ none
  pages : ∀ p, s'.pages p = if x ≤ p ∧ p < x + n then none else s.pages p

/-- The descriptors that the cuts at both ends of the range take can be had. -/
def Enough (x n : ℕ) (s : St) : Prop := Supply s.vmm (cutsNeeded s.vmm.vrds x (x + n))

/-- What the call does to the pages when it succeeds. -/
structure Releases (c : Config) (x n : ℕ) (s s' : St) : Prop where
  committed : s'.rsrvMemCommitted = s.rsrvMemCommitted
  accepted : s'.accepted = s.accepted
  shrinks : ∀ p, s.pages p = none → s'.pages p = none
  outside : ∀ q, ¬(x ≤ q ∧ q < x + n) → s'.epcm q = s.epcm q
  inside : c.edmm → ∀ q t, x ≤ q → q < x + n → s.pages q = some t → Agrees (s.epcm q) t.perms →
    s'.epcm q = .rw
  enough : ¬MallocFailed s.vmm s'.vmm →
    (c.edmm ∨ ∀ p, x ≤ p → p < x + n → s.pages p ≠ none) → Enough x n s
  frees : (c.edmm ∨ ∀ p, x ≤ p → p < x + n → s.pages p ≠ none) →
    (Frees x n s s' ↔ Enough x n s)

/-- Reset the permissions, if there is EDMM. -/
theorem spec_resetPerms (h : Rep s.vmm l f) (hw : Wf c l) (hb : c.rsrvBase ≤ x) (hx : 4096 ∣ x)
    (hn : 0 < n) (hal : 4096 ∣ n) (hfit : x + n < 2 ^ 64) :
    wp u (resetPerms c x n) (fun r s' => r = .aborted ∨ (r = .done .unexpected ∧ s' = s) ∨
      (r = .done .success ∧ (c.edmm → Covered l x (x + n)) ∧ ∃ g, Remaps x n g s s' ∧
        (c.edmm → ∀ q t, x ≤ q → q < x + n → pageMap l q = some t → Agrees (s.epcm q) t.perms →
          g (s.epcm q) = .rw))) s := by
  unfold resetPerms
  by_cases he : c.edmm
  · rw [if_pos he]
    refine wp_mono (spec_tprotectInternal h hw hb hx hn hal hfit) fun r s' hr => ?_
    rcases hr with rfl | ⟨rfl, rfl, -⟩ | ⟨rfl, hcov, g, hg, hperm⟩
    · exact .inl rfl
    · exact .inr (.inl ⟨rfl, rfl⟩)
    · exact Or.inr (Or.inr ⟨rfl, fun _ => hcov, g, hg, fun _ => hperm (by decide)⟩)
  · rw [if_neg he]
    exact Or.inr (Or.inr ⟨rfl, fun h => absurd h he, _, Remaps.refl x n s, fun h => absurd h he⟩)

/-- The list that is left: the descriptors that meet the range are gone. -/
theorem spec_unmap (h : Rep s.vmm l f) (hw : Wf c l) (hb : c.rsrvBase ≤ x) (hx : 4096 ∣ x)
    (hn : 0 < n) (hal : 4096 ∣ n) (hfit : x + n < 2 ^ 64) :
    wp u (unmap c x n) (fun r s' => ∀ z, r = .done z → s'.firstAlloc = s.firstAlloc ∧
      Mallocs s.vmm s'.vmm ∧ ∃ l' f', Rep s'.vmm l' f' ∧ Wf c l' ∧
      if z then (c.edmm → Covered l x (x + n)) ∧ s'.rsrvMemCommitted = s.rsrvMemCommitted ∧
        s'.accepted = s.accepted ∧ (∀ p, pageMap l p = none → pageMap l' p = none) ∧
        (∀ q, ¬(x ≤ q ∧ q < x + n) → s'.epcm q = s.epcm q) ∧
        (c.edmm → ∀ q t, x ≤ q → q < x + n → pageMap l q = some t → Agrees (s.epcm q) t.perms →
          s'.epcm q = .rw) ∧
        (Covered l x (x + n) → ∃ lo hi, Hull l x (x + n - 1) lo hi ∧ ∀ p, pageMap l' p
          = if lo ≤ p ∧ p < hi then none else pageMap l p)
      else s' = s ∧ l' = l) s := by
  rw [unmap, wp_bind]
  refine wp_mono (spec_resetPerms h hw hb hx hn hal hfit) fun r s₁ hr => ?_
  rcases hr with rfl | ⟨rfl, rfl⟩ | ⟨hr, hcov, hr'⟩
  · rintro z ⟨⟩
  · rintro z ⟨⟩
    exact ⟨rfl, Mallocs.refl _, l, f, h, hw, rfl, rfl⟩
  · subst hr
    simp only [wp_bind, wp_vmm, lastOf_eq hn hfit]
    obtain ⟨g, hg, hperm⟩ := hr'
    have h₁ : Rep s₁.vmm l f := hg.vmm ▸ h
    refine wp_mono (spec_freeVrds h₁ hw hb hx (by omega) (by omega)) ?_
    rintro r v₂ ⟨hm₂, l₂, f₂, h₂, hw₂, hsub, hE⟩
    rintro z ⟨⟩
    rw [hg.vmm] at hm₂
    refine ⟨hg.firstAlloc, hm₂, l₂, f₂, h₂, hw₂, hcov, hg.committed, hg.accepted, hsub, fun q hq => ?_,
      fun he q t h1 h2 hq hag => ?_, fun hcov => hE ?_⟩
    · exact (hg.epcm q).trans (if_neg hq)
    · exact (hg.epcm q).trans ((if_pos ⟨h1, h2⟩).trans (hperm he q t h1 h2 hq hag))
    · rwa [Nat.sub_add_cancel (by omega)]

/-- The call frees exactly its range if and only if both ends are cut: what the hull of the range has
beyond it is freed as well. -/
theorem frees_iff_cut {l₁ l₂ : List (Addr × Vrd)} {f₂ : List Addr} {lo hi : ℕ} (h : Rep s.vmm l f)
    (h₂ : Rep s'.vmm l₂ f₂) (hfin : Finer c l l₁) (hn : 0 < n) (hcov : Covered l x (x + n))
    (hhull : Hull l₁ x (x + n - 1) lo hi)
    (hmap : ∀ p, pageMap l₂ p = if lo ≤ p ∧ p < hi then none else pageMap l₁ p) :
    Frees x n s s' ↔ Cut (extents l₁) x ∧ Cut (extents l₁) (x + n) := by
  have hlast : x + n - 1 + 1 = x + n := by omega
  constructor
  · intro hfrees
    rw [← hlast]
    refine hhull.cut_of_inside hfin.wf (by omega) ?_
    intro p h1 h2 hp
    by_contra hout
    have hsame := hfrees.pages p
    rw [h₂.pages, hmap, if_pos ⟨h1, h2⟩, if_neg (by omega), h.pages, ← hfin.pageMap] at hsame
    exact hp hsame.symm
  · rintro ⟨hcx, hcy⟩
    obtain ⟨rfl, rfl⟩ := hhull.eq_of_cut hcx (hlast.symm ▸ hcy)
    refine ⟨fun p h1 h2 => ?_, fun p => ?_⟩
    · rw [h.pages]
      exact hcov p h1 h2
    · rw [h₂.pages, hmap, hlast, hfin.pageMap, h.pages]

/-- The rest of the call after the ends were cut, or could not be. -/
theorem spec_unmap_split {v₁ : Vmm} {l₁ : List (Addr × Vrd)} {f₁ : List Addr} (h : Rep s.vmm l f)
    (h₁ : Rep v₁ l₁ f₁) (hfin : Finer c l l₁) (hm₁ : Mallocs s.vmm v₁) (hb : c.rsrvBase ≤ x)
    (hx : 4096 ∣ x) (hn : 0 < n) (hal : 4096 ∣ n) (hfit : x + n < 2 ^ 64)
    (hcut : pageMap l (x + n - 1) ≠ none → (¬MallocFailed s.vmm v₁ → Enough x n s) ∧
      (Cut (extents l₁) x ∧ Cut (extents l₁) (x + n) ↔ Enough x n s)) :
    wp u (unmap c x n) (fun r s' => ∀ z, r = .done z → s'.firstAlloc = s.firstAlloc ∧
      Mallocs s.vmm s'.vmm ∧ (∃ l' f', Rep s'.vmm l' f' ∧ Wf c l') ∧
      if z then Releases c x n s s' else s'.pages = s.pages ∧ Quiet s s')
      { s with vmm := v₁ } := by
  refine wp_mono (spec_unmap (s := { s with vmm := v₁ }) h₁ hfin.wf hb hx hn hal hfit)
    fun r s₂ hr z hz => ?_
  obtain ⟨hf₂, hm₂, l₂, f₂, h₂, hw₂, hz'⟩ := hr z hz
  refine ⟨hf₂, hm₁.trans hm₂, ⟨l₂, f₂, h₂, hw₂⟩, ?_⟩
  cases z with
  | false =>
    obtain ⟨rfl, rfl⟩ := hz'
    refine ⟨?_, rfl, rfl, rfl, rfl, hm₁⟩
    rw [h₂.pages, hfin.pageMap, h.pages]
  | true =>
    obtain ⟨hcov, hcom, hacc, hsub, hout, hins, hE⟩ := hz'
    -- with EDMM the reset of the permissions has looked at every page
    have hcovered : (c.edmm ∨ ∀ p, x ≤ p → p < x + n → s.pages p ≠ none) →
        Covered l x (x + n) := by
      intro hall p h1 h2
      rcases hall with he | hall
      · rw [← hfin.pageMap]
        exact hcov he p h1 h2
      · rw [← h.pages]
        exact hall p h1 h2
    refine ⟨hcom, hacc, fun p hp => ?_, hout, fun he q t h1 h2 hq hag => ?_,
      fun hno hall => ?_, fun hall => ?_⟩
    · rw [h₂.pages]
      refine hsub p ?_
      rwa [hfin.pageMap, ← h.pages]
    · rw [h.pages, ← hfin.pageMap] at hq
      exact hins he q t h1 h2 hq hag
    · exact (hcut (hcovered hall _ (by omega) (by omega))).1
        fun hf => hno (hf.mono (Mallocs.refl _) hm₂)
    · replace hcov := hcovered hall
      have hcov₁ : Covered l₁ x (x + n) := by
        intro p h1 h2
        rw [hfin.pageMap]
        exact hcov p h1 h2
      obtain ⟨lo, hi, hhull, hmap⟩ := hE hcov₁
      rw [← (hcut (hcov _ (by omega) (by omega))).2]
      exact frees_iff_cut h h₂ hfin hn hcov hhull hmap

theorem spec_freeMapped (h : Rep s.vmm l f) (hw : Wf c l) (hb : c.rsrvBase ≤ x) (hx : 4096 ∣ x)
    (hn : 0 < n) (hal : 4096 ∣ n) (hfit : x + n < 2 ^ 64) (hin : pageMap l x ≠ none) :
    wp u (freeMapped c x n) (fun r s' => ∀ z, r = .done z → s'.firstAlloc = s.firstAlloc ∧
      Mallocs s.vmm s'.vmm ∧ (∃ l' f', Rep s'.vmm l' f' ∧ Wf c l') ∧
      if z then Releases c x n s s' else s'.pages = s.pages ∧ Quiet s s') s := by
  simp only [freeMapped, wp_bind, wp_vmm, lastOf_eq hn hfit]
  refine wp_mono (spec_splitVrdsIfNeeded h hw hb hx (by omega) (by omega)) ?_
  rintro b v₁ ⟨hm₁, l₁, f₁, h₁, hfin, hr⟩
  rw [Nat.sub_add_cancel (by omega)] at hr
  -- the ends are cut if and only if there were descriptors for it
  have hcut : pageMap l (x + n - 1) ≠ none → (¬MallocFailed s.vmm v₁ → Enough x n s) ∧
      (Cut (extents l₁) x ∧ Cut (extents l₁) (x + n) ↔ Enough x n s) := by
    intro hlast
    rw [Enough, h.vrds]
    cases b with
    | true =>
      obtain ⟨hcx, hcy, -, -, hsup⟩ := hr
      exact ⟨fun _ => hsup, fun _ => hsup, fun _ => ⟨hcx, hcy⟩⟩
    | false =>
      obtain ⟨⟨hfail, hno⟩, hun⟩ := (hr.resolve_left hin).resolve_left hlast
      exact ⟨fun h => absurd hfail h, fun h => absurd h hun, fun h => absurd h hno⟩
  have hrest := spec_unmap_split (u := u) h h₁ hfin hm₁ hb hx hn hal hfit hcut
  rw [wp_ite]
  refine ⟨fun hb' => ?_, fun _ => hrest⟩
  -- after the cuts the source looks up the start again, which is still there
  simp only [wp_bind, wp_vmm]
  refine wp_mono (spec_find x h₁ (.of_wf hfin.wf)) ?_
  rintro r v₂ ⟨hv, hr⟩
  subst hv
  rw [if_neg]
  · exact hrest
  · rintro rfl
    rw [hfin.pageMap] at hr
    exact hin hr

theorem spec_sgxFreeRsrvMem (a n : UInt64) (h : Valid c s) :
    wp u (sgxFreeRsrvMem c a n) (fun r s' => ∀ z, r = .done z → Valid c s' ∧
      Mallocs s.vmm s'.vmm ∧
      if z then c.rsrvBase ≤ a.toNat ∧ Releases c a.toNat n.toNat s s'
      else s'.pages = s.pages ∧ Quiet s s') s := by
  have hstay : Valid c s ∧ Mallocs s.vmm s.vmm ∧ s.pages = s.pages ∧ Quiet s s :=
    ⟨h, Mallocs.refl _, rfl, Quiet.refl s⟩
  rw [sgxFreeRsrvMem, wp_ite]
  refine ⟨fun hargs => ?_, fun _ z hz => by cases hz; exact hstay⟩
  simp only [freeArgs, decide_eq_true_eq, not_or] at hargs
  obtain ⟨-, -, hal, hn, hal', hin, hb, -, -⟩ := hargs
  have hpos : 0 < n.toNat := by omega
  have hfit := sgxIsWithinEnclave_fits (by simpa using hin) hpos a.toNat_lt n.toNat_lt
  simp only [wp_bind, wp_vmm]
  rcases h with ⟨hfirst, hbl⟩ | ⟨hfirst, l, f, h, hw⟩
  · rw [wp_findVrd_blank hbl]
    rintro z ⟨⟩
    exact hstay
  · refine wp_mono (spec_find a.toNat h (.of_wf hw)) ?_
    rintro r v' ⟨hv, hr⟩
    subst hv
    cases r with
    | none =>
      rintro z ⟨⟩
      exact hstay
    | some d =>
      obtain ⟨pre, w, post, hl, hhas⟩ := hr
      have hin' : pageMap l a.toNat ≠ none := by
        rw [hw.pageMap_eq (a := d) (by simp [hl]) hhas]
        simp
      refine wp_mono (spec_freeMapped h hw (by omega) (by omega) hpos (by omega) hfit hin')
        fun r s' hr z hz => ?_
      obtain ⟨hf', hm, ⟨l', f', h', hw'⟩, hz'⟩ := hr z hz
      refine ⟨.inr ⟨hf'.trans hfirst, l', f', h', hw'⟩, hm, ?_⟩
      cases z with
      | true => exact ⟨by omega, hz'⟩
      | false => exact hz'

end ReservedMem
