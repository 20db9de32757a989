/-
Changing the permissions of reserved memory.

`tprotect_internal` decides once for a whole range whether EMODPR and EMODPE are
needed, by comparing protection numbers over the descriptors it spans.  The
comparison is not the inclusion order, but it is good enough: whatever the pages
of the range had, as long as the processor and the descriptors agree, the two
steps end at the permissions asked for (`applied_eq`).

* **`spec_tprotectInternal`** — the effect on the pages, for any mixture of
  permissions;
* **`spec_sgxTprotectRsrvMem`** — every outcome of the call.
-/
import LinuxSgx.ReservedMem.Alloc

namespace ReservedMem

open Prog Dll Extents

variable {u : Prop} {c : Config} {l : List (Addr × Vrd)} {f : List Addr} {x n : ℕ} {s s' : St}
  {perms : SiPerms}

/-! ### Permissions of a page -/

section Perms

/-- The combinations that can be asked for. -/
def SiPerms.Askable (p : SiPerms) : Prop := p.r = false → p.w = false ∧ p.x = false

instance (p : SiPerms) : Decidable p.Askable := inferInstanceAs (Decidable (_ → _))

/-- What EMODPR and EMODPE leave of the permissions `o`, as far as they are carried out. -/
def applied (pr pe : Bool) (perms o : SiPerms) : SiPerms :=
  let o' := if (pr || pe) ∧ perms ≠ .rwx then o.inter perms else o
  if pe then o'.union perms else o'

/-- The processor and the descriptor agree about a page. -/
def Agrees (o : SiPerms) (t : Protect) : Prop := o.Askable ∧ t = convertSiFlagsToProtect o

/-- If nothing needed was left out, the page ends at the permissions asked for. -/
theorem applied_eq {pr pe : Bool} {o : SiPerms} {t : Protect} (hp : perms.Askable)
    (ho : Agrees o t) (hpr : prNeeded t (convertSiFlagsToProtect perms) → pr)
    (hpe : peNeeded t (convertSiFlagsToProtect perms) → pe) : applied pr pe perms o = perms := by
  obtain ⟨hask, rfl⟩ := ho
  revert pr pe
  obtain ⟨r, w, e⟩ := perms
  obtain ⟨r', w', e'⟩ := o
  revert r w e r' w' e'
  decide

end Perms

/-! ### Page operations -/

section Pages

/-- The permissions of a range go through `g`; nothing else changes. -/
structure Remaps (x n : ℕ) (g : SiPerms → SiPerms) (s s' : St) : Prop where
  vmm : s'.vmm = s.vmm
  firstAlloc : s'.firstAlloc = s.firstAlloc
  committed : s'.rsrvMemCommitted = s.rsrvMemCommitted
  pageOps : s'.pageOps = s.pageOps
  accepted : s'.accepted = s.accepted
  epcm : ∀ q, s'.epcm q = if x ≤ q ∧ q < x + n then g (s.epcm q) else s.epcm q

theorem Remaps.refl (x n : ℕ) (s : St) : Remaps x n (fun o => o) s s :=
  ⟨rfl, rfl, rfl, rfl, rfl, fun _ => (ite_self _).symm⟩

theorem Remaps.trans {g g' : SiPerms → SiPerms} {s'' : St} (h : Remaps x n g s s')
    (h' : Remaps x n g' s' s'') : Remaps x n (fun o => g' (g o)) s s'' := by
  refine ⟨h'.vmm.trans h.vmm, h'.firstAlloc.trans h.firstAlloc, h'.committed.trans h.committed,
    h'.pageOps.trans h.pageOps, h'.accepted.trans h.accepted, fun q => ?_⟩
  rw [h'.epcm, h.epcm]
  by_cases hq : x ≤ q ∧ q < x + n
  · simp only [if_pos hq]
  · simp only [if_neg hq]

theorem spec_nextPageOp (x n : ℕ) : wp u nextPageOp (fun _ s' => Remaps x n (fun o => o) s s') s := by
  simp only [nextPageOp, wp_bind, wp_get, wp_set, wp_pure]
  exact ⟨rfl, rfl, rfl, rfl, rfl, fun _ => (ite_self _).symm⟩

theorem spec_modifyEpcm (g : SiPerms → SiPerms) :
    wp u (modifyEpcm x n g) (fun _ s' => Remaps x n g s s') s := by
  rw [modifyEpcm, wp_modify]
  exact ⟨rfl, rfl, rfl, rfl, rfl, fun _ => rfl⟩

theorem spec_changePermissionsOcall :
    wp u (changePermissionsOcall x n perms) (fun b s' => b →
      Remaps x n (fun o => if perms ≠ .rwx then o.inter perms else o) s s') s := by
  rw [changePermissionsOcall, wp_bind]
  refine wp_mono (spec_nextPageOp x n) fun o s₁ h₁ => ?_
  rw [wp_ite]
  refine ⟨fun _ => ?_, fun _ => by simp⟩
  by_cases hp : perms = .rwx
  · simp only [hp, if_true, wp_pure, ne_eq, not_true_eq_false, if_false, forall_const]
    exact h₁
  · simp only [hp, if_false, wp_bind, ne_eq, not_false_eq_true, if_true]
    exact wp_mono (spec_modifyEpcm _) fun _ s₂ h₂ _ => h₁.trans h₂

theorem spec_eacceptModified (x n p : ℕ) :
    wp u (eacceptModified perms p) (fun _ s' => Remaps x n (fun o => o) s s') s := by
  rw [eacceptModified, wp_bind]
  refine wp_mono (spec_nextPageOp x n) fun o s₁ h₁ => ?_
  simp only [wp_bind, wp_get, wp_pure]
  exact h₁

theorem spec_restrictPages (needed : Bool) :
    wp u (restrictPages x n perms needed) (fun b s' => b →
      Remaps x n (fun o => if needed ∧ perms ≠ .rwx then o.inter perms else o) s s') s := by
  cases needed with
  | true => simpa [restrictPages] using spec_changePermissionsOcall
  | false => simpa [restrictPages] using Remaps.refl x n s

theorem spec_emodpePages (pe : Bool) :
    wp u (emodpePages x n perms pe) (fun _ s' =>
      Remaps x n (fun o => if pe then o.union perms else o) s s') s := by
  cases pe with
  | true => simpa [emodpePages] using spec_modifyEpcm _
  | false => simpa [emodpePages] using Remaps.refl x n s

theorem spec_acceptModifiedPages (pr : Bool) :
    wp u (acceptModifiedPages x n perms pr) (fun _ s' => Remaps x n (fun o => o) s s') s := by
  rw [acceptModifiedPages, wp_ite]
  refine ⟨fun _ => ?_, fun _ => Remaps.refl x n s⟩
  refine wp_forAll (fun _ s' => Remaps x n (fun o => o) s s') _ (fun pre p _ _ s' hs => ?_) (fun _ => id)
    (Remaps.refl x n s)
  refine wp_mono (spec_eacceptModified x n p) fun b s'' hb => ?_
  have := hs.trans hb
  cases b <;> exact this

theorem spec_mprotectNone (x n : ℕ) (pr : Bool) :
    wp u (mprotectNone perms pr) (fun _ s' => Remaps x n (fun o => o) s s') s := by
  rw [mprotectNone, wp_ite]
  refine ⟨fun _ => ?_, fun _ => Remaps.refl x n s⟩
  rw [wp_bind]
  exact wp_mono (spec_nextPageOp x n) fun _ _ h => h

/-- The permissions `perms` are reached on every page of the range about which
the processor and the descriptors agree. -/
structure Reached (l : List (Addr × Vrd)) (x n : ℕ) (perms : SiPerms) (s s' : St) : Prop where
  covered : Covered l x (x + n)
  remaps : ∃ g, Remaps x n g s s' ∧ (perms.Askable → ∀ q t, x ≤ q → q < x + n →
    pageMap l q = some t → Agrees (s.epcm q) t.perms → g (s.epcm q) = perms)

theorem spec_tprotectInternal (h : Rep s.vmm l f) (hw : Wf c l) (hb : c.rsrvBase ≤ x)
    (hx : 4096 ∣ x) (hn : 0 < n) (hal : 4096 ∣ n) (hfit : x + n < 2 ^ 64) :
    wp u (tprotectInternal x n perms) (fun r s' => r = .aborted ∨
      (r = .done .unexpected ∧ s' = s ∧ ¬Covered l x (x + n)) ∨
      (r = .done .success ∧ Reached l x n perms s s')) s := by
  have hwrap : wrap (x + n) = x + n := Nat.mod_eq_of_lt hfit
  rw [tprotectInternal, if_neg (by omega), wp_bind, wp_vmm, hwrap]
  refine wp_mono (spec_checkVrdsPrPeNeeded _ h hw hb) ?_
  rintro r v' ⟨hv, hr⟩
  subst hv
  cases r with
  | none => exact .inr (.inl ⟨rfl, rfl, hr⟩)
  | some needed =>
    obtain ⟨pr, pe⟩ := needed
    obtain ⟨hcov, hpr, hpe⟩ := hr
    dsimp only
    rw [wp_bind]
    refine wp_mono (spec_restrictPages _) fun b s₁ h₁ => ?_
    cases b with
    | false => exact .inl rfl
    | true =>
      simp only [if_true, wp_bind]
      refine wp_mono (spec_emodpePages _) fun _ s₂ h₂ => ?_
      refine wp_mono (spec_acceptModifiedPages _) fun b s₃ h₃ => ?_
      cases b with
      | false => exact .inl rfl
      | true =>
        simp only [if_true, wp_bind]
        refine wp_mono (spec_mprotectNone x n _) fun b s₄ h₄ => ?_
        cases b with
        | false => exact .inl rfl
        | true =>
          have hall : Remaps x n (applied pr pe perms) s s₄ :=
            (((h₁ rfl).trans h₂).trans h₃).trans h₄
          refine .inr (.inr ⟨rfl, hcov, _, hall, fun hask q t hq hq' hmap hag => ?_⟩)
          exact applied_eq hask hag (fun hneed => hpr.mpr ⟨q, t, hq, hq', hq', hmap, hneed⟩)
            fun hneed => hpe.mpr ⟨q, t, hq, hq', hq', hmap, hneed⟩

end Pages

/-! ### The call -/

section Call

/-- What a successful call does to the range `[x, x + n)`. -/
structure Protects (x n : ℕ) (perms : SiPerms) (s s' : St) : Prop where
  covered : ∀ p, x ≤ p → p < x + n → s.pages p ≠ none
  pages : ∀ p, s'.pages p = if x ≤ p ∧ p < x + n
    then (s.pages p).map ({ · with perms := convertSiFlagsToProtect perms }) else s.pages p
  committed : s'.rsrvMemCommitted = s.rsrvMemCommitted
  accepted : s'.accepted = s.accepted
  outside : ∀ q, ¬(x ≤ q ∧ q < x + n) → s'.epcm q = s.epcm q
  inside : ∀ q t, x ≤ q → q < x + n → s.pages q = some t → Agrees (s.epcm q) t.perms →
    s'.epcm q = perms

theorem spec_finishProtect (h : Rep s.vmm l f) (hw : Wf c l) (hb : c.rsrvBase ≤ x) (hx : 4096 ∣ x)
    (hn : 0 < n) (hal : 4096 ∣ n) (hE : Exact l x (x + n - 1)) :
    wp u (finishProtect x (x + n - 1) perms) (fun r v' => r = .success ∧ Mallocs s.vmm v' ∧
      ∃ l' f', Rep v' l' f' ∧ Wf c l' ∧ ∀ p, pageMap l' p = if x ≤ p ∧ p < x + n
        then (pageMap l p).map ({ · with perms := convertSiFlagsToProtect perms })
        else pageMap l p) s.vmm := by
  rw [finishProtect, wp_bind]
  refine wp_mono (spec_setPerms (convertSiFlagsToProtect perms) h hw hb hx (by omega) (by omega)) ?_
  rintro r v₁ ⟨hm₁, l₁, f₁, h₁, hw₁, hE₁⟩
  obtain ⟨rfl, hmap⟩ := hE₁ hE
  simp only [if_true, wp_bind]
  refine wp_mono (spec_combineVrds h₁ hw₁) ?_
  rintro _ v₂ ⟨hm₂, l₂, f₂, h₂, hw₂, hmap₂⟩
  refine ⟨rfl, hm₁.trans hm₂, l₂, f₂, h₂, hw₂, fun p => ?_⟩
  rw [hmap₂, hmap]
  simp only [Nat.le_sub_one_iff_lt (show 0 < x + n by omega)]

theorem spec_tprotectVrds (h : Rep s.vmm l f) (hw : Wf c l) (hb : c.rsrvBase ≤ x) (hx : 4096 ∣ x)
    (hn : 0 < n) (hal : 4096 ∣ n) (hfit : x + n < 2 ^ 64) (hask : perms.Askable) :
    wp u (tprotectVrds x n perms) (fun r s' => ∀ z, r = .done z →
      s'.firstAlloc = s.firstAlloc ∧ Mallocs s.vmm s'.vmm ∧ (∃ l' f', Rep s'.vmm l' f' ∧ Wf c l') ∧
      if z = .success then Protects x n perms s s' else s'.pages = s.pages ∧ Quiet s s') s := by
  rw [tprotectVrds, wp_bind, wp_vmm]
  refine wp_mono (spec_find x h (.of_wf hw)) ?_
  rintro r v₁ ⟨hv, hr⟩
  subst hv
  cases r with
  | none =>
    rintro z ⟨⟩
    exact ⟨rfl, Mallocs.refl _, ⟨l, f, h, hw⟩, rfl, Quiet.refl s⟩
  | some a =>
    rw [lastOf_eq hn hfit]
    simp only [wp_bind, wp_vmm]
    refine wp_mono (spec_splitVrdsIfNeeded h hw hb hx (by omega) (by omega)) ?_
    rintro r v₁ ⟨hm₁, l₁, f₁, h₁, hfin, hr⟩
    have hpages : pageMap v₁.vrds = s.pages := by rw [h.pages, h₁.vrds, hfin.pageMap]
    have hquiet : Quiet s { s with vmm := v₁ } := ⟨rfl, rfl, rfl, rfl, hm₁⟩
    cases r with
    | false =>
      rintro z ⟨⟩
      exact ⟨rfl, hm₁, ⟨l₁, f₁, h₁, hfin.wf⟩, hpages, hquiet⟩
    | true =>
      obtain ⟨hcutx, hcuty, hinx, hiny⟩ := hr
      simp only [if_true, wp_bind, wp_vmm]
      refine wp_mono (spec_find x h₁ (.of_wf hfin.wf)) ?_
      rintro r v₂ ⟨hv, hr⟩
      subst hv
      cases r with
      | none =>
        rintro z ⟨⟩
        exact ⟨rfl, hm₁, ⟨l₁, f₁, h₁, hfin.wf⟩, hpages, hquiet⟩
      | some a =>
        simp only [wp_bind, wp_vmm]
        refine wp_mono (spec_checkVrdsPagetype h₁ hfin.wf hb) ?_
        rintro b v₂ ⟨hv, hcov⟩
        subst hv
        cases b with
        | false =>
          rintro z ⟨⟩
          exact ⟨rfl, hm₁, ⟨l₁, f₁, h₁, hfin.wf⟩, hpages, hquiet⟩
        | true =>
          simp only [if_true, wp_bind]
          refine wp_mono (spec_tprotectInternal (s := { s with vmm := _ }) h₁ hfin.wf hb hx hn hal
            hfit) fun r s₂ hr => ?_
          rcases hr with rfl | ⟨rfl, rfl, -⟩ | ⟨rfl, hrch⟩
          · rintro z ⟨⟩
          · rintro z ⟨⟩
            exact ⟨rfl, hm₁, ⟨l₁, f₁, h₁, hfin.wf⟩, hpages, hquiet⟩
          · obtain ⟨hcov, g, hg, hperm⟩ := hrch
            have hE : Exact l₁ x (x + n - 1) := by
              refine ⟨hcutx, hcuty, ?_⟩
              rwa [Nat.sub_add_cancel (by omega)]
            have h₂ : Rep s₂.vmm l₁ f₁ := hg.vmm ▸ h₁
            simp only [wp_bind, wp_vmm]
            refine wp_mono (spec_finishProtect h₂ hfin.wf hb hx hn hal hE) ?_
            rintro r v₃ ⟨hr, hm₃, l₃, f₃, h₃, hw₃, hmap⟩
            subst hr
            rintro z ⟨⟩
            rw [hg.vmm] at hm₃
            refine ⟨hg.firstAlloc, hm₁.trans hm₃, ⟨l₃, f₃, h₃, hw₃⟩, ?_⟩
            rw [if_pos rfl]
            refine ⟨fun p h1 h2 => ?_, fun p => ?_, hg.committed, hg.accepted, fun q hq => ?_,
              fun q t h1 h2 hq hag => ?_⟩
            · rw [h.pages, ← hfin.pageMap]
              exact hcov p h1 h2
            · rw [Rep.pages (s := { s₂ with vmm := v₃ }) h₃, hmap, hfin.pageMap, h.pages]
            · exact (hg.epcm q).trans (if_neg hq)
            · rw [h.pages, ← hfin.pageMap] at hq
              exact (hg.epcm q).trans ((if_pos ⟨h1, h2⟩).trans (hperm hask q t h1 h2 hq hag))

theorem wp_findVrd_blank {Q : Option Addr → Vmm → Prop} {v : Vmm} (h : Blank v) :
    wp u (findVrd x) Q v ↔ Q none v := by
  rw [findVrd, wp_bind, wp_get, h.vrdl]
  cases v.nextAddr <;> rfl

/-- Without EDMM the call changes nothing. -/
theorem spec_tprotectWithoutEdmm (prot : Prot) (h : Valid c s) :
    wp u (tprotectWithoutEdmm x prot) (fun _ s' => s' = s) s := by
  have hend : ∀ q : Protect, wp u (if q = .noaccess ∨ q = .readwrite ∧ prot.exec = true
      then pure (.done .invalidParameter) else pure (.done .success) : Prog St (Ret SgxStatus))
      (fun _ s' => s' = s) s := fun q => by rw [wp_ite]; exact ⟨fun _ => rfl, fun _ => rfl⟩
  simp only [tprotectWithoutEdmm, wp_bind, wp_vmm]
  rcases h with ⟨-, hb⟩ | ⟨-, l, f, h, hw⟩
  · rw [wp_findVrd_blank hb]
    exact (wp_bind _ _ _).mpr (hend .unset)
  · refine wp_mono (spec_find x h (.of_wf hw)) ?_
    rintro r v' ⟨hv, hr⟩
    subst hv
    cases r with
    | none => exact (wp_bind _ _ _).mpr (hend .unset)
    | some a =>
      obtain ⟨pre, w, post, hl, -⟩ := hr
      simp only [wp_bind, wp_vmm, wp_node (h.cell hl), wp_pure]
      exact hend _

theorem sgxIsWithinEnclave_fits {c : Config} (h : sgxIsWithinEnclave c x n = true) (hn : 0 < n)
    (hx : x < 2 ^ 64) (hn' : n < 2 ^ 64) : x + n < 2 ^ 64 := by
  have h1 := c.elrange_lt
  have h2 := c.elrange_le
  have h3 := c.base_pos
  have h4 := c.rsrv_le
  simp only [sgxIsWithinEnclave, decide_eq_true_eq, hn, if_true] at h
  obtain ⟨ha, -, hb⟩ := h
  unfold lastOf wrap at ha hb
  omega

theorem spec_sgxTprotectRsrvMem (a n : UInt64) (prot : Prot) (h : Valid c s) :
    wp u (sgxTprotectRsrvMem c a n prot) (fun r s' => ∀ z, r = .done z → Valid c s' ∧
      Mallocs s.vmm s'.vmm ∧
      ((s'.pages = s.pages ∧ Quiet s s' ∧ (c.edmm → z ≠ .success)) ∨
        (c.edmm ∧ z = .success ∧ c.rsrvBase ≤ a.toNat ∧ prot.perms.Askable ∧
          Protects a.toNat n.toNat prot.perms s s'))) s := by
  have hstay : ∀ {z : SgxStatus}, z ≠ .success → Valid c s ∧ Mallocs s.vmm s.vmm ∧
      ((s.pages = s.pages ∧ Quiet s s ∧ (c.edmm → z ≠ .success)) ∨
        (c.edmm ∧ z = .success ∧ c.rsrvBase ≤ a.toNat ∧ prot.perms.Askable ∧
          Protects a.toNat n.toNat prot.perms s s)) := fun hz =>
    ⟨h, Mallocs.refl _, .inl ⟨rfl, Quiet.refl s, fun _ => hz⟩⟩
  rw [sgxTprotectRsrvMem, wp_ite]
  refine ⟨fun hno => ?_, fun hedmm => ?_⟩
  · refine wp_mono (spec_tprotectWithoutEdmm prot h) fun r s' hs z _ => ?_
    subst hs
    exact ⟨h, Mallocs.refl _, .inl ⟨rfl, Quiet.refl _, fun he => by simp [he] at hno⟩⟩
  have hedmm : c.edmm = true := by simpa using hedmm
  rw [wp_ite]
  refine ⟨fun _ z hz => ?_, fun hin => ?_⟩
  · cases hz
    exact hstay (by decide)
  have hin : sgxIsWithinEnclave c a.toNat n.toNat = true := by simpa using hin
  rw [wp_ite]
  refine ⟨fun _ z hz => ?_, fun _ => ?_⟩
  · cases hz
    exact hstay (by decide)
  rw [wp_ite]
  refine ⟨fun _ z hz => ?_, fun hargs => ?_⟩
  · cases hz
    exact hstay (by decide)
  rw [wp_ite]
  refine ⟨fun _ z hz => ?_, fun hprot => ?_⟩
  · cases hz
    exact hstay (by decide)
  have hask : prot.perms.Askable := by
    intro hr
    have hr : prot.read = false := hr
    simp only [hr, Bool.not_false, Bool.true_and, Bool.or_eq_true, not_or] at hprot
    show prot.write = false ∧ prot.exec = false
    exact ⟨by simpa using hprot.1.1, by simpa using hprot.1.2⟩
  rcases h with ⟨hfirst, hb⟩ | ⟨hfirst, l, f, h, hw⟩
  · simp only [tprotectVrds, wp_bind, wp_vmm, wp_findVrd_blank hb]
    rintro z ⟨⟩
    exact hstay (by decide)
  · have hpos : 0 < n.toNat := by omega
    refine wp_mono (spec_tprotectVrds h hw (by omega) (by omega) hpos (by omega)
      (sgxIsWithinEnclave_fits hin hpos a.toNat_lt n.toNat_lt) hask) fun r s' hr z hz => ?_
    obtain ⟨hf', hm, ⟨l', f', h', hw'⟩, hz'⟩ := hr z hz
    refine ⟨.inr ⟨hf'.trans hfirst, l', f', h', hw'⟩, hm, ?_⟩
    by_cases hs : z = .success
    · rw [if_pos hs] at hz'
      exact .inr ⟨hedmm, hs, by omega, hask, hz'⟩
    · rw [if_neg hs] at hz'
      exact .inl ⟨hz'.1, hz'.2, fun _ => hs⟩

end Call

end ReservedMem
