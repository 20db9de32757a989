/-
Allocation of reserved memory.

`Valid c s` is the invariant between calls: before the first successful
initialisation there are no descriptors at all, afterwards the state represents a
well-formed list.  The pages of a state are what its list says (`St.pages`).

* **`spec_initRsrvMemVrd`** — initialisation leaves the locked descriptor, or
  nothing;
* **`spec_commitUpTo`** — the mark of committed memory moves, and the pages
  between the old and the new mark are accepted (`Accounted`);
* **`spec_sgxAllocRsrvMemEx`** — every outcome of an allocation.
-/
import LinuxSgx.ReservedMem.Walks

namespace ReservedMem

open Prog Dll Extents List

variable {u : Prop} {c : Config} {v v' : Vmm} {l pre post : List (Addr × Vrd)} {f : List Addr}
  {a : Addr} {x y n : ℕ} {s s' : St}

/-! ### States between calls -/

section States

/-- The descriptors reached by following pointers. -/
def chain (h : Heap Vrd) : ℕ → Option Addr → List (Addr × Vrd)
  | n + 1, some a =>
    match h a with
    | some nd => (a, nd.val) :: chain h n nd.next
    | none => []
  | _, _ => []

/-- The list that `g_vrdl` starts. -/
def Vmm.vrds (v : Vmm) : List (Addr × Vrd) := chain v.heap v.nextAddr v.vrdl

theorem chain_eq {h : Heap Vrd} {q : Option Addr} (hs : Seg h q l none) (hn : l.length ≤ n) :
    chain h n (first l) = l := by
  induction l generalizing q n with
  | nil => cases n <;> rfl
  | cons d l ih =>
    obtain ⟨n, rfl⟩ : ∃ m, n = m + 1 := Nat.exists_eq_add_one.mpr (Nat.zero_lt_of_lt hn)
    obtain ⟨hcell, htail⟩ := seg_cons.mp hs
    rw [Option.or_none] at hcell
    simp only [first_cons, chain, hcell]
    rw [ih htail (Nat.le_of_succ_le_succ hn)]

theorem Rep.vrds (h : Rep v l f) : v.vrds = l := by
  rw [Vmm.vrds, h.vrdl]
  exact chain_eq h.list h.length_le

/-- There are no descriptors, listed or free. -/
structure Blank (v : Vmm) : Prop where
  vrdl : v.vrdl = none
  freeList : v.freeList = none

theorem Blank.vrds (h : Blank v) : v.vrds = [] := by
  rw [Vmm.vrds, h.vrdl]
  cases v.nextAddr <;> rfl

/-- What the descriptors say about an address. -/
def St.pages (s : St) : ℕ → Option VrdAttrs := pageMap s.vmm.vrds

/-- The list is there and well formed. -/
def Ready (c : Config) (s : St) : Prop :=
  s.firstAlloc = false ∧ ∃ l f, Rep s.vmm l f ∧ Wf c l

/-- The invariant between calls. -/
def Valid (c : Config) (s : St) : Prop := (s.firstAlloc = true ∧ Blank s.vmm) ∨ Ready c s

theorem Rep.pages (h : Rep s.vmm l f) : s.pages = pageMap l := by
  rw [St.pages, h.vrds]

theorem Blank.pages (h : Blank s.vmm) (p : ℕ) : s.pages p = none := by
  rw [St.pages, h.vrds]
  rfl

@[simp] theorem wp_vmm {α : Type} {Q : α → St → Prop} (m : Prog Vmm α) :
    wp u (vmm m) Q s ↔ wp u m (fun r v => Q r { s with vmm := v }) s.vmm :=
  wp_zoom m

/-- Only the descriptors differ, not the pages of memory. -/
structure Quiet (s s' : St) : Prop where
  committed : s'.rsrvMemCommitted = s.rsrvMemCommitted
  epcm : s'.epcm = s.epcm
  accepted : s'.accepted = s.accepted
  pageOps : s'.pageOps = s.pageOps
  mallocs : Mallocs s.vmm s'.vmm

theorem Quiet.refl (s : St) : Quiet s s := ⟨rfl, rfl, rfl, rfl, Mallocs.refl _⟩

theorem Quiet.trans {s'' : St} (h : Quiet s s') (h' : Quiet s' s'') : Quiet s s'' :=
  ⟨h'.committed.trans h.committed, h'.epcm.trans h.epcm, h'.accepted.trans h.accepted,
    h'.pageOps.trans h.pageOps, h.mallocs.trans h'.mallocs⟩

end States

/-! ### Initialisation -/

section Init

theorem spec_releaseFreeList (hl : v.freeList = f.head?) (hs : Stack v.heap f) (hf : f.Nodup)
    (hn : f.length ≤ n) :
    wp u (releaseFreeList n) (fun _ v' => v'.freeList = none ∧ v'.vrdl = v.vrdl ∧ Mallocs v v')
      v := by
  induction f generalizing v n with
  | nil => cases n <;> simp [releaseFreeList, hl, Mallocs.refl]
  | cons a f ih =>
    obtain ⟨n, rfl⟩ : ∃ m, n = m + 1 := Nat.exists_eq_add_one.mpr (Nat.zero_lt_of_lt hn)
    obtain ⟨⟨nd, hcell, hnext⟩, hrest⟩ := hs
    obtain ⟨ha, hf⟩ := nodup_cons.mp hf
    simp only [releaseFreeList, wp_bind, wp_get, hl, List.head?_cons, wp_node hcell, wp_modify]
    rw [wp_free (s := { v with freeList := nd.next }) hcell]
    refine wp_mono (ih hnext (hrest.update ha _) hf (Nat.le_of_succ_le_succ hn)) ?_
    rintro _ v' ⟨h1, h2, hm⟩
    exact ⟨h1, h2, hm.same, hm.le⟩

theorem spec_initFill (h : Rep v [] f) :
    wp u (initFill n) (fun r v' => Mallocs v v' ∧
      if r then ∃ f', Rep v' [] f' else Blank v' ∧ MallocFailed v v') v := by
  induction n generalizing v f with
  | zero => exact ⟨Mallocs.refl v, f, h⟩
  | succ n ih =>
    simp only [initFill, wp_bind, wp_get]
    rw [wp_ite]
    refine ⟨fun _ => ?_, fun _ => ⟨Mallocs.refl v, f, h⟩⟩
    rw [wp_bind]
    refine wp_mono (spec_malloc h) ?_
    rintro r v₁ ⟨h₁, hsame, hcount, hr⟩
    have hm₁ : Mallocs v v₁ := ⟨hsame, by omega⟩
    rw [wp_bind]
    cases r with
    | none =>
      have hlen : f.length ≤ v₁.nextAddr := by
        have hsub : f ⊆ List.range v₁.nextAddr := fun a ha =>
          mem_range.mpr (h₁.fresh a (mem_append_right _ ha))
        simpa using (subperm_of_subset h₁.nodup.of_append_right hsub).length_le
      simp only [freeListPutVrd, wp_pure, Bool.false_eq_true, if_false, wp_bind, wp_get]
      refine wp_mono (spec_releaseFreeList h₁.freeList h₁.stack h₁.nodup.of_append_right hlen) ?_
      rintro _ v₂ ⟨hf₂, hl₂, hm₂⟩
      have hle := hm₂.le
      exact ⟨hm₁.trans hm₂, ⟨hl₂.trans h₁.vrdl, hf₂⟩, v.mallocCount, le_rfl, by omega, hr⟩
    | some a =>
      refine wp_mono (spec_freeListPutVrd h₁ hr.2) ?_
      rintro b v₂ ⟨hb, h₂, hm₂⟩
      subst hb
      have hm := hm₁.trans hm₂.mallocs
      refine wp_mono (ih h₂) fun r v₃ ⟨hm₃, hr₃⟩ => ⟨hm.trans hm₃, ?_⟩
      cases r with
      | true => exact hr₃
      | false => exact ⟨hr₃.1, hr₃.2.mono hm (Mallocs.refl v₃)⟩

theorem spec_initVrdl (h : Blank v) :
    wp u initVrdl (fun r v' => Mallocs v v' ∧
      if r then ∃ f', Rep v' [] f' else Blank v' ∧ MallocFailed v v') v := by
  rw [initVrdl, wp_bind, wp_get, if_neg (by simp [h.vrdl, h.freeList]), wp_bind, wp_modify]
  have h₁ : Rep { v with freeListCount := 0 } [] [] :=
    ⟨h.vrdl, trivial, h.freeList, trivial, rfl, nodup_nil, by simp⟩
  exact wp_mono (spec_initFill h₁) fun r v' ⟨hm, hr⟩ => ⟨⟨hm.same, hm.le⟩, hr⟩

theorem wf_locked (c : Config) (a : Addr) : Wf c [(a, lockedVrd c)] :=
  ⟨⟨a, [], rfl⟩, by simp, sorted_cons.mpr ⟨c.offset_pos, ⟨by simp, List.Pairwise.nil⟩, by simp⟩⟩

theorem pageMap_locked (hx : c.rsrvBase ≤ x) : pageMap [(a, lockedVrd c)] x = none :=
  tagAt_eq_none.mpr fun e he hin => by
    obtain rfl := mem_singleton.mp he
    exact absurd hin.2 (not_lt.mpr hx)

theorem spec_initRsrvMemVrd (h : Blank v) :
    wp u (initRsrvMemVrd c) (fun r v' => Mallocs v v' ∧
      match r with
      | none => ∃ a f', Rep v' [(a, lockedVrd c)] f'
      | some e => e = .enomem ∧ Blank v' ∧ MallocFailed v v') v := by
  rw [initRsrvMemVrd, wp_bind]
  refine wp_mono (spec_initVrdl h) ?_
  rintro r v₁ ⟨hm₁, hr⟩
  cases r with
  | false => exact ⟨hm₁, rfl, hr.1, hr.2⟩
  | true =>
    obtain ⟨f₁, h₁⟩ := hr
    have hfits : c.enclaveBase + c.rsrvOffset < 2 ^ 64 := lockedVrd_fits c
    have hlast := c.lastOf_rsrv
    have hend : c.rsrvEnd = c.enclaveBase + c.rsrvOffset + c.rsrvSize := rfl
    have h0 := c.base_pos
    have hpos := c.offset_pos
    simp only [if_true, insertVrd, chooseAddr, wp_bind, h0.ne', if_false, wp_pure]
    rw [if_neg]
    · rw [wp_bind]
      refine wp_mono (spec_getVrd h₁) ?_
      rintro r v₂ ⟨hm₂, hr⟩
      cases r with
      | none =>
        exact ⟨hm₁.trans hm₂, rfl, ⟨hr.2.vrdl, hr.2.freeList⟩, hr.1.1.mono hm₁ (Mallocs.refl v₂)⟩
      | some a =>
        obtain ⟨-, f₂, h₂, ha⟩ := hr
        refine wp_mono (spec_insertAt h₂ ⟨by simp [extents], List.Pairwise.nil⟩ (by simp) ha hpos
          hfits (by simp)) ?_
        rintro r v₃ ⟨hm₃, hr⟩
        rcases hr with ⟨pre, post, hnil, rfl, h₃, -⟩ | ⟨-, -, p, hp, -⟩
        · obtain ⟨rfl, rfl⟩ := append_eq_nil_iff.mp hnil.symm
          exact ⟨(hm₁.trans hm₂).trans hm₃, a, f₂, h₃⟩
        · cases hp
    · rw [hlast, lastOf_eq hpos hfits, false_or]
      omega

theorem spec_firstInit (h : Valid c s) :
    wp u (firstInit c) (fun r s' => Quiet s s' ∧ (∀ p, c.rsrvBase ≤ p → s'.pages p = s.pages p) ∧
      match r with
      | none => Ready c s'
      | some e => e = .enomem ∧ Valid c s' ∧ MallocFailed s.vmm s'.vmm) s := by
  simp only [firstInit, wp_bind, wp_get]
  rcases h with ⟨hfirst, hb⟩ | hr
  · rw [if_pos hfirst, wp_bind, wp_vmm]
    refine wp_mono (spec_initRsrvMemVrd hb) ?_
    rintro r v₁ ⟨hm, hr⟩
    cases r with
    | some e =>
      obtain ⟨rfl, hb₁, hf⟩ := hr
      refine ⟨⟨rfl, rfl, rfl, rfl, hm⟩, fun p _ => ?_, rfl, .inl ⟨hfirst, hb₁⟩, hf⟩
      exact (Blank.pages hb₁ p).trans (hb.pages p).symm
    | none =>
      obtain ⟨a, f₁, h₁⟩ := hr
      refine ⟨⟨rfl, rfl, rfl, rfl, hm⟩, fun p hp => ?_, rfl, _, _, h₁, wf_locked c a⟩
      rw [hb.pages p]
      exact (congrFun (Rep.pages (s := ⟨v₁, false, _, _, _, _, _, _⟩) h₁) p).trans
        (pageMap_locked hp)
  · rw [if_neg (by simp [hr.1])]
    exact ⟨Quiet.refl s, fun _ _ => rfl, hr⟩

end Init

/-! ### Accepting pages -/

section Accept

variable {ps : List ℕ} {start k : ℕ} {p q : ℕ}

theorem pagesFrom_eq : pagesFrom start k = range' start k 4096 := by
  induction k generalizing start with
  | zero => rfl
  | succ k ih => rw [pagesFrom, ih, range'_succ]

theorem mem_pagesFrom : p ∈ pagesFrom start k ↔ ∃ i, i < k ∧ p = start + 4096 * i := by
  rw [pagesFrom_eq, mem_range']

theorem nodup_pagesFrom : (pagesFrom start k).Nodup := by
  rw [pagesFrom_eq]
  exact nodup_range' 4096

/-- The address lies in one of the pages. -/
def InPages (ps : List ℕ) (q : ℕ) : Prop := ∃ p ∈ ps, p ≤ q ∧ q < p + 4096

instance (ps : List ℕ) (q : ℕ) : Decidable (InPages ps q) :=
  inferInstanceAs (Decidable (∃ p ∈ ps, p ≤ q ∧ q < p + 4096))

theorem inPages_concat : InPages (ps ++ [p]) q ↔ InPages ps q ∨ (p ≤ q ∧ q < p + 4096) := by
  unfold InPages
  simp only [mem_append, mem_singleton, or_and_right, exists_or, exists_eq_left]

theorem inPages_pagesFrom : InPages (pagesFrom start k) q ↔ start ≤ q ∧ q < start + 4096 * k := by
  constructor
  · rintro ⟨p, hp, h1, h2⟩
    obtain ⟨i, hi, rfl⟩ := mem_pagesFrom.mp hp
    omega
  · rintro ⟨h1, h2⟩
    refine ⟨start + 4096 * ((q - start) / 4096), mem_pagesFrom.mpr ⟨_, ?_, rfl⟩, ?_, ?_⟩ <;> omega

/-- Only the pages `ps` have been accepted. -/
structure Accepts (ps : List ℕ) (s s' : St) : Prop where
  vmm : s'.vmm = s.vmm
  firstAlloc : s'.firstAlloc = s.firstAlloc
  committed : s'.rsrvMemCommitted = s.rsrvMemCommitted
  pageOps : s'.pageOps = s.pageOps
  accepted : s'.accepted = s.accepted ++ ps
  epcm : ∀ q, s'.epcm q = if InPages ps q then .rw else s.epcm q

theorem spec_eacceptPending (p : ℕ) (h : Accepts ps s s') :
    wp u (eacceptPending p) (fun b s'' => b → Accepts (ps ++ [p]) s s'') s' := by
  simp only [eacceptPending, nextPageOp, wp_bind, wp_get, wp_set, wp_pure]
  rw [wp_ite]
  refine ⟨fun _ => ?_, fun _ => by simp⟩
  refine fun _ => ⟨h.vmm, h.firstAlloc, h.committed, h.pageOps, ?_, fun q => ?_⟩
  · show s'.accepted ++ [p] = _
    rw [h.accepted, List.append_assoc]
  · show (if p ≤ q ∧ q < p + 4096 then _ else s'.epcm q) = _
    rw [h.epcm]
    by_cases hq : p ≤ q ∧ q < p + 4096
    · rw [if_pos hq, if_pos (inPages_concat.mpr (.inr hq))]
    · simp only [inPages_concat, hq, or_false, if_false]

theorem spec_applyEpcPages (h0 : start ≠ 0) :
    wp u (applyEpcPages start k) (fun r s' =>
      match r with
      | .aborted => True
      | .done true => Accepts (pagesFrom start k).reverse s s'
      | .done false => Accepts [] s s' ∧ s.pageOps s.pageOpCount = .refused) s := by
  simp only [applyEpcPages, nextPageOp, if_neg h0, wp_bind, wp_get, wp_set, wp_pure]
  have h₁ : Accepts [] s { s with pageOpCount := s.pageOpCount + 1 } :=
    ⟨rfl, rfl, rfl, rfl, (append_nil _).symm, fun q => by simp [InPages]⟩
  rw [wp_ite]
  refine ⟨fun hr => ⟨h₁, hr⟩, fun _ => ?_⟩
  rw [wp_bind]
  refine wp_forAll (fun ps s' => Accepts ps s s') _ (fun pre p _ _ s' hs => ?_)
    (fun s' hs => hs) h₁
  refine wp_mono (spec_eacceptPending p hs) fun b s'' hb => ?_
  cases b with
  | true => exact hb rfl
  | false => trivial

end Accept

/-! ### The mark of committed memory -/

section Commit

/-- The pages beyond the minimal size that were accepted are those below the
mark. -/
structure Accounted (c : Config) (s : St) : Prop where
  aligned : 4096 ∣ s.rsrvMemCommitted
  mem : c.edmm → ∀ p, p ∈ s.accepted ↔
    4096 ∣ p ∧ c.rsrvBase + c.rsrvMinSize ≤ p ∧ p < c.rsrvBase + s.rsrvMemCommitted
  nodup : s.accepted.Nodup

/-- The mark moves up to `fin`, and the pages below it are there. -/
structure Commits (c : Config) (fin : ℕ) (s s' : St) : Prop where
  committed : s'.rsrvMemCommitted = max s.rsrvMemCommitted (fin - c.rsrvBase)
  accounted : Accounted c s'
  epcm : ∀ q, s'.epcm q = if c.edmm ∧ c.rsrvBase + c.rsrvMinSize ≤ q ∧
    c.rsrvBase + s.rsrvMemCommitted ≤ q ∧ q < fin then .rw else s.epcm q

/-- The new pages are those between the marks. -/
theorem newPages_eq {prev fin : ℕ} (hprev : 4096 ∣ prev) (hfin : 4096 ∣ fin)
    (hlt : c.rsrvBase + prev < fin) :
    newPages c prev (fin - c.rsrvBase) (fin - (c.rsrvBase + prev))
      = (c.rsrvBase + max prev c.rsrvMinSize, fin - (c.rsrvBase + max prev c.rsrvMinSize)) := by
  have hb : 4096 ∣ c.rsrvBase := dvd_add c.base_aligned c.offset_aligned
  unfold newPages
  by_cases h : c.rsrvMinSize < prev
  · rw [if_pos h, max_eq_left h.le]
    exact Prod.ext rfl (by dsimp only; omega)
  · rw [if_neg h, max_eq_right (not_lt.mp h)]
    exact Prod.ext rfl (by dsimp only; omega)

theorem spec_commitUpTo (h : Accounted c s) (hx : 4096 ∣ x + n) (hb : c.rsrvBase ≤ x) :
    wp u (commitUpTo c x n) (fun r s' =>
      match r with
      | .aborted => True
      | .done true => s'.vmm = s.vmm ∧ s'.firstAlloc = s.firstAlloc ∧ Commits c (x + n) s s'
      | .done false => Accepts [] s s' ∧ c.edmm ∧ s.pageOps s.pageOpCount = .refused) s := by
  have hal : 4096 ∣ c.rsrvBase := dvd_add c.base_aligned c.offset_aligned
  have hmin := c.min_aligned
  have hcal := h.aligned
  simp only [commitUpTo, wp_bind, wp_get]
  rw [wp_ite]
  refine ⟨fun hlt => ?_, fun hge => ?_⟩
  · -- the range reaches beyond what is committed: the mark moves to its end
    have hnew : s.rsrvMemCommitted +
        (x + n - (c.rsrvBase + s.rsrvMemCommitted) + 4095) / 4096 * 4096
          = x + n - c.rsrvBase := by omega
    have hmax : max s.rsrvMemCommitted (x + n - c.rsrvBase) = x + n - c.rsrvBase := by omega
    simp only [hnew, wp_bind, wp_set]
    rw [wp_ite]
    constructor
    · rintro ⟨hedmm, hgt⟩
      rw [newPages_eq hcal hx hlt, wp_bind]
      have h0 := c.rsrvBase_pos
      refine wp_mono (spec_applyEpcPages (by omega)) fun r s₁ hr => ?_
      rcases r with (_ | _) | _
      on_goal 3 => trivial
      · obtain ⟨hr, href⟩ := hr
        exact ⟨{ hr with committed := rfl }, hedmm, href⟩
      · -- the pages from the old mark on, or from the minimum, were accepted
        set lo := c.rsrvBase + max s.rsrvMemCommitted c.rsrvMinSize with hlo
        have hk : 4096 * ((x + n - lo) / 4096) = x + n - lo := by
          omega
        refine ⟨hr.vmm, hr.firstAlloc, hr.committed.trans hmax.symm, ⟨?_, fun _ p => ?_, ?_⟩,
          fun q => ?_⟩
        · rw [hr.committed]
          show 4096 ∣ x + n - c.rsrvBase
          omega
        · rw [hr.accepted, hr.committed]
          show p ∈ s.accepted ++ _ ↔ _ ∧ _ ∧ p < c.rsrvBase + (x + n - c.rsrvBase)
          rw [mem_append, h.mem hedmm, mem_reverse, mem_pagesFrom]
          constructor
          · rintro (hp | ⟨i, hi, rfl⟩)
            · omega
            · omega
          · rintro ⟨h1, h2, h3⟩
            rcases lt_or_ge p (c.rsrvBase + s.rsrvMemCommitted) with hp | hp
            · exact .inl ⟨h1, h2, hp⟩
            · exact .inr ⟨(p - lo) / 4096, by omega, by omega⟩
        · rw [hr.accepted]
          refine List.Nodup.append h.nodup (nodup_reverse.mpr nodup_pagesFrom) ?_
          intro p hp hp'
          obtain ⟨i, hi, rfl⟩ := mem_pagesFrom.mp (mem_reverse.mp hp')
          have := ((h.mem hedmm _).mp hp).2.2
          omega
        · rw [hr.epcm]
          have hiff : InPages (pagesFrom lo ((x + n - lo) / 4096)).reverse q ↔
              c.edmm ∧ c.rsrvBase + c.rsrvMinSize ≤ q ∧
                c.rsrvBase + s.rsrvMemCommitted ≤ q ∧ q < x + n := by
            rw [InPages]
            simp only [mem_reverse]
            rw [← InPages, inPages_pagesFrom, hk]
            simp only [hedmm, true_and]
            omega
          simp only [hiff]
    · -- no page has to be accepted: all are below the minimum, or there is no EDMM
      intro hno
      have hedmm : c.edmm → x + n ≤ c.rsrvBase + c.rsrvMinSize := fun he => by
        by_contra hgt
        exact hno ⟨he, by omega⟩
      refine ⟨rfl, rfl, hmax.symm, ⟨?_, fun he p => ?_, h.nodup⟩, fun q => (if_neg ?_).symm⟩
      · show 4096 ∣ x + n - c.rsrvBase
        omega
      · show p ∈ s.accepted ↔ _ ∧ _ ∧ p < c.rsrvBase + (x + n - c.rsrvBase)
        rw [h.mem he]
        have := hedmm he
        omega
      · rintro ⟨he, h1, h2, h3⟩
        have := hedmm he
        omega
  · refine ⟨rfl, rfl, ?_, h, fun q => (if_neg (by omega)).symm⟩
    omega

end Commit

/-! ### The call -/

section Call

variable {d : ℕ}

/-- The arguments of an allocation make sense. -/
structure Request (c : Config) (d n : ℕ) : Prop where
  configured : c.rsrvSize ≠ 0
  pos : 0 < n
  size_aligned : 4096 ∣ n
  size_le : n ≤ c.rsrvSize
  aligned : 4096 ∣ d
  inside : d ≠ 0 → c.rsrvBase ≤ d ∧ d + n ≤ c.rsrvEnd

theorem allocArgs_eq_none (hd : d < 2 ^ 64) (hn : n < 2 ^ 64) :
    allocArgs c d n = none ↔ Request c d n := by
  have hlast := c.lastOf_rsrv
  have hlt := c.rsrvEnd_lt
  unfold allocArgs
  by_cases h0 : c.rsrvSize = 0
  · rw [if_pos h0]
    exact ⟨fun h => (by cases h), fun h => absurd h0 h.configured⟩
  · rw [if_neg h0]
    by_cases h1 : d % 4096 ≠ 0 ∨ n = 0 ∨ n % 4096 ≠ 0 ∨ c.rsrvSize < n
    · rw [if_pos h1]
      refine ⟨fun h => (by cases h), fun h => ?_⟩
      have := h.pos
      have := h.size_aligned
      have := h.size_le
      have := h.aligned
      omega
    · rw [if_neg h1]
      have hbad : (d ≠ 0 ∧ (lastOf d n < d ∨ lastOf d n < n ∨
          lastOf c.rsrvBase c.rsrvSize < lastOf d n ∨ d < c.rsrvBase)) ↔
          ¬(d ≠ 0 → c.rsrvBase ≤ d ∧ d + n ≤ c.rsrvEnd) := by
        rw [hlast]
        unfold lastOf wrap
        omega
      simp only [hbad]
      by_cases h2 : d ≠ 0 → c.rsrvBase ≤ d ∧ d + n ≤ c.rsrvEnd
      · rw [if_neg (not_not.mpr h2)]
        exact ⟨fun _ => ⟨h0, by omega, by omega, by omega, by omega, h2⟩, fun _ => rfl⟩
      · rw [if_pos h2]
        exact ⟨fun h => (by cases h), fun h => absurd h.inside h2⟩

/-- Refused arguments are reported as such. -/
theorem allocArgs_eq_some {e : Errno} (h : allocArgs c d n = some e) :
    e = .eperm ∧ c.rsrvSize = 0 ∨ e = .einval := by
  unfold allocArgs at h
  split at h
  · cases h
    exact .inl ⟨rfl, ‹_›⟩
  · right
    split at h
    · cases h
      rfl
    · split at h
      · cases h
        rfl
      · cases h

theorem Request.insertArgs (h : Request c d n) : InsertArgs c d n :=
  ⟨h.pos, h.size_aligned, fun h0 => ⟨(h.inside h0).1, (h.inside h0).2, h.aligned⟩⟩

/-- A range of reserved memory in which the request can be met. -/
structure Admits (c : Config) (s : St) (d n y : ℕ) : Prop where
  desired : d ≠ 0 → y = d
  base_le : c.rsrvBase ≤ y
  le_end : y + n ≤ c.rsrvEnd
  free : ∀ p, y ≤ p → p < y + n → s.pages p = none

/-- The place of an insertion is the lowest one that is admitted. -/
theorem place_admits (hw : Wf c l) (hr : Request c d n) (hg : Gap (extents l) (place c l d n) n)
    (hne : place c l d n ≠ 0) (hp : ∀ p, c.rsrvBase ≤ p → s.pages p = pageMap l p) :
    Admits c s d n (place c l d n) ∧ ∀ y, Admits c s d n y → place c l d n ≤ y := by
  obtain ⟨h1, h2, -⟩ := hw.place_spec hr.insertArgs hne
  refine ⟨⟨fun h0 => by rw [place, if_neg h0], h1, h2, fun p hp1 hp2 => ?_⟩, fun y hy => ?_⟩
  · rw [hp p (h1.trans hp1)]
    exact hg p hp1 hp2
  · by_cases h0 : d = 0
    · have hpl : place c l d n = (firstFit c.rsrvEnd n c.rsrvBase (extents l)).getD 0 := if_pos h0
      rw [hpl] at hne ⊢
      rcases hf : firstFit c.rsrvEnd n c.rsrvBase (extents l) with _ | z
      · rw [hf] at hne
        exact absurd rfl hne
      · refine firstFit_le hw.sorted hr.pos hf hy.base_le fun p h1 h2 => ?_
        have := hy.free p h1 h2
        rwa [hp p (hy.base_le.trans h1)] at this
    · rw [hy.desired h0, place, if_neg h0]

/-- If insertion finds no place then there is none. -/
theorem not_admits_of_place (hw : Wf c l) (hr : Request c d n)
    (hfull : place c l d n = 0 ∨ ¬Gap (extents l) (place c l d n) n)
    (hp : ∀ p, c.rsrvBase ≤ p → s.pages p = pageMap l p) : ¬Admits c s d n y := by
  intro hy
  have hgap : Gap (extents l) y n := fun p h1 h2 => by
    have := hy.free p h1 h2
    rwa [hp p (hy.base_le.trans h1)] at this
  by_cases h0 : d = 0
  · have hpl : place c l d n = (firstFit c.rsrvEnd n c.rsrvBase (extents l)).getD 0 := if_pos h0
    rw [hpl] at hfull
    rcases hf : firstFit c.rsrvEnd n c.rsrvBase (extents l) with _ | z
    · exact firstFit_eq_none hw.sorted hr.pos hf hy.base_le hy.le_end hgap
    · obtain ⟨h1, -, -, h4⟩ := hw.firstFit_place hf
      have := c.rsrvBase_pos
      rw [hf, Option.getD_some] at hfull
      exact hfull.elim (fun h => by omega) fun h => h h4
  · rw [place, if_neg h0, ← hy.desired h0] at hfull
    rcases hfull with h | h
    · exact h0 (hy.desired h0 ▸ h)
    · exact h hgap

/-- What follows the insertion keeps the new range, or takes it out again. -/
theorem spec_finishAlloc {attrs : VrdAttrs} (h : Rep s.vmm (pre ++ (a, ⟨attrs, x, n⟩) :: post) f)
    (hw : Wf c (pre ++ (a, ⟨attrs, x, n⟩) :: post)) (hu : UserVrd c ⟨attrs, x, n⟩)
    (hacc : Accounted c s) :
    wp u (finishAlloc c a n) (fun r s' => r ≠ .aborted → s'.firstAlloc = s.firstAlloc ∧
      Mallocs s.vmm s'.vmm ∧ ∃ l' f', Rep s'.vmm l' f' ∧ Wf c l' ∧
      match r with
      | .aborted => True
      | .done (.ok z) => z = x ∧ Commits c (x + n) s s' ∧
        pageMap l' = pageMap (pre ++ (a, ⟨attrs, x, n⟩) :: post)
      | .done (.error e) => e = .enomem ∧ Quiet s s' ∧ l' = pre ++ post ∧ c.edmm ∧
        s.pageOps s.pageOpCount = .refused) s := by
  have hb : c.rsrvBase ≤ x := hw.start_ge (a := a) (by simp) hu
  have hend : x + n ≤ c.rsrvEnd := hu.le_end
  have hlt := c.rsrvEnd_lt
  simp only [finishAlloc, wp_bind, wp_vmm, wp_node (h.cell rfl)]
  rw [wp_ite]
  refine ⟨fun hbad => ?_, fun _ => ?_⟩
  · have : x + n ≤ 2 ^ 64 - 1 := by omega
    omega
  rw [wp_bind]
  refine wp_mono (spec_commitUpTo hacc (dvd_add hu.start_aligned hu.size_aligned) hb)
    fun r s₁ hr => ?_
  rcases r with (_ | _) | _
  on_goal 3 => exact fun h => absurd rfl h
  · obtain ⟨hr, hedmm, href⟩ := hr
    rw [wp_bind, wp_vmm, hr.vmm]
    refine wp_mono (spec_removeVrd h rfl) ?_
    rintro _ v' ⟨h', hm⟩ _
    refine ⟨hr.firstAlloc, hm, _, _, h', (hw.remove hu).1, rfl,
      ⟨hr.committed, ?_, ?_, hr.pageOps, hm⟩, rfl, hedmm, href⟩
    · funext q
      exact (hr.epcm q).trans (if_neg (by simp [InPages]))
    · exact hr.accepted.trans (append_nil _)
  · obtain ⟨hvmm, hfirst, hcom⟩ := hr
    rw [wp_bind, wp_modify, wp_bind, wp_vmm]
    have h₁ : Rep s₁.vmm (pre ++ (a, ⟨attrs, x, n⟩) :: post) f := hvmm ▸ h
    refine wp_mono (spec_combineVrds h₁ hw) ?_
    rintro _ v' ⟨hm, l', f', h', hw', hmap⟩ _
    rw [hvmm] at hm
    exact ⟨hfirst, hm, l', f', h', hw', rfl,
      ⟨hcom.committed, ⟨hcom.accounted.aligned, hcom.accounted.mem, hcom.accounted.nodup⟩,
        hcom.epcm⟩, hmap⟩

/-- The permissions of newly allocated memory. -/
def allocPerms (c : Config) : Protect :=
  if !c.edmm && c.rsrvExecutable then .executeReadwrite else .readwrite

/-- The outcomes of an allocation. -/
inductive Allocated (c : Config) (d n : ℕ) (s s' : St) : Except Errno ℕ → Prop
  | ok {x : ℕ} (aligned : 4096 ∣ x) (admits : Admits c s d n x)
      (lowest : ∀ y, Admits c s d n y → x ≤ y)
      (pages : ∀ p, c.rsrvBase ≤ p → s'.pages p
        = if x ≤ p ∧ p < x + n then some ⟨0, .committed, allocPerms c, .reg⟩ else s.pages p)
      (commits : Commits c (x + n) s s') : Allocated c d n s s' (.ok x)
  | failed {e : Errno} (pages : ∀ p, c.rsrvBase ≤ p → s'.pages p = s.pages p) (quiet : Quiet s s')
      (cause : match e with
        | .eperm => c.rsrvSize = 0
        | .einval => ¬Request c d n ∨ ∀ y, ¬Admits c s d n y
        | .enomem => MallocFailed s.vmm s'.vmm ∨ c.edmm ∧ ∃ i, s.pageOps i = .refused) :
      Allocated c d n s s' (.error e)

theorem spec_sgxAllocRsrvMemEx (d n : UInt64) (hv : Valid c s) (hacc : Accounted c s) :
    wp u (sgxAllocRsrvMemEx c d n) (fun r s' => ∀ z, r = .done z → Valid c s' ∧
      Mallocs s.vmm s'.vmm ∧ Allocated c d.toNat n.toNat s s' z) s := by
  have hargs := allocArgs_eq_none (c := c) d.toNat_lt n.toNat_lt
  unfold sgxAllocRsrvMemEx
  rcases hq : allocArgs c d.toNat n.toNat with _ | e
  · have hreq := hargs.mp hq
    rw [wp_bind]
    refine wp_mono (spec_firstInit hv) ?_
    rintro r s₁ ⟨hquiet, hpages, hr⟩
    cases r with
    | some e =>
      obtain ⟨rfl, hv₁, hf⟩ := hr
      rintro z ⟨⟩
      exact ⟨hv₁, hquiet.mallocs, Allocated.failed hpages hquiet (.inl hf)⟩
    | none =>
      obtain ⟨hfirst, l, f, h, hw⟩ := hr
      have hl : ∀ p, c.rsrvBase ≤ p → s.pages p = pageMap l p := fun p hp => by
        rw [← hpages p hp, h.pages]
      have hacc₁ : Accounted c s₁ :=
        ⟨hquiet.committed ▸ hacc.aligned,
          fun he p => by rw [hquiet.accepted, hquiet.committed]; exact hacc.mem he p,
          hquiet.accepted ▸ hacc.nodup⟩
      rw [wp_bind, wp_vmm]
      refine wp_mono (spec_insertVrd h hw hreq.insertArgs) ?_
      rintro r v₂ ⟨hm₂, hr⟩
      cases hr with
      | noMemory rep failed =>
        rintro z ⟨⟩
        refine ⟨.inr ⟨hfirst, l, _, rep, hw⟩, hquiet.mallocs.trans hm₂, Allocated.failed
          (fun p hp => ?_) (hquiet.trans ⟨rfl, rfl, rfl, rfl, hm₂⟩)
          (.inl (failed.mono hquiet.mallocs (Mallocs.refl _)))⟩
        rw [Rep.pages rep, hl p hp]
      -- the list has no place for the range, so no address admits it
      | noPlace rep full =>
        rintro z ⟨⟩
        refine ⟨.inr ⟨hfirst, l, _, rep, hw⟩, hquiet.mallocs.trans hm₂, Allocated.failed
          (fun p hp => ?_) (hquiet.trans ⟨rfl, rfl, rfl, rfl, hm₂⟩)
          (.inr fun y => not_admits_of_place hw hreq full hl)⟩
        rw [Rep.pages rep, hl p hp]
      -- the descriptor is in the list; if its pages are refused it is taken out again
      | @ok a pre post f' hsplit rep wf gap found =>
        obtain ⟨hadm, hlow⟩ := place_admits hw hreq gap found hl
        obtain ⟨-, -, hal⟩ := hw.place_spec hreq.insertArgs found
        set x := place c l d.toNat n.toNat
        have hu : UserVrd c ⟨⟨0, .committed, allocPerms c, .reg⟩, x, n.toNat⟩ := by
          rcases wf.mem_cases (mem_append_right pre mem_cons_self) with hlock | hu
          · cases congrArg (fun w : Vrd => w.state) hlock
          · exact hu
        refine wp_mono (spec_finishAlloc (s := { s₁ with vmm := v₂ }) rep wf hu
          { hacc₁ with }) fun r s₃ hr => ?_
        rintro z rfl
        obtain ⟨hfirst₃, hm₃, l', f₃, h₃, hw₃, hr⟩ := hr (by simp)
        refine ⟨.inr ⟨hfirst₃.trans hfirst, l', f₃, h₃, hw₃⟩,
          (hquiet.mallocs.trans hm₂).trans hm₃, ?_⟩
        match z, hr with
        | .ok _, ⟨rfl, hcom, hmap⟩ =>
          refine Allocated.ok hal hadm hlow (fun p hp => ?_) ⟨?_, hcom.accounted, fun q => ?_⟩
          · rw [h₃.pages, hmap, hl p hp, hsplit]
            simp only [pageMap, extents_append, extents_cons]
            rw [tagAt_insert (by simpa using wf.sorted)]
            rfl
          · rw [hcom.committed, ← hquiet.committed]
          · rw [hcom.epcm, ← hquiet.committed, ← hquiet.epcm]
        | .error _, ⟨rfl, hq₃, hl₃, hedmm, href⟩ =>
          refine Allocated.failed (fun p hp => ?_)
            (hquiet.trans ⟨hq₃.committed, hq₃.epcm, hq₃.accepted, hq₃.pageOps, hm₂.trans hm₃⟩)
            (.inr ⟨hedmm, s₁.pageOpCount, hquiet.pageOps ▸ href⟩)
          rw [h₃.pages, hl₃, hl p hp, hsplit]
  · dsimp only
    rintro z ⟨⟩
    refine ⟨hv, Mallocs.refl _, Allocated.failed (fun _ _ => rfl) (Quiet.refl s) ?_⟩
    rcases allocArgs_eq_some hq with ⟨rfl, h0⟩ | rfl
    · exact h0
    · exact .inl fun hreq => by rw [hargs.mpr hreq] at hq; cases hq

end Call

end ReservedMem
