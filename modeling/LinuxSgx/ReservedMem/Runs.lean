/-
Runs of reserved-memory calls.

`Sound c s` holds in every state between calls: the list of descriptors is well
formed (or not there yet), and the mark of committed memory accounts for the
pages that were accepted and lies above all allocated ones.  As long as no call of
`sgx_free_rsrv_mem` runs out of memory, the processor and the descriptors also
agree about every page (`Agree`).

* **`list_wellFormed`**, **`commit_accounting`** — the invariants of the list and
  of the mark, in every run;
* **`alloc_firstFit_atomic`** — an allocation takes the lowest range, or changes
  nothing;
* **`free_exact`**, **`tprotect_exact`** — what freeing and protecting do to
  pages in and outside their range.
-/
import LinuxSgx.ReservedMem.Free

namespace ReservedMem

open Prog Dll Extents

variable {u : Prop} {c : Config} {s s' : St}

/-! ### The invariant of every run -/

section Invariant

/-- What holds between calls. -/
structure Sound (c : Config) (s : St) : Prop where
  valid : Valid c s
  accounted : Accounted c s
  below : ∀ p, c.rsrvBase ≤ p → s.pages p ≠ none → p < c.rsrvBase + s.rsrvMemCommitted

theorem Sound.initial (h : s.Initial c) : Sound c s := by
  have hb : Blank s.vmm := by
    rw [h.vmm]
    exact ⟨rfl, rfl⟩
  refine ⟨.inl ⟨h.firstAlloc, hb⟩, ⟨?_, fun _ p => ?_, ?_⟩, fun p _ hp => ?_⟩
  · rw [h.committed]
    exact dvd_zero _
  · rw [h.accepted, h.committed]
    simp only [List.not_mem_nil, false_iff]
    omega
  · rw [h.accepted]
    exact List.nodup_nil
  · exact absurd (hb.pages p) hp

/-- Nothing but descriptors changed, and no page became allocated. -/
theorem Sound.of_quiet (h : Sound c s) (hv : Valid c s')
    (hcom : s'.rsrvMemCommitted = s.rsrvMemCommitted) (hacc : s'.accepted = s.accepted)
    (hp : ∀ p, c.rsrvBase ≤ p → s.pages p = none → s'.pages p = none) : Sound c s' := by
  refine ⟨hv, ⟨hcom ▸ h.accounted.aligned, fun he p => ?_, hacc ▸ h.accounted.nodup⟩,
    fun p hb hne => ?_⟩
  · rw [hacc, hcom]
    exact h.accounted.mem he p
  · rw [hcom]
    exact h.below p hb fun h0 => hne (hp p hb h0)

theorem Sound.alloc {d n : ℕ} {z : Except Errno ℕ} (h : Sound c s) (hv : Valid c s')
    (ha : Allocated c d n s s' z) : Sound c s' := by
  cases ha with
  | failed pages quiet cause =>
    exact h.of_quiet hv quiet.committed quiet.accepted fun p hb h0 => (pages p hb).trans h0
  | @ok x aligned admits lowest pages commits =>
    refine ⟨hv, commits.accounted, fun p hb hne => ?_⟩
    rw [commits.committed]
    rw [pages p hb] at hne
    by_cases hp : x ≤ p ∧ p < x + n
    · omega
    · rw [if_neg hp] at hne
      have := h.below p hb hne
      omega

theorem Sound.tprotect {x n : ℕ} {perms : SiPerms} (h : Sound c s) (hv : Valid c s')
    (hp : Protects x n perms s s') : Sound c s' := by
  refine h.of_quiet hv hp.committed hp.accepted fun p _ h0 => ?_
  rw [hp.pages, h0]
  exact ite_self _

theorem Sound.free {x n : ℕ} (h : Sound c s) (hv : Valid c s') (hr : Releases c x n s s') :
    Sound c s' :=
  h.of_quiet hv hr.committed hr.accepted fun p _ => hr.shrinks p

/-- The processor has the permissions that the descriptors say; memory that is
there but not allocated is readable and writable. -/
def Agree (c : Config) (s : St) : Prop :=
  ∀ p, c.rsrvBase ≤ p → p < c.rsrvBase + max c.rsrvMinSize s.rsrvMemCommitted →
    match s.pages p with
    | none => s.epcm p = .rw
    | some t => Agrees (s.epcm p) t.perms

theorem Agree.of_quiet (h : Agree c s) (hp : ∀ p, c.rsrvBase ≤ p → s'.pages p = s.pages p)
    (hq : Quiet s s') : Agree c s' := by
  intro p hb hlt
  rw [hp p hb, hq.epcm]
  rw [hq.committed] at hlt
  exact h p hb hlt

/-- An allocated page is one the descriptors and the processor agree about. -/
theorem Agree.at (h : Agree c s) (hs : Sound c s) {p : ℕ} {t : VrdAttrs} (hb : c.rsrvBase ≤ p)
    (ht : s.pages p = some t) : Agrees (s.epcm p) t.perms := by
  have := hs.below p hb (by simp [ht])
  have hp := h p hb (by omega)
  rwa [ht] at hp

theorem Agree.alloc {d n : ℕ} {z : Except Errno ℕ} (h : Agree c s) (hs : Sound c s)
    (he : c.edmm = true) (ha : Allocated c d n s s' z) : Agree c s' := by
  cases ha with
  | failed pages quiet cause => exact h.of_quiet pages quiet
  | @ok x aligned admits lowest pages commits =>
    intro p hb hlt
    rw [commits.committed] at hlt
    rw [pages p hb, commits.epcm]
    simp only [he, true_and]
    -- pages that are new to the enclave, and those that were there before
    by_cases hnew : c.rsrvBase + c.rsrvMinSize ≤ p ∧ c.rsrvBase + s.rsrvMemCommitted ≤ p ∧ p < x + n
    · rw [if_pos hnew]
      by_cases hin : x ≤ p ∧ p < x + n
      · rw [if_pos hin]
        exact ⟨by decide, by simp [allocPerms, he]; rfl⟩
      · have hfree : s.pages p = none := by
          by_contra hne
          have := hs.below p hb hne
          omega
        rw [if_neg hin, hfree]
    · rw [if_neg hnew]
      have hold : p < c.rsrvBase + max c.rsrvMinSize s.rsrvMemCommitted := by omega
      have hp := h p hb hold
      by_cases hin : x ≤ p ∧ p < x + n
      · rw [if_pos hin]
        rw [admits.free p hin.1 hin.2] at hp
        rw [hp]
        exact ⟨by decide, by simp [allocPerms, he]; rfl⟩
      · rw [if_neg hin]
        exact hp

theorem Agree.tprotect {x n : ℕ} {perms : SiPerms} (h : Agree c s) (hs : Sound c s)
    (hask : perms.Askable) (hp : Protects x n perms s s') : Agree c s' := by
  intro p hb hlt
  rw [hp.committed] at hlt
  rw [hp.pages]
  by_cases hin : x ≤ p ∧ p < x + n
  · rw [if_pos hin]
    rcases ht : s.pages p with _ | t
    · exact absurd ht (hp.covered p hin.1 hin.2)
    · rw [hp.inside p t hin.1 hin.2 ht (h.at hs hb ht)]
      exact ⟨hask, rfl⟩
  · rw [if_neg hin, hp.outside p hin]
    exact h p hb hlt

theorem Agree.free {x n : ℕ} (h : Agree c s) (hs : Sound c s) (he : c.edmm = true)
    (hr : Releases c x n s s') (hno : ¬MallocFailed s.vmm s'.vmm) : Agree c s' := by
  obtain ⟨hcov, hpages⟩ := (hr.frees (.inl he)).mpr (hr.enough hno (.inl he))
  intro p hb hlt
  rw [hr.committed] at hlt
  rw [hpages]
  by_cases hin : x ≤ p ∧ p < x + n
  · rw [if_pos hin]
    rcases ht : s.pages p with _ | t
    · exact absurd ht (hcov p hin.1 hin.2)
    · exact hr.inside he p t hin.1 hin.2 ht (h.at hs hb ht)
  · rw [if_neg hin, hr.outside p hin]
    exact h p hb hlt

/-- **One call** that returns.  The processor and the descriptors go on to agree, unless memory is
freed and a `malloc` fails. -/
theorem spec_run (k : Call) (h : Sound c s) :
    wp u (k.run c) (fun b s' => b → Sound c s' ∧
      (c.edmm = true → Agree c s → (∀ a n, k = .free a n → ¬MallocFailed s.vmm s'.vmm) →
        Agree c s')) s := by
  cases k with
  | alloc d n =>
    rw [Call.run, wp_bind]
    refine wp_mono (spec_sgxAllocRsrvMemEx d n h.valid h.accounted) fun r s' hr => ?_
    rw [wp_pure, decide_eq_true_eq]
    intro hne
    cases r with
    | aborted => exact absurd rfl hne
    | done z =>
      obtain ⟨hv, -, ha⟩ := hr z rfl
      exact ⟨h.alloc hv ha, fun he hagree _ => hagree.alloc h he ha⟩
  | free a n =>
    rw [Call.run, wp_bind]
    refine wp_mono (spec_sgxFreeRsrvMem a n h.valid) fun r s' hr => ?_
    rw [wp_pure, decide_eq_true_eq]
    intro hne
    match r with
    | .aborted => exact absurd rfl hne
    -- memory was freed: this is where a failed `malloc` matters
    | .done true =>
      obtain ⟨hv, -, -, hrel⟩ := hr _ rfl
      exact ⟨h.free hv hrel, fun he hagree hmem => hagree.free h he hrel (hmem a n rfl)⟩
    | .done false =>
      obtain ⟨hv, -, hpages, hq⟩ := hr _ rfl
      exact ⟨h.of_quiet hv hq.committed hq.accepted fun p _ h0 => hpages ▸ h0,
        fun _ hagree _ => hagree.of_quiet (fun p _ => congrFun hpages p) hq⟩
  | tprotect a n prot =>
    rw [Call.run, wp_bind]
    refine wp_mono (spec_sgxTprotectRsrvMem a n prot h.valid) fun r s' hr => ?_
    rw [wp_pure, decide_eq_true_eq]
    intro hne
    cases r with
    | aborted => exact absurd rfl hne
    | done z =>
      obtain ⟨hv, -, ⟨hpages, hq, -⟩ | ⟨-, -, -, hask, hp⟩⟩ := hr z rfl
      · exact ⟨h.of_quiet hv hq.committed hq.accepted fun p _ h0 => hpages ▸ h0,
          fun _ hagree _ => hagree.of_quiet (fun p _ => congrFun hpages p) hq⟩
      · exact ⟨h.tprotect hv hp, fun _ hagree _ => hagree.tprotect h hask hp⟩

theorem Reaches.sound (h : Reaches c s) : Sound c s := by
  induction h with
  | init h => exact Sound.initial h
  | step _ k hk ih => exact ((wp_of_run hk).mp (spec_run (u := True) k ih) rfl).1

end Invariant

/-! ### Runs that can be evaluated -/

section Evaluation

/-- A list of calls, each of which returns. -/
def runCalls (c : Config) : List Call → St → Option St
  | [], s => some s
  | k :: ks, s =>
    match k.run c s with
    | some (true, s') => runCalls c ks s'
    | _ => none

theorem Reaches.runCalls {ks : List Call} (h : Reaches c s)
    (hk : ReservedMem.runCalls c ks s = some s') : Reaches c s' := by
  induction ks generalizing s with
  | nil =>
    cases hk
    exact h
  | cons k ks ih =>
    rw [ReservedMem.runCalls] at hk
    split at hk
    · exact ih (h.step k ‹_›) hk
    · cases hk

/-- An enclave whose reserved memory has `size` pages, `min` of them from the
start, and begins at the third page. -/
def pagesConfig (edmm : Bool) (min size : ℕ) (hmin : min ≤ size) (hsize : size < 2 ^ 32) : Config where
  enclaveBase := 4096
  rsrvOffset := 4096
  rsrvSize := 4096 * size
  rsrvMinSize := 4096 * min
  elrangeBase := 4096
  elrangeSize := 4096 + 4096 * size
  edmm := edmm
  rsrvExecutable := false
  sdkSince23 := true
  base_pos := by decide
  offset_pos := by decide
  base_aligned := by decide
  offset_aligned := by decide
  size_aligned := Nat.dvd_mul_right _ _
  min_aligned := Nat.dvd_mul_right _ _
  min_le := Nat.mul_le_mul_left _ hmin
  elrange_le := le_rfl
  rsrv_le := by omega
  elrange_lt := by omega

/-- Four pages, one of them from the start. -/
def smallConfig : Config := pagesConfig true 1 4 (by decide) (by decide)

/-- Seventy pages, all of them from the start. -/
def wideConfig : Config := pagesConfig true 70 70 (by decide) (by decide)

/-- The state when the enclave has been loaded. -/
def loaded (mallocs : ℕ → Bool) (pageOps : ℕ → PageOutcome) : St :=
  ⟨Vmm.init mallocs, true, 0, 0, fun _ => .rw, [], pageOps, 0⟩

theorem Reaches.loaded (c : Config) (mallocs : ℕ → Bool) (pageOps : ℕ → PageOutcome) :
    Reaches c (ReservedMem.loaded mallocs pageOps) :=
  .init ⟨rfl, rfl, rfl, rfl, fun _ _ _ => rfl⟩

/-- What can be observed at the end of a run is observed in a state that is reached. -/
theorem Reaches.observe {α : Type} (c : Config) (ks : List Call) (mallocs : ℕ → Bool)
    (pageOps : ℕ → PageOutcome) (g : St → α) (x : α)
    (h : (ReservedMem.runCalls c ks (ReservedMem.loaded mallocs pageOps)).map g = some x) :
    ∃ s, Reaches c s ∧ g s = x := by
  obtain ⟨s, hs, hx⟩ := Option.map_eq_some_iff.mp h
  exact ⟨s, (Reaches.loaded c mallocs pageOps).runCalls hs, hx⟩

/-- The same for one more call after a run. -/
theorem observe_call {α β : Type} (c : Config) (ks : List Call) (s₀ : St)
    (m : Config → Prog St β) (g : St → β → St → α) (x : α)
    (h : ((runCalls c ks s₀).bind fun s => (m c s).map fun p => g s p.1 p.2) = some x) :
    ∃ s r s', runCalls c ks s₀ = some s ∧ m c s = some (r, s') ∧ g s r s' = x := by
  obtain ⟨s, hs, hx⟩ := Option.bind_eq_some_iff.mp h
  obtain ⟨⟨r, s'⟩, hm, hx⟩ := Option.map_eq_some_iff.mp hx
  exact ⟨s, r, s', hs, hm, hx⟩

end Evaluation

/-! ### The list -/

/-- In every run the list of descriptors is not there yet, or it is doubly linked,
sorted, inside the enclave, and apart from the free list. -/
theorem list_wellFormed (h : Reaches c s) :
    (s.firstAlloc = true ∧ s.vmm.vrdl = none ∧ s.vmm.freeList = none) ∨
    ∃ (l : List (Addr × Vrd)) (f : List Addr),
      (s.vmm.vrdl = first l ∧ Seg s.vmm.heap none l none) ∧
      (∃ a rest, l = (a, lockedVrd c) :: rest) ∧
      (∀ p ∈ l, 0 < p.2.size) ∧
      l.Pairwise (fun p q => p.2.startAddr + p.2.size ≤ q.2.startAddr) ∧
      (∀ p ∈ l, c.enclaveBase ≤ p.2.startAddr ∧ p.2.startAddr + p.2.size ≤ c.rsrvEnd) ∧
      (s.vmm.freeList = f.head? ∧ Stack s.vmm.heap f ∧ (l.map Prod.fst ++ f).Nodup) ∧
      s.vmm.freeListCount = f.length := by
  rcases h.sound.valid with ⟨hf, hb⟩ | ⟨-, l, f, h, hw⟩
  · exact .inl ⟨hf, hb.vrdl, hb.freeList⟩
  · refine .inr ⟨l, f, ⟨h.vrdl, h.list⟩, hw.head, fun p hp => ?_, ?_, fun p hp => ⟨?_, ?_⟩,
      ⟨h.freeList, h.stack, h.nodup⟩, h.count⟩
    · exact hw.sorted.pos _ (mem_extents (a := p.1) hp)
    · exact List.pairwise_map.mp hw.sorted.ordered
    · rcases hw.mem_cases (a := p.1) hp with hl | hu
      · rw [hl]
        exact le_rfl
      · exact le_trans (Nat.le_add_right _ _) (hw.start_ge (a := p.1) hp hu)
    · exact hw.stop_le (mem_extents (a := p.1) hp)

/-- The list after one allocation of a page. -/
theorem list_wellFormed_one_page : ∃ s : St, Reaches smallConfig s ∧
    s.firstAlloc = false ∧ ∃ (l : List (Addr × Vrd)) (f : List Addr),
      (s.vmm.vrdl = first l ∧ Seg s.vmm.heap none l none) ∧ s.vmm.freeListCount = f.length ∧
      (l.map Prod.fst ++ f).Nodup := by
  obtain ⟨s, hs, hf⟩ := Reaches.observe smallConfig
    [.alloc 0 4096] (fun _ => true) (fun _ => .ok) St.firstAlloc false (by decide +kernel)
  refine ⟨s, hs, hf, ?_⟩
  rcases list_wellFormed hs with ⟨h, -⟩ | ⟨l, f, h1, -, -, -, -, h2, h3⟩
  · rw [hf] at h
    cases h
  · exact ⟨l, f, h1, h3, h2.2.2⟩

/-- Before the first allocation there is no list, and so no locked descriptor. -/
theorem no_lockedVrd_loaded : ∃ s : St, Reaches smallConfig s ∧
    ∀ l : List (Addr × Vrd), s.vmm.vrdl = first l → Seg s.vmm.heap none l none →
      ¬∃ a rest, l = (a, lockedVrd smallConfig) :: rest := by
  refine ⟨loaded (fun _ => true) fun _ => .ok, .loaded _ _ _, ?_⟩
  rintro l hl - ⟨a, rest, rfl⟩
  cases hl

/-! ### Allocation -/

/-- **An allocation takes the lowest range that fits, or changes nothing.**  The
error EINVAL of a sensible request means that there is no such range, and ENOMEM
that a `malloc` failed or that pages were refused. -/
theorem alloc_firstFit_atomic (h : Reaches c s) (d n : UInt64) :
    ∃ r s', sgxAllocRsrvMemEx c d n s = some (r, s') ∧
      (∀ x, r = .done (.ok x) →
        4096 ∣ x ∧ c.rsrvBase ≤ x ∧ x + n.toNat ≤ c.rsrvEnd ∧
        (∀ p, x ≤ p → p < x + n.toNat → s.pages p = none) ∧
        (d ≠ 0 → x = d.toNat) ∧
        (d = 0 → ∀ y, c.rsrvBase ≤ y → y + n.toNat ≤ c.rsrvEnd →
          (∀ p, y ≤ p → p < y + n.toNat → s.pages p = none) → x ≤ y) ∧
        ∀ p, c.rsrvBase ≤ p → s'.pages p = if x ≤ p ∧ p < x + n.toNat
          then some ⟨0, .committed, allocPerms c, .reg⟩ else s.pages p) ∧
      ∀ e, r = .done (.error e) →
        (∀ p, c.rsrvBase ≤ p → s'.pages p = s.pages p) ∧
        s'.rsrvMemCommitted = s.rsrvMemCommitted ∧
        (e = .eperm → c.rsrvSize = 0) ∧
        (e = .einval → Request c d.toNat n.toNat → ∀ y, (d ≠ 0 → y = d.toNat) →
          c.rsrvBase ≤ y → y + n.toNat ≤ c.rsrvEnd →
          ¬∀ p, y ≤ p → p < y + n.toNat → s.pages p = none) ∧
        (e = .enomem → MallocFailed s.vmm s'.vmm ∨ c.edmm ∧ ∃ i, s.pageOps i = .refused) := by
  have hd : d ≠ 0 ↔ d.toNat ≠ 0 := by
    rw [Ne, ← UInt64.toNat_inj]
    rfl
  obtain ⟨r, s', hrun, hr⟩ :=
    wp_false_iff.mp (spec_sgxAllocRsrvMemEx d n h.sound.valid h.sound.accounted)
  refine ⟨r, s', hrun, fun x hx => ?_, fun e he => ?_⟩
  · obtain ⟨-, -, ha⟩ := hr _ hx
    cases ha with
    | ok aligned admits lowest pages commits =>
      refine ⟨aligned, admits.base_le, admits.le_end, admits.free,
        fun h0 => admits.desired (hd.mp h0), fun h0 y h1 h2 h3 => ?_, pages⟩
      exact lowest y ⟨fun hne => absurd h0 (hd.mpr hne), h1, h2, h3⟩
  · obtain ⟨-, -, ha⟩ := hr _ he
    cases ha with
    | failed pages quiet cause =>
      refine ⟨pages, quiet.committed, ?_, ?_, ?_⟩
      · rintro rfl
        exact cause
      · rintro rfl hreq y h1 h2 h3 h4
        rcases cause with hno | hno
        · exact hno hreq
        · exact hno y ⟨fun hne => h1 (hd.mpr hne), h2, h3, h4⟩
      · rintro rfl
        exact cause

/-- The second allocation is placed behind the first. -/
theorem alloc_firstFit_atomic_second : ∃ s s', Reaches smallConfig s ∧
    sgxAllocRsrvMemEx smallConfig 0 4096 s
      = some (.done (.ok 12288), s') ∧ s.pages 12288 = none ∧ s'.pages 8192 = s.pages 8192 := by
  obtain ⟨s, r, s', hs, hrun, rfl⟩ := observe_call smallConfig [.alloc 0 4096]
    (loaded (fun _ => true) fun _ => .ok) (sgxAllocRsrvMemEx · 0 4096) (fun _ r _ => r)
    (.done (.ok 12288)) (by decide +kernel)
  replace hs := (Reaches.loaded smallConfig _ _).runCalls hs
  obtain ⟨r, s'', hrun', hok, -⟩ := alloc_firstFit_atomic hs 0 4096
  obtain ⟨rfl, rfl⟩ := Prod.mk.inj (Option.some.inj (hrun'.symm.trans hrun))
  obtain ⟨-, -, -, hfree, -, -, hpages⟩ := hok 12288 rfl
  exact ⟨s, s'', hs, hrun, hfree 12288 (by decide) (by decide),
    (hpages 8192 (by decide)).trans (if_neg (by decide))⟩

/-! ### The mark -/

/-- **The pages accepted are those between the minimal size and the mark**, each of
them once, and every page handed out is below the minimal size or accepted. -/
theorem commit_accounting (h : Reaches c s) (he : c.edmm = true) :
    (∀ p, p ∈ s.accepted ↔
      4096 ∣ p ∧ c.rsrvBase + c.rsrvMinSize ≤ p ∧ p < c.rsrvBase + s.rsrvMemCommitted) ∧
    s.accepted.Nodup ∧
    (∀ p, c.rsrvBase ≤ p → s.pages p ≠ none →
      p < c.rsrvBase + c.rsrvMinSize ∨ p / 4096 * 4096 ∈ s.accepted) ∧
    ∀ d n x s', sgxAllocRsrvMemEx c d n s = some (.done (.ok x), s') →
      ∀ p, x ≤ p → p < x + n.toNat →
        p < c.rsrvBase + c.rsrvMinSize ∨ p / 4096 * 4096 ∈ s'.accepted := by
  have hal : 4096 ∣ c.rsrvBase := dvd_add c.base_aligned c.offset_aligned
  have hmin := c.min_aligned
  -- a page below the mark is below the minimal size or accepted
  have hpage : ∀ {t : St}, Accounted c t → ∀ p, p < c.rsrvBase + t.rsrvMemCommitted →
      p < c.rsrvBase + c.rsrvMinSize ∨ p / 4096 * 4096 ∈ t.accepted := fun ht p hp => by
    rw [ht.mem he]
    omega
  refine ⟨h.sound.accounted.mem he, h.sound.accounted.nodup, fun p hb hne => ?_,
    fun d n x s' hrun p h1 h2 => ?_⟩
  · exact hpage h.sound.accounted p (h.sound.below p hb hne)
  · obtain ⟨-, -, ha⟩ := (wp_of_run hrun).mp
      (spec_sgxAllocRsrvMemEx (u := True) d n h.sound.valid h.sound.accounted) _ rfl
    cases ha with
    | ok aligned admits lowest pages commits =>
      refine hpage commits.accounted p ?_
      rw [commits.committed]
      omega

/-- Two pages beyond a minimal size of one page are accepted. -/
theorem commit_accounting_two_pages : ∃ s, Reaches smallConfig s ∧
    s.rsrvMemCommitted = 12288 ∧ 12288 ∈ s.accepted ∧ 16384 ∈ s.accepted ∧ s.accepted.Nodup := by
  obtain ⟨s, hs, hcom⟩ := Reaches.observe smallConfig
    [.alloc 0 12288] (fun _ => true) (fun _ => .ok) St.rsrvMemCommitted 12288 (by decide +kernel)
  obtain ⟨hmem, hnodup, -⟩ := commit_accounting hs rfl
  rw [hcom] at hmem
  exact ⟨s, hs, hcom, (hmem _).mpr (by decide), (hmem _).mpr (by decide), hnodup⟩

/-- As long as the mark is below the minimal size it is not the end of the memory
that is there: two pages are, one is allocated, and the mark is behind the first. -/
theorem mark_below_minimum : ∃ s, Reaches (pagesConfig true 2 4 (by decide) (by decide)) s ∧
    (pagesConfig true 2 4 (by decide) (by decide)).rsrvMinSize = 8192 ∧ s.accepted = [] ∧
    s.rsrvMemCommitted = 4096 := by
  obtain ⟨s, hs, hobs⟩ := Reaches.observe (pagesConfig true 2 4 (by decide) (by decide))
    [.alloc 0 4096] (fun _ => true) (fun _ => .ok) (fun s => (s.accepted, s.rsrvMemCommitted))
    ([], 4096) (by decide +kernel)
  exact ⟨s, hs, rfl, congrArg Prod.fst hobs, congrArg Prod.snd hobs⟩

/-! ### Freeing -/

/-- **Freeing frees exactly the range** if and only if there were descriptors for the
cuts at its ends and, without EDMM, every page of the range was allocated. -/
theorem free_exact (h : Reaches c s) (a n : UInt64) :
    ∃ r s', sgxFreeRsrvMem c a n s = some (r, s') ∧
      (r = .done true →
        ((∀ p, a.toNat ≤ p → p < a.toNat + n.toNat → s.pages p ≠ none ∧ s'.pages p = none) ∧
          (∀ p, ¬(a.toNat ≤ p ∧ p < a.toNat + n.toNat) → s'.pages p = s.pages p) ↔
        Enough a.toNat n.toNat s ∧
          (c.edmm = true ∨ ∀ p, a.toNat ≤ p → p < a.toNat + n.toNat → s.pages p ≠ none))) ∧
      (r = .done false → s'.pages = s.pages) := by
  obtain ⟨r, s', hrun, hr⟩ := wp_false_iff.mp (spec_sgxFreeRsrvMem a n h.sound.valid)
  refine ⟨r, s', hrun, fun hz => ?_, fun hz => ?_⟩
  · obtain ⟨-, -, -, hrel⟩ := hr _ hz
    constructor
    · rintro ⟨hin, hout⟩
      have hall := fun p h1 h2 => (hin p h1 h2).1
      refine ⟨(hrel.frees (.inr hall)).mp ⟨hall, fun p => ?_⟩, .inr hall⟩
      by_cases hp : a.toNat ≤ p ∧ p < a.toNat + n.toNat
      · rw [if_pos hp]
        exact (hin p hp.1 hp.2).2
      · rw [if_neg hp]
        exact hout p hp
    · rintro ⟨henough, hall⟩
      obtain ⟨hcov, hpages⟩ := (hrel.frees hall).mpr henough
      refine ⟨fun p h1 h2 => ⟨hcov p h1 h2, ?_⟩, fun p hp => ?_⟩
      · rw [hpages, if_pos ⟨h1, h2⟩]
      · rw [hpages, if_neg hp]
  · obtain ⟨-, -, hpages, -⟩ := hr _ hz
    exact hpages

/-- Allocations that leave no spare descriptor: every second page from the top,
then three pages at the bottom. -/
def fullList : List Call :=
  (List.range 30).map (fun i => .alloc (UInt64.ofNat (8192 + 4096 * (69 - 2 * i))) 4096) ++
    [.alloc 8192 12288]

set_option maxRecDepth 100000 in
/-- Freeing the first of the three pages takes one cut.  The list is empty, and the
refill has one descriptor before `malloc` fails: that is enough. -/
theorem free_exact_first_page : ∃ s s', Reaches wideConfig s ∧
    sgxFreeRsrvMem wideConfig 8192 4096 s = some (.done true, s') ∧ Enough 8192 4096 s ∧
    (s.pages 8192 ≠ none ∧ s'.pages 8192 = none) ∧ s'.pages 12288 = s.pages 12288 := by
  obtain ⟨s, r, s', hs, hrun, hobs⟩ := observe_call wideConfig fullList
    (loaded (fun i => i < 32 ∨ i = 36) fun _ => .ok) (sgxFreeRsrvMem · 8192 4096)
    (fun s r _ => (r, s.vmm.mallocs s.vmm.mallocCount, cutsNeeded s.vmm.vrds 8192 12288))
    (.done true, true, 1) (by decide +kernel)
  replace hs := (Reaches.loaded wideConfig _ _).runCalls hs
  obtain ⟨rfl, h⟩ := Prod.mk.inj hobs
  obtain ⟨hyes, hcuts⟩ := Prod.mk.inj h
  obtain ⟨r, s'', hrun', hok, -⟩ := free_exact hs 8192 4096
  obtain ⟨rfl, rfl⟩ := Prod.mk.inj (Option.some.inj (hrun'.symm.trans hrun))
  have henough : Enough 8192 4096 s := by
    rw [Enough, hcuts]
    exact .inr hyes
  obtain ⟨hin, hout⟩ := (hok rfl).mpr ⟨henough, .inl rfl⟩
  exact ⟨s, s'', hs, hrun, henough, hin 8192 (by decide) (by decide), hout 12288 (by decide)⟩

set_option maxRecDepth 100000 in
/-- Without EDMM a hole in the range ends the loop, and the call still returns 0: the
page behind the hole stays allocated.  And when the descriptor cannot be cut for
lack of memory, freeing the middle one of three pages frees all three. -/
theorem free_inexact :
    (∃ s s', Reaches (pagesConfig false 4 4 (by decide) (by decide)) s ∧
      sgxFreeRsrvMem (pagesConfig false 4 4 (by decide) (by decide)) 8192 12288 s
        = some (.done true, s') ∧ s.pages 12288 = none ∧ (s'.pages 16384).isSome) ∧
    ∃ s s', Reaches wideConfig s ∧
      sgxFreeRsrvMem wideConfig 12288 4096 s
        = some (.done true, s') ∧ (s.pages 8192).isSome ∧ s'.pages 8192 = none := by
  constructor
  · obtain ⟨s, r, s', hs, hrun, hobs⟩ := observe_call
      (pagesConfig false 4 4 (by decide) (by decide)) [.alloc 8192 4096, .alloc 16384 4096]
      (loaded (fun _ => true) fun _ => .ok) (sgxFreeRsrvMem · 8192 12288)
      (fun s r s' => (r, s.pages 12288, (s'.pages 16384).isSome)) (.done true, none, true)
      (by decide +kernel)
    obtain ⟨rfl, h⟩ := Prod.mk.inj hobs
    obtain ⟨h1, h2⟩ := Prod.mk.inj h
    exact ⟨s, s', (Reaches.loaded _ _ _).runCalls hs, hrun, h1, h2⟩
  · obtain ⟨s, r, s', hs, hrun, hobs⟩ := observe_call wideConfig fullList
      (loaded (fun i => i < 32) fun _ => .ok) (sgxFreeRsrvMem · 12288 4096)
      (fun s r s' => (r, (s.pages 8192).isSome, s'.pages 8192)) (.done true, true, none)
      (by decide +kernel)
    obtain ⟨rfl, h⟩ := Prod.mk.inj hobs
    obtain ⟨h1, h2⟩ := Prod.mk.inj h
    exact ⟨s, s', (Reaches.loaded _ _ _).runCalls hs, hrun, h1, h2⟩

/-! ### Permissions -/

section Permissions

/-- Runs in which no call of `sgx_free_rsrv_mem` sees a `malloc` fail. -/
inductive FreesInMemory (c : Config) : St → Prop
  | init {s : St} (h : s.Initial c) : FreesInMemory c s
  | step {s s' : St} (h : FreesInMemory c s) (k : Call) (hk : k.run c s = some (true, s'))
      (hmem : ∀ a n, k = .free a n → ¬MallocFailed s.vmm s'.vmm) : FreesInMemory c s'

theorem FreesInMemory.reaches (h : FreesInMemory c s) : Reaches c s := by
  induction h with
  | init h => exact .init h
  | step _ k hk _ ih => exact .step ih k hk

theorem FreesInMemory.runCalls {ks : List Call} (h : FreesInMemory c s)
    (hno : ∀ k ∈ ks, ∀ a n, k ≠ .free a n) (hk : ReservedMem.runCalls c ks s = some s') :
    FreesInMemory c s' := by
  induction ks generalizing s with
  | nil =>
    cases hk
    exact h
  | cons k ks ih =>
    rw [ReservedMem.runCalls] at hk
    split at hk
    · refine ih (h.step k ‹_› fun a n heq => ?_) (fun k' hk' => hno k' (List.mem_cons_of_mem _ hk')) hk
      exact absurd heq (hno k List.mem_cons_self a n)
    · cases hk

theorem FreesInMemory.agree (h : FreesInMemory c s) (he : c.edmm = true) : Agree c s := by
  induction h with
  | @init s h =>
    have hb : Blank s.vmm := by
      rw [h.vmm]
      exact ⟨rfl, rfl⟩
    intro p hp hlt
    rw [h.committed] at hlt
    rw [hb.pages p]
    exact h.epcm p hp (by omega)
  | step h₀ k hk hmem ih =>
    exact ((wp_of_run hk).mp (spec_run (u := True) k h₀.reaches.sound) rfl).2 he ih hmem

/-- **Protecting reaches the permissions asked for on every page of the range**, in
the descriptors and in the processor, and changes nothing elsewhere; a call that
fails changes nothing. -/
theorem tprotect_exact (h : FreesInMemory c s) (he : c.edmm = true) (a n : UInt64) (prot : Prot) :
    ∃ r s', sgxTprotectRsrvMem c a n prot s = some (r, s') ∧
      (r = .done .success →
        (∀ p, a.toNat ≤ p → p < a.toNat + n.toNat → s'.epcm p = prot.perms ∧
          ∃ t, s'.pages p = some t ∧ t.perms = convertSiFlagsToProtect prot.perms) ∧
        ∀ p, ¬(a.toNat ≤ p ∧ p < a.toNat + n.toNat) →
          s'.epcm p = s.epcm p ∧ s'.pages p = s.pages p) ∧
      ∀ z, r = .done z → z ≠ .success → s'.pages = s.pages ∧ s'.epcm = s.epcm := by
  have hs := h.reaches.sound
  obtain ⟨r, s', hrun, hr⟩ := wp_false_iff.mp (spec_sgxTprotectRsrvMem a n prot hs.valid)
  refine ⟨r, s', hrun, fun hz => ?_, fun z hz hne => ?_⟩
  · obtain ⟨-, -, ⟨-, -, hno⟩ | ⟨-, -, hb, hask, hp⟩⟩ := hr _ hz
    · exact absurd rfl (hno he)
    refine ⟨fun p h1 h2 => ?_, fun p hp' => ⟨hp.outside p hp', ?_⟩⟩
    · rcases ht : s.pages p with _ | t
      · exact absurd ht (hp.covered p h1 h2)
      refine ⟨hp.inside p t h1 h2 ht ((h.agree he).at hs (hb.trans h1) ht), ?_⟩
      rw [hp.pages, if_pos ⟨h1, h2⟩, ht]
      exact ⟨_, rfl, rfl⟩
    · rw [hp.pages, if_neg hp']
  · obtain ⟨-, -, ⟨hpages, hq, -⟩ | ⟨-, hs', -⟩⟩ := hr _ hz
    · exact ⟨hpages, hq.epcm⟩
    · exact absurd hs' hne

/-- Two pages, one of them already protected, are made executable. -/
theorem tprotect_exact_mixed : ∃ s s', FreesInMemory smallConfig s ∧
    sgxTprotectRsrvMem smallConfig 8192 8192
      ⟨true, false, true, false⟩ s = some (.done .success, s') ∧
    s.epcm 8192 = ⟨true, false, false⟩ ∧ s'.epcm 8192 = ⟨true, false, true⟩ ∧
    s'.epcm 12288 = ⟨true, false, true⟩ := by
  obtain ⟨s, r, s', hs, h₃, hobs⟩ := observe_call smallConfig
    [.alloc 0 8192, .tprotect 8192 4096 ⟨true, false, false, false⟩]
    (loaded (fun _ => true) fun _ => .ok)
    (sgxTprotectRsrvMem · 8192 8192 ⟨true, false, true, false⟩)
    (fun s r _ => (r, s.epcm 8192)) (.done .success, ⟨true, false, false⟩) (by decide +kernel)
  obtain ⟨rfl, hold⟩ := Prod.mk.inj hobs
  replace hs := (FreesInMemory.init (c := smallConfig) ⟨rfl, rfl, rfl, rfl, fun _ _ _ => rfl⟩).runCalls
    (by simp) hs
  obtain ⟨r, s'', h₃', hok, -⟩ := tprotect_exact hs rfl 8192 8192 ⟨true, false, true, false⟩
  obtain ⟨rfl, rfl⟩ := Prod.mk.inj (Option.some.inj (h₃'.symm.trans h₃))
  obtain ⟨hin, -⟩ := hok rfl
  exact ⟨s, s'', hs, h₃, hold, (hin 8192 (by decide) (by decide)).1,
    (hin 12288 (by decide) (by decide)).1⟩

set_option maxRecDepth 100000 in
/-- After a call that freed too much, memory that is allocated again still has the
permissions it had, and protecting it does nothing and succeeds. -/
theorem tprotect_without_effect :
    ∃ s s', Reaches wideConfig s ∧
      sgxTprotectRsrvMem wideConfig 8192 4096
        ⟨true, true, false, false⟩ s = some (.done .success, s') ∧
      s'.epcm 8192 = ⟨true, false, true⟩ := by
  obtain ⟨s, r, s', hs, hrun, hobs⟩ := observe_call wideConfig
    (fullList ++ [.tprotect 8192 12288 ⟨true, false, true, false⟩, .free 12288 4096,
      .alloc 8192 4096]) (loaded (fun i => i < 32) fun _ => .ok)
    (sgxTprotectRsrvMem · 8192 4096 ⟨true, true, false, false⟩)
    (fun _ r s' => (r, s'.epcm 8192)) (.done .success, ⟨true, false, true⟩) (by decide +kernel)
  obtain ⟨rfl, h⟩ := Prod.mk.inj hobs
  exact ⟨s, s', (Reaches.loaded _ _ _).runCalls hs, hrun, h⟩

end Permissions

end ReservedMem
