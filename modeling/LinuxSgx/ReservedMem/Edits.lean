/-
The functions of `mm_vrd.cpp` on well-formed lists.

* **`spec_splitVrdsIfNeeded`** — cuts at both ends of a range, unless an end is
  in no descriptor or `malloc` fails; the map of pages stays in any case;
* **`spec_combineVrds_combined`** — merges descriptors into the list `combined`;
  **`spec_combineVrds`** — the map stays;
* **`spec_insertVrd`** — adds one range that was free, at the address asked for
  or at the lowest gap, or reports why not.
-/
import LinuxSgx.ReservedMem.Wf

namespace ReservedMem

open Prog Dll Extents List

variable {u : Prop} {c : Config} {s s' : Vmm} {l pre post : List (Addr × Vrd)} {f : List Addr}
  {a b : Addr} {v w : Vrd} {x y : ℕ}

/-! ### Lookup -/

section Lookup

theorem spec_find (x : ℕ) (h : Rep s l f) (ho : Ordered (bare l)) :
    wp u (findVrd x) (fun r s' => s' = s ∧
      match r with
      | none => pageMap l x = none
      | some a => ∃ pre v post, l = pre ++ (a, v) :: post ∧ v.extent.Has x) s := by
  refine wp_mono (spec_findVrd x h) fun r s' ⟨hs, hr⟩ => ⟨hs, ?_⟩
  cases r with
  | none =>
    refine tagAt_eq_none.mpr fun e he => ?_
    obtain ⟨a, v, hv, rfl⟩ := exists_of_mem_extents he
    rw [← addrInVrd_iff (ho.fits_of_mem hv)]
    exact hr (a, v) hv
  | some a =>
    obtain ⟨pre, v, post, rfl, hin, -⟩ := hr
    exact ⟨pre, v, post, rfl, (addrInVrd_iff (ho.fits_of_mem (a := a) (by simp))).mp hin⟩

theorem Wf.pageMap_eq (hw : Wf c l) (hv : (a, v) ∈ l) (hx : v.extent.Has x) :
    pageMap l x = some v.toVrdAttrs :=
  hw.sorted.tagAt_of_mem (mem_extents hv) hx

end Lookup

/-! ### Splitting -/

section Splitting

/-- The cuts at `x` and `y` that are not there yet. -/
def cutsNeeded (l : List (Addr × Vrd)) (x y : ℕ) : ℕ :=
  (if Cut (extents l) x then 0 else 1) + if Cut (extents l) y then 0 else 1

/-- The second cut. -/
theorem spec_splitEnd (h : Rep s l f) (ho : Ordered (bare l)) :
    wp u (splitEnd y) (fun r s' => Mallocs s s' ∧ ∃ l' f', Rep s' l' f' ∧ Split (y + 1) l l' ∧
      if r then Cut (extents l') (y + 1) ∧ pageMap l y ≠ none ∧
        (Cut (extents l) (y + 1) ∨ Supply s 1)
      else pageMap l y = none ∨ (MallocFailed s s' ∧ ¬Supply s 1) ∧ l' = l ∧
        ¬Cut (extents l) (y + 1)) s := by
  simp only [splitEnd, wp_bind]
  refine wp_mono (spec_find y h ho) ?_
  rintro r s₁ ⟨rfl, hr⟩
  cases r with
  | none => exact ⟨Mallocs.refl _, l, f, h, .refl, .inl hr⟩
  | some a =>
    obtain ⟨pre, v, post, rfl, hin⟩ := hr
    have hmem : (a, v) ∈ pre ++ (a, v) :: post := by simp
    have hfit := ho.fits_of_mem hmem
    have hsome : pageMap (pre ++ (a, v) :: post) y ≠ none := by
      rw [ho.pageMap_eq hmem hin]
      simp
    have hstop : v.extent.stop = v.startAddr + v.size := rfl
    have hin1 : v.startAddr ≤ y := hin.1
    have hin2 : y < v.startAddr + v.size := hin.2
    simp only [wp_bind, wp_node (h.cell rfl), lastOf_eq (by omega) hfit]
    rw [wp_ite]
    refine ⟨fun hlt => ?_, fun hge => ?_⟩
    · refine (wp_bind _ _ _).mpr (wp_mono (spec_getVrd h) ?_)
      rintro r s₁ ⟨hm₁, hr⟩
      have hx' : y + 1 < v.extent.stop := by omega
      cases r with
      | none =>
        refine ⟨hm₁, _, _, hr.2, .refl, .inr ⟨hr.1, rfl, fun hcut => ?_⟩⟩
        have : v.startAddr = y + 1 := hcut _ (mem_extents hmem) ⟨hin1.trans (Nat.le_succ y), hx'⟩
        omega
      | some b =>
        obtain ⟨⟨hone, -⟩, f₁, h₁, hb₁⟩ := hr
        refine (wp_bind _ _ _).mpr (wp_mono (spec_splitAfter h₁ rfl hb₁) ?_)
        rintro _ s₂ ⟨h₂, hm₂⟩
        have hsplit := SplitAt.intro pre post a a b (by omega) hx'
          (Vrd.extent_upTo hfit hin1 hx') (Vrd.extent_beyond hfit hin1 hx')
        exact ⟨hm₁.trans hm₂, _, f₁, h₂, .single hsplit, (hsplit.ordered ho).2.2.1, hsome,
          .inr hone⟩
    · have hcut := ho.sorted_extents.cut_stop (mem_extents hmem)
      rw [show v.extent.stop = y + 1 by omega] at hcut
      exact ⟨Mallocs.refl _, _, f, h, .refl, hcut, hsome, .inl hcut⟩

/-- What `split_vrds_if_needed` leaves: a list that is cut at `x` and behind `y`, or the reason why
it could not be. -/
def SplitResult (l : List (Addr × Vrd)) (x y : ℕ) (s : Vmm) (r : Bool) (s' : Vmm) : Prop :=
  Mallocs s s' ∧ ∃ l₁ l' f', Rep s' l' f' ∧ Split x l l₁ ∧ Split (y + 1) l₁ l' ∧
    if r then Cut (extents l') x ∧ Cut (extents l') (y + 1) ∧ pageMap l x ≠ none ∧
      pageMap l y ≠ none ∧ Supply s (cutsNeeded l x (y + 1))
    else y < x ∨ pageMap l x = none ∨ pageMap l y = none ∨
      (MallocFailed s s' ∧ ¬Supply s (cutsNeeded l x (y + 1))) ∧
        ¬(Cut (extents l') x ∧ Cut (extents l') (y + 1))

/-- Once the list is cut at `x`, the second cut does the rest. -/
theorem spec_splitEnd_of_cut {s₁ : Vmm} {l₁ : List (Addr × Vrd)} {f₁ : List Addr}
    (ho : Ordered (bare l)) (hxy : x ≤ y) (hsome : pageMap l x ≠ none) (h₁ : Rep s₁ l₁ f₁)
    (hm₁ : Mallocs s s₁) (hsplit : Split x l l₁) (hcut : Cut (extents l₁) x)
    (hsup : Supply s (cutsNeeded l x (y + 1)) ↔ Cut (extents l) (y + 1) ∨ Supply s₁ 1) :
    wp u (splitEnd y) (SplitResult l x y s) s₁ := by
  obtain ⟨ho₁, hmap₁, hcuts⟩ := hsplit.ordered ho
  have hcut₁ : Cut (extents l₁) (y + 1) → Cut (extents l) (y + 1) := hsplit.cut_of_ne (by omega)
  refine wp_mono (spec_splitEnd h₁ ho₁) ?_
  rintro r s₂ ⟨hm₂, l', f', h', hsplit', hr⟩
  refine ⟨hm₁.trans hm₂, l₁, l', f', h', hsplit, hsplit', ?_⟩
  rw [hmap₁] at hr
  rw [hsup]
  cases r with
  | true =>
    exact ⟨(hsplit'.ordered ho₁).2.2 x hcut, hr.1, hsome, hr.2.1, hr.2.2.imp_left hcut₁⟩
  | false =>
    refine .inr (.inr (hr.imp_right ?_))
    rintro ⟨⟨hf, hno⟩, rfl, hun⟩
    exact ⟨⟨hf.mono hm₁ (Mallocs.refl _), fun hs => hs.elim (hun ∘ hcuts _) hno⟩, hun ∘ And.right⟩

/-- Both cuts, on any ordered list: they are made if there are descriptors for them. -/
theorem spec_splitVrds (h : Rep s l f) (ho : Ordered (bare l)) :
    wp u (splitVrdsIfNeeded x y) (SplitResult l x y s) s := by
  simp only [splitVrdsIfNeeded, wp_bind]
  refine wp_mono (spec_find x h ho) ?_
  rintro r s₀ ⟨rfl, hr⟩
  cases r with
  | none => exact ⟨Mallocs.refl _, l, l, f, h, .refl, .refl, .inr (.inl hr)⟩
  | some a =>
    rw [wp_ite]
    refine ⟨fun hlt => ⟨Mallocs.refl _, l, l, f, h, .refl, .refl, .inl hlt⟩, fun hxy => ?_⟩
    rw [not_lt] at hxy
    obtain ⟨pre, v, post, hl, hin⟩ := hr
    have hmem : (a, v) ∈ l := by simp [hl]
    have hfit := ho.fits_of_mem hmem
    have hsome : pageMap l x ≠ none := by
      rw [ho.pageMap_eq hmem hin]
      simp
    simp only [wp_bind, wp_node (h.cell hl)]
    rw [wp_ite]
    refine ⟨fun hlt => ?_, fun hge => ?_⟩
    · -- a cut inside of the descriptor takes a new one
      have hun : ¬Cut (extents l) x := fun hcut => hlt.ne (hcut _ (mem_extents hmem) hin)
      refine (wp_bind _ _ _).mpr (wp_mono (spec_getVrd h) ?_)
      rintro r s₁ ⟨hm₁, hr⟩
      cases r with
      | none =>
        obtain ⟨⟨hf, hno⟩, h₁⟩ := hr
        refine ⟨hm₁, l, l, _, h₁, .refl, .refl, .inr (.inr (.inr ⟨⟨hf, fun hs => hno ?_⟩,
          hun ∘ And.left⟩))⟩
        unfold cutsNeeded at hs
        rw [if_neg hun] at hs
        by_cases hcut : Cut (extents l) (y + 1)
        · rwa [if_pos hcut] at hs
        · rw [if_neg hcut] at hs
          exact Supply.one_of_two hs
      | some b =>
        obtain ⟨⟨hone, htwo⟩, f₁, h₁, hb₁⟩ := hr
        refine (wp_bind _ _ _).mpr (wp_mono (spec_splitBefore h₁ hl hb₁) ?_)
        rintro _ s₂ ⟨h₂, hm₂⟩
        have hsplit := SplitAt.intro pre post a b a hlt hin.2 (Vrd.extent_before hfit hlt hin.2)
          (Vrd.extent_after hfit hlt hin.2)
        rw [← hl] at hsplit
        refine spec_splitEnd_of_cut ho hxy hsome h₂ (hm₁.trans hm₂.mallocs) (.single hsplit)
          (hsplit.ordered ho).2.2.1 ?_
        rw [supply_congr h₁ h₂ hm₂, htwo, cutsNeeded, if_neg hun]
        by_cases hcut : Cut (extents l) (y + 1)
        · simpa [hcut] using hone
        · simp [hcut]
    · -- the descriptor starts at `x`
      have hcut := ho.sorted_extents.cut_start (mem_extents hmem)
      rw [show v.extent.start = x from le_antisymm hin.1 (not_lt.mp hge)] at hcut
      refine spec_splitEnd_of_cut ho hxy hsome h (Mallocs.refl _) .refl hcut ?_
      rw [cutsNeeded, if_pos hcut, Nat.zero_add]
      by_cases hcut' : Cut (extents l) (y + 1) <;> simp [hcut', Supply]

/-- What splitting a range establishes. -/
theorem spec_splitVrdsIfNeeded (h : Rep s l f) (hw : Wf c l) (hb : c.rsrvBase ≤ x)
    (hx : 4096 ∣ x) (hy : 4096 ∣ y + 1) (hxy : x ≤ y) :
    wp u (splitVrdsIfNeeded x y) (fun r s' => Mallocs s s' ∧ ∃ l' f', Rep s' l' f' ∧
      Finer c l l' ∧
      if r then Cut (extents l') x ∧ Cut (extents l') (y + 1) ∧ pageMap l x ≠ none ∧
        pageMap l y ≠ none ∧ Supply s (cutsNeeded l x (y + 1))
      else pageMap l x = none ∨ pageMap l y = none ∨
        (MallocFailed s s' ∧ ¬Supply s (cutsNeeded l x (y + 1))) ∧
          ¬(Cut (extents l') x ∧ Cut (extents l') (y + 1))) s := by
  refine wp_mono (spec_splitVrds h (.of_wf hw)) ?_
  rintro r s' ⟨hm, l₁, l', f', h', hsplit, hsplit', hr⟩
  have hfine := hsplit.finer hw hb hx
  refine ⟨hm, l', f', h', hfine.trans (hsplit'.finer hfine.wf (by omega) hy), ?_⟩
  cases r with
  | true => exact hr
  | false => exact hr.resolve_left (not_lt.mpr hxy)

end Splitting

/-! ### Combining -/

section Combining

variable {e addr n : ℕ}

/-- Merge a descriptor into the nearest one before it; the list is that of the
descriptors before, nearest first. -/
def absorb : List Vrd → Vrd → List Vrd
  | [], v => [v]
  | w :: done, v => if Joinable w v then w.join v :: done else v :: w :: done

/-- The descriptors that the loop visits. -/
def visited (e : ℕ) : ℕ → List Vrd → List Vrd
  | _, [] => []
  | addr, v :: vs => if addr < e then v :: visited e v.stop vs else []

/-- The descriptors that it leaves behind itself. -/
def unvisited (e : ℕ) : ℕ → List Vrd → List Vrd
  | _, [] => []
  | addr, v :: vs => if addr < e then unvisited e v.stop vs else v :: vs

/-- The comparison after the loop. -/
def mergeHead : List Vrd → List Vrd
  | v :: w :: post => if Joinable v w then v.join w :: post else v :: w :: post
  | post => post

/-- The descriptors before the one that `find_vrd` finds. -/
def notYet (x : ℕ) (vs : List Vrd) : List Vrd := vs.takeWhile fun v => !addrInVrd x v

/-- The descriptors from it on. -/
def found (x : ℕ) (vs : List Vrd) : List Vrd := vs.dropWhile fun v => !addrInVrd x v

/-- The list after `combine_vrds`. -/
def combined (x e : ℕ) (vs : List Vrd) : List Vrd :=
  ((visited e x (found x vs)).foldl absorb (notYet x vs).reverse).reverse ++
    mergeHead (unvisited e x (found x vs))

/-- The pair is merged or stays, and so does what is around it. -/
theorem spec_combineNext_merged (h : Rep s l f) (hl : l = pre ++ (a, v) :: (b, w) :: post) :
    wp u (combineNext a b) (fun _ s' => Mallocs s s' ∧ ∃ mid f', Rep s' (pre ++ mid ++ post) f' ∧
      Merged l (pre ++ mid ++ post) ∧
      bare mid = if Joinable v w then [v.join w] else [v, w]) s := by
  subst hl
  refine wp_mono (spec_combineNext h rfl) fun _ s' ⟨hm, hr⟩ => ⟨hm, ?_⟩
  by_cases hj : Joinable v w
  · have hr := (if_pos hj).mp hr
    refine ⟨[(a, v.join w)], b :: f, by simpa using hr, .single ?_, (if_pos hj).symm⟩
    simpa using Merge.intro pre post a b hj
  · obtain rfl := (if_neg hj).mp hr
    refine ⟨[(a, v), (b, w)], f, by simpa using h, ?_, (if_neg hj).symm⟩
    rw [append_assoc]
    exact .refl

theorem spec_combineWithPrev (h : Rep s (pre ++ (a, v) :: post) f) :
    wp u (combineWithPrev (last pre) a) (fun _ s' => Mallocs s s' ∧ ∃ pre' f',
      Rep s' (pre' ++ post) f' ∧ Merged (pre ++ (a, v) :: post) (pre' ++ post) ∧
      (bare pre').reverse = absorb (bare pre).reverse v) s := by
  rcases eq_nil_or_concat pre with rfl | ⟨pre, ⟨q, w⟩, rfl⟩
  · exact ⟨Mallocs.refl s, [(a, v)], f, h, .refl, rfl⟩
  · rw [concat_eq_append] at h ⊢
    rw [last_concat, combineWithPrev]
    have hl : pre ++ [(q, w)] ++ (a, v) :: post = pre ++ (q, w) :: (a, v) :: post := by simp
    refine wp_mono (spec_combineNext_merged h hl) ?_
    rintro _ s₁ ⟨hm₁, mid, f₁, h₁, hmerge, hmid⟩
    refine ⟨hm₁, pre ++ mid, f₁, h₁, hmerge, ?_⟩
    rw [bare_append, bare_append, reverse_append, reverse_append, hmid]
    show _ = if Joinable w v then w.join v :: (bare pre).reverse else v :: w :: (bare pre).reverse
    split <;> rfl

theorem spec_combineFrom (h : Rep s (pre ++ post) f) (hn : post.length ≤ n) :
    wp u (combineFrom e n addr (first post)) (fun r s' => Mallocs s s' ∧ ∃ pre' post' f',
      Rep s' (pre' ++ post') f' ∧ Merged (pre ++ post) (pre' ++ post') ∧ r = first post' ∧
      (bare pre').reverse = (visited e addr (bare post)).foldl absorb (bare pre).reverse ∧
      bare post' = unvisited e addr (bare post)) s := by
  induction post generalizing s pre f n addr with
  | nil =>
    rw [first_nil, combineFrom]
    exact ⟨Mallocs.refl s, pre, [], f, h, .refl, rfl, rfl, rfl⟩
  | cons d post ih =>
    obtain ⟨a, v⟩ := d
    cases n with
    | zero => simp at hn
    | succ n =>
      rw [first_cons, combineFrom, wp_ite, bare_cons, visited, unvisited]
      refine ⟨fun hlt => ?_, fun hge => ?_⟩
      · rw [if_pos hlt, if_pos hlt]
        simp only [wp_bind, wp_node (h.cell rfl)]
        refine wp_mono (spec_combineWithPrev h) ?_
        rintro _ s₁ ⟨hm₁, pre₁, f₁, h₁, hmerge₁, hpre₁⟩
        refine wp_mono (ih h₁ (by simpa using hn)) ?_
        rintro r s₂ ⟨hm₂, pre₂, post₂, f₂, h₂, hmerge₂, hr, hpre₂, hpost₂⟩
        refine ⟨hm₁.trans hm₂, pre₂, post₂, f₂, h₂, hmerge₁.trans hmerge₂, hr, ?_, hpost₂⟩
        rw [hpre₂, hpre₁, foldl_cons]
      · rw [if_neg hge, if_neg hge]
        exact ⟨Mallocs.refl s, pre, (a, v) :: post, f, h, .refl, rfl, rfl, rfl⟩

theorem spec_combineWithNext (h : Rep s (pre ++ post) f) :
    wp u (combineWithNext (first post)) (fun _ s' => Mallocs s s' ∧ ∃ post' f',
      Rep s' (pre ++ post') f' ∧ Merged (pre ++ post) (pre ++ post') ∧
      bare post' = mergeHead (bare post)) s := by
  rcases post with _ | ⟨⟨a, v⟩, _ | ⟨⟨b, w⟩, post⟩⟩
  · exact ⟨Mallocs.refl s, [], f, h, .refl, rfl⟩
  · simp only [combineWithNext, first_cons, wp_bind, wp_node (h.cell rfl)]
    exact ⟨Mallocs.refl s, [(a, v)], f, h, .refl, rfl⟩
  · simp only [combineWithNext, first_cons, wp_bind, wp_node (h.cell rfl)]
    refine wp_mono (spec_combineNext_merged h rfl) ?_
    rintro _ s₁ ⟨hm₁, mid, f₁, h₁, hmerge, hmid⟩
    rw [append_assoc] at h₁ hmerge
    refine ⟨hm₁, mid ++ post, f₁, h₁, hmerge, ?_⟩
    rw [bare_append, hmid, bare_cons, bare_cons, mergeHead]
    split <;> rfl

/-- The list is cut where `find_vrd` finds the address. -/
theorem find_cut (hpre : ∀ p ∈ pre, ¬addrInVrd x p.2)
    (hpost : ∀ p ∈ post.head?, addrInVrd x p.2) (hl : l = pre ++ post) :
    notYet x (bare l) = bare pre ∧ found x (bare l) = bare post := by
  have hall : ∀ v ∈ bare pre, (!addrInVrd x v) = true := by
    intro v hv
    obtain ⟨p, hp, rfl⟩ := mem_map.mp hv
    simpa using hpre p hp
  subst hl
  rw [notYet, found, bare_append, takeWhile_append_of_pos hall,
    dropWhile_append_of_pos hall]
  rcases post with _ | ⟨⟨a, v⟩, post⟩
  · simp
  · have hin : addrInVrd x v = true := hpost (a, v) rfl
    simp [hin]

/-- The list that is left, as a function of the one that was there. -/
theorem spec_combineVrds_combined (h : Rep s l f) :
    wp u (combineVrds x e) (fun _ s' => Mallocs s s' ∧ ∃ l' f', Rep s' l' f' ∧ Merged l l' ∧
      bare l' = combined x e (bare l)) s := by
  simp only [combineVrds, wp_bind, wp_get]
  refine wp_mono (spec_findVrd x h) ?_
  rintro r s₁ ⟨rfl, hr⟩
  obtain ⟨pre, post, rfl, rfl, hpre, hpost⟩ : ∃ pre post, l = pre ++ post ∧ r = first post ∧
      (∀ p ∈ pre, ¬addrInVrd x p.2) ∧ ∀ p ∈ post.head?, addrInVrd x p.2 := by
    cases r with
    | none => exact ⟨l, [], by simp, rfl, hr, by simp⟩
    | some a =>
      obtain ⟨pre, v, post, hl, hin, hout⟩ := hr
      exact ⟨pre, (a, v) :: post, hl, rfl, hout, by simpa using hin⟩
  obtain ⟨hnot, hfound⟩ := find_cut hpre hpost rfl
  have hn : post.length ≤ s₁.nextAddr := by
    have := h.length_le
    rw [length_append] at this
    omega
  refine wp_mono (spec_combineFrom h hn) ?_
  rintro r s₂ ⟨hm₂, pre₂, post₂, f₂, h₂, hmerge₂, rfl, hpre₂, hpost₂⟩
  refine wp_mono (spec_combineWithNext h₂) ?_
  rintro _ s₃ ⟨hm₃, post₃, f₃, h₃, hmerge₃, hpost₃⟩
  refine wp_mono (spec_freeListCheckLevel h₃) ?_
  rintro _ s₄ ⟨hm₄, f₄, h₄, -⟩
  refine ⟨(hm₂.trans hm₃).trans hm₄, _, f₄, h₄, hmerge₂.trans hmerge₃, ?_⟩
  rw [bare_append, combined, hnot, hfound, ← hpre₂, reverse_reverse, hpost₃, hpost₂]

theorem spec_combineVrds (h : Rep s l f) (hw : Wf c l) :
    wp u (combineVrds x y) (fun _ s' => Mallocs s s' ∧ ∃ l' f', Rep s' l' f' ∧ Wf c l' ∧
      pageMap l' = pageMap l) s := by
  refine wp_mono (spec_combineVrds_combined h) ?_
  rintro _ s' ⟨hm, l', f', h', hmerge, -⟩
  exact ⟨hm, l', f', h', hmerge.wf hw, (hmerge.ordered (.of_wf hw)).2⟩

end Combining

/-! ### Insertion -/

section Insertion

theorem Config.lastOf_rsrv (c : Config) : lastOf c.rsrvBase c.rsrvSize = c.rsrvEnd - 1 := by
  have h1 := c.rsrvEnd_lt
  have h2 := c.base_pos
  unfold Config.rsrvEnd Config.rsrvBase at *
  unfold lastOf wrap
  omega

theorem Config.rsrvEnd_pos (c : Config) : 0 < c.rsrvEnd := by
  have := c.base_pos
  unfold Config.rsrvEnd Config.rsrvBase
  omega

variable {n size : ℕ}

theorem spec_vrdAllocAddrFrom {addr : ℕ} (h : Rep s (pre ++ post) f) (hw : Wf c (pre ++ post))
    (hn : post.length ≤ n) (haddr : addr ≤ c.rsrvEnd) :
    wp u (vrdAllocAddrFrom c size n addr (first post)) (fun r s' => s' = s ∧
      r = (firstFit c.rsrvEnd size addr (extents post)).getD 0) s := by
  induction post generalizing pre n addr with
  | nil =>
    have hend : wrap (c.rsrvEnd - 1 + 1) = c.rsrvEnd := by
      have h1 := c.rsrvEnd_lt
      have h2 := c.rsrvEnd_pos
      unfold wrap
      omega
    rw [first_nil, vrdAllocAddrFrom, c.lastOf_rsrv, hend, if_neg (not_lt.mpr haddr)]
    by_cases hfit : size ≤ c.rsrvEnd - addr <;> simp [firstFit, extents, hfit]
  | cons d post ih =>
    obtain ⟨a, v⟩ := d
    cases n with
    | zero => simp at hn
    | succ n =>
      have hmem : (a, v) ∈ pre ++ (a, v) :: post := by simp
      rw [first_cons, vrdAllocAddrFrom, wp_bind, wp_node (h.cell rfl), extents_cons, firstFit]
      have hstart : v.extent.start = v.startAddr := rfl
      by_cases hfit : addr < v.startAddr ∧ size ≤ v.startAddr - addr
      · rw [if_pos hfit, hstart, if_pos hfit]
        exact ⟨rfl, rfl⟩
      · rw [if_neg hfit, hstart, if_neg hfit, Vrd.stop_eq (hw.fits hmem)]
        exact ih (show Rep _ ((pre ++ [(a, v)]) ++ post) _ by simpa using h) (by simpa using hw)
          (by simpa using hn)
          (hw.stop_le (mem_extents hmem))

theorem spec_vrdAllocAddr (size : ℕ) (h : Rep s l f) (hw : Wf c l) :
    wp u (vrdAllocAddr c size) (fun r s' => s' = s ∧
      r = (firstFit c.rsrvEnd size c.rsrvBase (extents l)).getD 0) s := by
  rw [vrdAllocAddr, wp_bind, wp_get, h.vrdl]
  exact spec_vrdAllocAddrFrom (show Rep s ([] ++ l) f from h) hw h.length_le (Nat.le_add_right _ _)

/-- A cell in neither list may be written. -/
theorem Rep.write_spare (h : Rep s l f) (ha : Spare s l f a) (n : Cell Vrd) :
    Rep { s with heap := Function.update s.heap a (some n) } l f ∧
      Spare { s with heap := Function.update s.heap a (some n) } l f a :=
  ⟨{ h with
    list := h.list.update ha.notMem_list _, stack := h.stack.update ha.notMem_free _ }, ⟨_, Function.update_self _ _ _⟩, ha.notMem, ha.fresh⟩

/-- The ranges of two descriptors share an address. -/
def Overlap (v w : Vrd) : Prop := w.startAddr < v.extent.stop ∧ v.startAddr < w.extent.stop

theorem addrsInVrd_iff (hv : v.Fits) (hpos : 0 < v.size) (hw : w.Fits) :
    addrsInVrd v.startAddr (lastOf v.startAddr v.size) w ↔ Overlap v w := by
  have hstop : v.extent.stop = v.startAddr + v.size := rfl
  simp only [addrsInVrd, Vrd.stop_eq hw, lastOf_eq hpos hv, Overlap, decide_eq_true_eq]
  omega

/-- The search for the place of a new descriptor. -/
theorem spec_insertFrom {nx pv : Option Addr} (h : Rep s (pre ++ post) f)
    (hs : Sorted (extents (pre ++ post))) (hfit : ∀ p ∈ post, p.2.Fits)
    (ha : Spare s (pre ++ post) f a) (hcell : s.heap a = some ⟨v, nx, pv⟩) (hv : v.Fits)
    (hpos : 0 < v.size) (hpre : ∀ p ∈ pre, p.2.extent.stop ≤ v.startAddr)
    (hhead : pre = [] → ∀ p ∈ post.head?, p.2.extent.stop ≤ v.startAddr) (hn : post.length ≤ n) :
    wp u (insertFrom a v.startAddr v.size (lastOf v.startAddr v.size) n (last pre) (first post))
      (fun r s' => Mallocs s s' ∧
        match r with
        | .success => ∃ pre' post', pre ++ post = pre' ++ post' ∧
            Rep s' (pre' ++ (a, v) :: post') f ∧ (∀ p ∈ pre', p.2.extent.stop ≤ v.startAddr) ∧
            (∀ p ∈ post', v.extent.stop ≤ p.2.startAddr) ∧ (pre' = [] → pre ++ post = [])
        | .invalidParameter => s' = s ∧ ∃ p ∈ post, Overlap v p.2
        | _ => False) s := by
  have hstop : v.extent.stop = v.startAddr + v.size := rfl
  induction post generalizing pre n with
  | nil =>
    rw [first_nil, insertFrom, wp_bind]
    rw [append_nil] at h ha
    refine wp_mono (spec_linkLast h ha hcell) fun _ s' ⟨h', hm⟩ => ⟨hm, ?_⟩
    exact ⟨pre, [], rfl, h', hpre, by simp, by simp⟩
  | cons d post ih =>
    obtain ⟨b, w⟩ := d
    cases n with
    | zero => simp at hn
    | succ n =>
      have hwf : w.Fits := hfit (b, w) (by simp)
      have hs' : Sorted (extents pre ++ w.extent :: extents post) := by simpa using hs
      have hwstop : w.extent.stop = w.startAddr + w.size := rfl
      have hnowrap : ¬wrap (v.startAddr + v.size) < v.startAddr := by
        rw [wrap, Nat.mod_eq_of_lt hv]
        omega
      rw [first_cons, insertFrom, wp_bind, wp_node (h.cell rfl), wp_ite]
      -- either the range overlaps the next descriptor, or it lies before it, or behind it
      refine ⟨fun hov => ?_, fun hov => ?_⟩
      · exact ⟨Mallocs.refl s, rfl, (b, w), by simp, (addrsInVrd_iff hv hpos hwf).mp hov⟩
      · have hov' : ¬Overlap v w := fun ho => hov ((addrsInVrd_iff hv hpos hwf).mpr ho)
        unfold Overlap at hov'
        rw [if_neg hnowrap, lastOf_eq hpos hv, wp_ite]
        refine ⟨fun hlt => ?_, fun hge => ?_⟩
        · -- it is linked before a descriptor, which is not the locked one
          have hne : pre ≠ [] := by
            intro hnil
            have := hhead hnil (b, w) rfl
            dsimp only at hlt this
            omega
          rw [wp_bind]
          refine wp_mono (spec_linkBefore h rfl hne ha hcell) ?_
          rintro r s' ⟨hr, h', hm⟩
          subst hr
          refine ⟨hm, pre, (b, w) :: post, rfl, h', hpre, fun p hp => ?_, fun hnil => absurd hnil hne⟩
          dsimp only at hlt
          rcases mem_cons.mp hp with rfl | hp
          · dsimp only
            omega
          · have := (sorted_insert_iff.mp hs').2.2.2 p.2.extent (mem_extents hp)
            have hps : p.2.extent.start = p.2.startAddr := rfl
            omega
        · have hle : w.extent.stop ≤ v.startAddr := by
            dsimp only at hge
            omega
          have hassoc : pre ++ (b, w) :: post = (pre ++ [(b, w)]) ++ post := by simp
          rw [hassoc] at h hs ha
          -- the search goes on with the descriptor among those that end before the range
          have key := ih h hs (fun p hp => hfit p (mem_cons_of_mem _ hp)) ha
            (fun p hp => ?_) (fun hnil => by simp at hnil) (by simpa using hn : post.length ≤ n)
          · rw [lastOf_eq hpos hv, last_concat] at key
            refine wp_mono key fun r s' ⟨hm, hr⟩ => ⟨hm, ?_⟩
            cases r with
            | success =>
              obtain ⟨pre', post', heq, h'⟩ := hr
              exact ⟨pre', post', hassoc.trans heq, by simpa using h'⟩
            | invalidParameter =>
              obtain ⟨hs', p, hp, ho⟩ := hr
              exact ⟨hs', p, mem_cons_of_mem _ hp, ho⟩
            | unexpected | outOfMemory | updateNeeded => exact hr
          · rcases mem_append.mp hp with hp | hp
            · exact hpre p hp
            · rw [mem_singleton] at hp
              subst hp
              exact hle

/-- What `insert_vrd` is asked for lies in the reserved memory. -/
structure InsertArgs (c : Config) (start size : ℕ) : Prop where
  pos : 0 < size
  size_aligned : 4096 ∣ size
  place : start ≠ 0 → c.rsrvBase ≤ start ∧ start + size ≤ c.rsrvEnd ∧ 4096 ∣ start

/-- The address at which a range of reserved memory is inserted. -/
def place (c : Config) (l : List (Addr × Vrd)) (start size : ℕ) : ℕ :=
  if start = 0 then (firstFit c.rsrvEnd size c.rsrvBase (extents l)).getD 0 else start

theorem Wf.stop_aligned (hw : Wf c l) {e : Extent VrdAttrs} (he : e ∈ extents l) :
    4096 ∣ e.stop := by
  obtain ⟨a, v, hv, rfl⟩ := exists_of_mem_extents he
  rcases hw.mem_cases hv with rfl | hu
  · exact dvd_add c.base_aligned c.offset_aligned
  · exact dvd_add hu.start_aligned hu.size_aligned

theorem Config.rsrvBase_pos (c : Config) : 0 < c.rsrvBase := by
  have := c.base_pos
  unfold Config.rsrvBase
  omega

/-- The lowest gap, if an address is found at all. -/
theorem Wf.firstFit_place (hw : Wf c l)
    (hx : firstFit c.rsrvEnd size c.rsrvBase (extents l) = some x) :
    c.rsrvBase ≤ x ∧ x + size ≤ c.rsrvEnd ∧ 4096 ∣ x ∧ Gap (extents l) x size := by
  obtain ⟨h1, h2, h3⟩ := firstFit_gap hw.sorted (fun e he => hw.base_le_stop he)
    (fun e he => hw.stop_le he) (Nat.le_add_right _ _) hx
  refine ⟨h1, h2, ?_, h3⟩
  rcases firstFit_cases hx with rfl | ⟨e, he, rfl⟩
  · exact dvd_add c.base_aligned c.offset_aligned
  · exact hw.stop_aligned he

variable {start : ℕ}

/-- A range that is given or found: where it lies. -/
theorem Wf.place_spec (hw : Wf c l) (hargs : InsertArgs c start size)
    (hne : place c l start size ≠ 0) :
    c.rsrvBase ≤ place c l start size ∧ place c l start size + size ≤ c.rsrvEnd ∧
      4096 ∣ place c l start size := by
  unfold place at *
  by_cases h0 : start = 0
  · rw [if_pos h0] at hne ⊢
    rcases hx : firstFit c.rsrvEnd size c.rsrvBase (extents l) with _ | x
    · rw [hx] at hne
      exact absurd rfl hne
    · obtain ⟨h1, h2, h3, -⟩ := hw.firstFit_place hx
      exact ⟨h1, h2, h3⟩
  · rw [if_neg h0]
    exact hargs.place h0

theorem not_gap_of_overlap {attrs : VrdAttrs} (hw : (b, w) ∈ l) (ho : Overlap ⟨attrs, x, size⟩ w)
    (hpos : 0 < size) (hwpos : 0 < w.size) :
    ¬Gap (extents l) x size := by
  intro hg
  have ho1 : w.startAddr < x + size := ho.1
  have ho2 : x < w.extent.stop := ho.2
  have hstop : w.extent.stop = w.startAddr + w.size := rfl
  have hno := tagAt_eq_none.mp (hg (max x w.startAddr) (le_max_left _ _) (by omega)) _
    (mem_extents hw)
  refine hno ⟨le_max_right _ _, ?_⟩
  omega

/-- What insertion of a range of reserved memory does. -/
inductive Inserted (c : Config) (l : List (Addr × Vrd)) (start size : ℕ) (attrs : VrdAttrs)
    (s s' : Vmm) : Except SgxStatus Addr → Prop
  | ok {a : Addr} {pre post : List (Addr × Vrd)} {f' : List Addr} (hl : l = pre ++ post)
      (rep : Rep s' (pre ++ (a, ⟨attrs, place c l start size, size⟩) :: post) f')
      (wf : Wf c (pre ++ (a, ⟨attrs, place c l start size, size⟩) :: post))
      (gap : Gap (extents l) (place c l start size) size)
      (found : place c l start size ≠ 0) : Inserted c l start size attrs s s' (.ok a)
  | noMemory {f' : List Addr} (rep : Rep s' l f') (failed : MallocFailed s s') :
      Inserted c l start size attrs s s' (.error .outOfMemory)
  | noPlace {f' : List Addr} (rep : Rep s' l f')
      (full : place c l start size = 0 ∨ ¬Gap (extents l) (place c l start size) size) :
      Inserted c l start size attrs s s' (.error .invalidParameter)

theorem spec_insertAt {attrs : VrdAttrs} (h : Rep s l f) (hs : Sorted (extents l))
    (hfit : ∀ p ∈ l, p.2.Fits) (ha : Spare s l f a) (hpos : 0 < size) (hv : x + size < 2 ^ 64)
    (hhead : ∀ p ∈ l.head?, p.2.extent.stop ≤ x) :
    wp u (insertAt a x size attrs) (fun r s' => Mallocs s s' ∧
      ((∃ pre post, l = pre ++ post ∧ r = .ok a ∧ Rep s' (pre ++ (a, ⟨attrs, x, size⟩) :: post) f ∧
        (∀ p ∈ pre, p.2.extent.stop ≤ x) ∧ (∀ p ∈ post, x + size ≤ p.2.startAddr) ∧
        (pre = [] → l = [])) ∨
      (r = .error .invalidParameter ∧ (∃ f', Rep s' l f') ∧
        ∃ p ∈ l, Overlap ⟨attrs, x, size⟩ p.2))) s := by
  obtain ⟨⟨w, nx, pv⟩, hcell⟩ := ha.cell
  simp only [insertAt, writeVrd, wp_bind, wp_writeNode hcell, wp_get]
  obtain ⟨h₁, ha₁⟩ := h.write_spare ha ⟨⟨attrs, x, size⟩, nx, pv⟩
  have key := spec_insertFrom (u := u) (v := ⟨attrs, x, size⟩) (show Rep _ ([] ++ l) f from h₁) hs hfit ha₁
    (Function.update_self _ _ _) hv hpos (by simp) (fun _ => hhead) h₁.length_le
  rw [last_nil, ← h.vrdl] at key
  refine wp_mono key ?_
  rintro r s₂ ⟨hm, hr⟩
  cases r with
  | success =>
    obtain ⟨pre, post, hl, h₂, hpre, hpost, hnil⟩ := hr
    exact ⟨⟨hm.same, hm.le⟩, .inl ⟨pre, post, hl, rfl, h₂, hpre, hpost, hnil⟩⟩
  | invalidParameter =>
    obtain ⟨rfl, p, hp, ho⟩ := hr
    refine (wp_bind _ _ _).mpr (wp_mono (spec_freeListPutVrd h₁ ha₁) ?_)
    rintro _ s₃ ⟨_, h₃, hm₃⟩
    exact ⟨⟨hm₃.same, hm₃.mallocs.le⟩, .inr ⟨rfl, ⟨_, h₃⟩, p, hp, ho⟩⟩
  | unexpected | outOfMemory | updateNeeded => exact hr.elim

theorem Wf.head_stop (hw : Wf c l) (hx : c.rsrvBase ≤ x) : ∀ p ∈ l.head?, p.2.extent.stop ≤ x := by
  obtain ⟨a, rest, rfl⟩ := hw.head
  intro p hp
  cases hp
  exact hx

theorem spec_insertVrd {perms : Protect} (h : Rep s l f) (hw : Wf c l)
    (hargs : InsertArgs c start size) :
    wp u (insertVrd c start size perms .committed .reg) (fun r s' => Mallocs s s' ∧
      Inserted c l start size ⟨0, .committed, perms, .reg⟩ s s' r) s := by
  have haddr : wp u (chooseAddr c start size) (fun r s' => s' = s ∧ r = place c l start size) s := by
    unfold place chooseAddr
    by_cases h0 : start = 0
    · rw [if_pos h0, if_pos h0]
      exact spec_vrdAllocAddr size h hw
    · rw [if_neg h0, if_neg h0]
      exact ⟨rfl, rfl⟩
  rw [insertVrd, wp_bind]
  refine wp_mono haddr ?_
  rintro addr s₁ ⟨hs, hplace⟩
  subst hs hplace
  rw [wp_ite]
  refine ⟨fun hbad => ?_, fun hgood => ?_⟩
  · -- an address was chosen that is 0 or outside of the enclave: only 0 is possible
    refine ⟨Mallocs.refl _, Inserted.noPlace h (.inl ?_)⟩
    by_contra hne
    obtain ⟨h1, h2, -⟩ := hw.place_spec hargs hne
    have hlt := c.rsrvEnd_lt
    rw [c.lastOf_rsrv, lastOf_eq hargs.pos (by omega)] at hbad
    have hb : c.enclaveBase ≤ c.rsrvBase := Nat.le_add_right _ _
    have := hargs.pos
    omega
  · have hne : place c l start size ≠ 0 := fun h0 => hgood (.inl h0)
    obtain ⟨h1, h2, h3⟩ := hw.place_spec hargs hne
    have hlt : place c l start size + size < 2 ^ 64 := lt_of_le_of_lt h2 c.rsrvEnd_lt
    refine (wp_bind _ _ _).mpr (wp_mono (spec_getVrd h) ?_)
    rintro r s₂ ⟨hm₂, hr⟩
    cases r with
    | none => exact ⟨hm₂, Inserted.noMemory hr.2 hr.1.1⟩
    | some a =>
      obtain ⟨-, f₂, h₂, ha⟩ := hr
      refine wp_mono (spec_insertAt h₂ hw.sorted (fun p hp => hw.fits (a := p.1) hp) ha hargs.pos
        hlt (hw.head_stop h1)) fun r s₃ ⟨hm₃, hr⟩ => ⟨hm₂.trans hm₃, ?_⟩
      rcases hr with ⟨pre, post, rfl, rfl, h₃, hpre, hpost, hnil⟩ | ⟨rfl, ⟨f', h₃⟩, p, hp, ho⟩
      · -- the locked descriptor stays the first one
        have hpne : pre ≠ [] := fun hp => hw.ne_nil (hnil hp)
        have huser : UserVrd c ⟨⟨0, .committed, perms, .reg⟩, place c (pre ++ post) start size, size⟩ :=
          ⟨rfl, rfl, rfl, h3, hargs.size_aligned, h2⟩
        obtain ⟨hwf, -⟩ := hw.insert (a := a) hpne huser hargs.pos hpre hpost
        refine Inserted.ok rfl h₃ hwf (fun q hq1 hq2 => tagAt_eq_none.mpr fun e he => ?_) hne
        obtain ⟨b, w, hbw, rfl⟩ := exists_of_mem_extents he
        unfold Extent.Has
        rcases mem_append.mp hbw with hb | hb
        · have := hpre _ hb
          dsimp only at this
          omega
        · have := hpost _ hb
          have hst : w.extent.start = w.startAddr := rfl
          dsimp only at this
          omega
      · refine Inserted.noPlace h₃ (.inr (not_gap_of_overlap (b := p.1) hp ho hargs.pos ?_))
        exact hw.sorted.pos _ (mem_extents (a := p.1) hp)

end Insertion

end ReservedMem
