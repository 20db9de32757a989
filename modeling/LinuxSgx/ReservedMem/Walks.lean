/-
Loops over the descriptors of a range of addresses.

`forVrds` goes from one descriptor to the next.  The rule `wp_forRange` takes an
invariant that speaks of the address reached and of the list represented there;
the number of descriptors that end beyond the address bounds the loop.  From it:

* **`spec_checkVrdsPagetype`**, **`spec_checkVrdsPrPeNeeded`** — the checks fail
  exactly at a hole, and what they collect is about the pages of the range;
* **`spec_setPerms`**, **`spec_freeVrds`** — between two cuts the pages of the
  range change, and no others.
-/
import LinuxSgx.ReservedMem.Edits

namespace ReservedMem

open Prog Dll Extents List

variable {u : Prop} {c : Config} {s s' : Vmm} {l pre post : List (Addr × Vrd)} {f : List Addr}
  {a b : Addr} {v w : Vrd} {x y e : ℕ} {β : Type}

/-! ### The rule -/

section Rule

/-- The number of descriptors that end beyond an address. -/
def ahead (l : List (Addr × Vrd)) (x : ℕ) : ℕ := l.countP fun p => x < p.2.extent.stop

theorem ahead_le_length (l : List (Addr × Vrd)) (x : ℕ) : ahead l x ≤ l.length :=
  countP_le_length

/-- Past a descriptor there are fewer. -/
theorem ahead_stop_lt (hl : l = pre ++ (a, v) :: post) (hx : x < v.extent.stop) :
    ahead l v.extent.stop < ahead l x := by
  have hmono : ∀ k : List (Addr × Vrd), ahead k v.extent.stop ≤ ahead k x := fun k =>
    countP_mono_left fun p _ hp => by
      simp only [decide_eq_true_eq] at hp ⊢
      omega
  have h1 := hmono pre
  have h2 := hmono post
  unfold ahead at *
  rw [hl, countP_append, countP_append, countP_cons, countP_cons]
  simp only [lt_self_iff_false, decide_false, hx, decide_true, if_true]
  simp only [Bool.false_eq_true, if_false]
  omega

variable {Q : Option β → Vmm → Prop} {body : β → Addr → Vrd → Prog Vmm (Option β)}

/-- The invariant rule for loops over descriptors: `I x acc s l` holds when the
address `x` is reached in state `s`, which represents `l`. -/
theorem wp_forRange (I : ℕ → β → Vmm → List (Addr × Vrd) → Prop)
    (hrep : ∀ x acc s l, I x acc s l → Wf c l ∧ ∃ f, Rep s l f)
    (hbody : ∀ x acc s l, I x acc s l → x < e → ∀ pre a v post, l = pre ++ (a, v) :: post →
      v.extent.Has x → wp u (body acc a v) (fun r s' =>
        match r with
        | none => Q none s'
        | some acc' => ∃ l', I v.extent.stop acc' s' l' ∧ ∀ y, ahead l' y ≤ ahead l y) s)
    (hhole : ∀ x acc s l, I x acc s l → x < e → pageMap l x = none → Q none s)
    (hend : ∀ x acc s l, I x acc s l → e ≤ x → Q (some acc) s) {acc : β} (hI : I x acc s l) :
    wp u (forRange body x e acc) Q s := by
  -- the fuel is more than the number of descriptors that lie ahead
  have hloop : ∀ n x acc s l, I x acc s l → ahead l x < n →
      wp u (forVrds body e n x acc) Q s := by
    intro n
    induction n with
    | zero => exact fun _ _ _ _ _ hn => absurd hn (Nat.not_lt_zero _)
    | succ n ih =>
      intro x acc s l hI hn
      rw [forVrds, wp_ite]
      refine ⟨fun hlt => ?_, fun hge => hend x acc s l hI (not_lt.mp hge)⟩
      obtain ⟨hw, f, h⟩ := hrep x acc s l hI
      rw [wp_bind]
      refine wp_mono (spec_find x h (.of_wf hw)) ?_
      rintro r s₁ ⟨hs, hr⟩
      subst hs
      cases r with
      | none => exact hhole x acc _ l hI hlt hr
      | some a =>
        obtain ⟨pre, v, post, hl, hin⟩ := hr
        rw [wp_bind, wp_node (h.cell hl), wp_bind]
        refine wp_mono (hbody x acc _ l hI hlt pre a v post hl hin) fun r s₂ hr => ?_
        cases r with
        | none => exact hr
        | some acc' =>
          obtain ⟨l', hI', hle⟩ := hr
          dsimp only
          rw [Vrd.stop_eq (hw.fits (a := a) (by rw [hl]; simp))]
          refine ih _ _ _ _ hI' ?_
          have := ahead_stop_lt hl hin.2
          have := hle v.extent.stop
          omega
  rw [forRange, wp_bind, wp_get]
  obtain ⟨-, f, h⟩ := hrep x acc s l hI
  refine hloop _ _ _ _ _ hI ?_
  have := ahead_le_length l x
  have := h.length_le
  omega

end Rule

/-! ### Checks -/

section Checks

/-- Every address of `[x, y)` is allocated. -/
def Covered (l : List (Addr × Vrd)) (x y : ℕ) : Prop := ∀ p, x ≤ p → p < y → pageMap l p ≠ none

theorem Covered.step (h : Covered l x y) (hw : Wf c l) (hv : (a, v) ∈ l) (hy : v.extent.Has y) :
    Covered l x v.extent.stop := by
  intro p hp hp'
  rcases lt_or_ge p y with hlt | hge
  · exact h p hp hlt
  · rw [hw.pageMap_eq hv ⟨hy.1.trans hge, hp'⟩]
    simp

theorem Covered.mono {z : ℕ} (h : Covered l x z) (hy : y ≤ z) : Covered l x y :=
  fun p hp hp' => h p hp (hp'.trans_le hy)

/-- A loop that changes nothing and collects `g` over the descriptors of a range. -/
theorem spec_scan (g : β → Vrd → Option β) (P : ℕ → β → Prop) {acc : β} (h : Rep s l f)
    (hw : Wf c l) (hb : c.rsrvBase ≤ x) (hP : P x acc)
    (hg : ∀ y acc a v, P y acc → x ≤ y → y < e → (a, v) ∈ l → UserVrd c v → v.extent.Has y →
      ∃ acc', g acc v = some acc' ∧ P v.extent.stop acc') :
    wp u (forRange (fun acc _ v => pure (g acc v)) x e acc) (fun r s' => s' = s ∧
      match r with
      | none => ¬Covered l x e
      | some acc => Covered l x e ∧ ∃ y, e ≤ y ∧ P y acc) s := by
  refine wp_forRange (c := c)
    (fun y acc s' l' => s' = s ∧ l' = l ∧ x ≤ y ∧ Covered l x y ∧ P y acc) ?_ ?_ ?_ ?_
    ⟨rfl, rfl, le_rfl, fun p h1 h2 => absurd h1 (not_le.mpr h2), hP⟩
  · rintro y acc s' l' ⟨rfl, rfl, -⟩
    exact ⟨hw, f, h⟩
  · rintro y acc s' l' ⟨rfl, rfl, hxy, hcov, hPy⟩ hlt pre a v post hl hin
    have hmem : (a, v) ∈ l' := by simp [hl]
    obtain ⟨acc', hacc, hP'⟩ :=
      hg y acc a v hPy hxy hlt hmem (hw.user_of_has hmem hin (hb.trans hxy)) hin
    rw [wp_pure, hacc]
    exact ⟨l', ⟨rfl, rfl, hxy.trans hin.2.le, hcov.step hw hmem hin, hP'⟩, fun _ => le_rfl⟩
  · rintro y acc s' l' ⟨rfl, rfl, hxy, hcov, hPy⟩ hlt hhole
    exact ⟨rfl, fun hc => hc y hxy hlt hhole⟩
  · rintro y acc s' l' ⟨rfl, rfl, hxy, hcov, hPy⟩ hge
    exact ⟨rfl, hcov.mono hge, y, hge, hPy⟩

theorem spec_checkVrdsPagetype (h : Rep s l f) (hw : Wf c l) (hb : c.rsrvBase ≤ x) :
    wp u (checkVrdsPagetype x e .reg) (fun r s' => s' = s ∧ (r ↔ Covered l x e)) s := by
  simp only [checkVrdsPagetype, checkVrdsPagetypes, wp_bind]
  refine wp_mono (spec_scan (fun (_ : Unit) v =>
    if v.pageType ≠ .reg ∧ v.pageType ≠ .reg then none else some ()) (fun _ _ => True) h hw hb
    trivial ?_) ?_
  · intro y acc a v _ _ _ _ hu _
    exact ⟨(), by simp [hu.pageType], trivial⟩
  · rintro r s' ⟨hs, hr⟩
    rw [wp_pure]
    refine ⟨hs, ?_⟩
    cases r with
    | none => simpa using hr
    | some _ => simpa using hr.1

/-- Some page of the range, before `y`, calls for a change. -/
def Needs (l : List (Addr × Vrd)) (q : Protect → Bool) (x e y : ℕ) : Prop :=
  ∃ p t, x ≤ p ∧ p < e ∧ p < y ∧ pageMap l p = some t ∧ q t.perms

theorem Needs.step {q : Protect → Bool} (hw : Wf c l) (hv : (a, v) ∈ l) (hy : v.extent.Has y)
    (hxy : x ≤ y) (hlt : y < e) :
    Needs l q x e v.extent.stop ↔ Needs l q x e y ∨ q v.perms := by
  constructor
  · rintro ⟨p, t, h1, h2, h3, h4, h5⟩
    rcases lt_or_ge p y with hp | hp
    · exact .inl ⟨p, t, h1, h2, hp, h4, h5⟩
    · rw [hw.pageMap_eq hv ⟨hy.1.trans hp, h3⟩] at h4
      cases h4
      exact .inr h5
  · rintro (⟨p, t, h1, h2, h3, h4, h5⟩ | hq)
    · exact ⟨p, t, h1, h2, h3.trans hy.2, h4, h5⟩
    · exact ⟨y, _, hxy, hlt, hy.2, hw.pageMap_eq hv hy, hq⟩

theorem spec_checkVrdsPrPeNeeded (np : Protect) (h : Rep s l f) (hw : Wf c l)
    (hb : c.rsrvBase ≤ x) :
    wp u (checkVrdsPrPeNeeded x e np) (fun r s' => s' = s ∧
      match r with
      | none => ¬Covered l x e
      | some (pr, pe) => Covered l x e ∧ (pr ↔ Needs l (prNeeded · np) x e e) ∧
        (pe ↔ Needs l (peNeeded · np) x e e)) s := by
  have hlast : ∀ (q : Protect → Bool) y, e ≤ y → (Needs l q x e y ↔ Needs l q x e e) := by
    intro q y hy
    constructor
    · rintro ⟨p, t, h1, h2, -, h4⟩
      exact ⟨p, t, h1, h2, h2, h4⟩
    · rintro ⟨p, t, h1, h2, -, h4⟩
      exact ⟨p, t, h1, h2, h2.trans_le hy, h4⟩
  refine wp_mono (spec_scan (fun (acc : Bool × Bool) v =>
    if v.state = .committed ∨ v.state = .committedSystem then
      some (acc.1 || prNeeded v.perms np, acc.2 || peNeeded v.perms np) else none)
    (fun y acc => (acc.1 ↔ Needs l (prNeeded · np) x e y) ∧
      (acc.2 ↔ Needs l (peNeeded · np) x e y)) h hw hb ?_ ?_) fun r s' ⟨hs, hr⟩ => ⟨hs, ?_⟩
  · have hnot : ∀ q, ¬Needs l q x e x := by
      rintro q ⟨p, t, h1, -, h3, -⟩
      exact absurd h1 (not_le.mpr h3)
    simp [hnot]
  · intro y acc a v hP hxy hlt hmem hu hin
    refine ⟨_, by rw [if_pos (.inl hu.state)], ?_, ?_⟩
    · rw [Needs.step hw hmem hin hxy hlt, ← hP.1, Bool.or_eq_true]
    · rw [Needs.step hw hmem hin hxy hlt, ← hP.2, Bool.or_eq_true]
  · cases r with
    | none => exact hr
    | some acc =>
      obtain ⟨hcov, y, hy, hpr, hpe⟩ := hr
      rw [hlast _ y hy] at hpr hpe
      exact ⟨hcov, hpr, hpe⟩

end Checks

/-! ### Edits -/

section Edits

/-- What an edit of one descriptor does to the list: it stays where it is, or goes. -/
structure Edited (c : Config) (g : Option VrdAttrs → Option VrdAttrs) (v : Vrd)
    (l l' : List (Addr × Vrd)) : Prop where
  wf : Wf c l'
  pageMap : ∀ p, pageMap l' p = if v.extent.Has p then g (ReservedMem.pageMap l p)
    else ReservedMem.pageMap l p
  other : ∀ d ∈ extents l', d ∈ extents l ∨ d.stop = v.extent.stop
  ahead : ∀ y, ahead l' y ≤ ReservedMem.ahead l y

/-- The addresses of the descriptors that meet `[x, e]` are those of `[lo, hi)`. -/
structure Hull (l : List (Addr × Vrd)) (x e lo hi : ℕ) : Prop where
  first : ∃ d ∈ extents l, d.Has x ∧ d.start = lo
  last : ∃ d ∈ extents l, d.Has e ∧ d.stop = hi

/-- Where the range ends at cuts, no descriptor reaches beyond it. -/
theorem Hull.eq_of_cut {lo hi : ℕ} (h : Hull l x e lo hi) (hx : Cut (extents l) x)
    (he : Cut (extents l) (e + 1)) : lo = x ∧ hi = e + 1 := by
  obtain ⟨⟨d, hd, hdx, rfl⟩, d', hd', hde, rfl⟩ := h
  refine ⟨hx d hd hdx, ?_⟩
  by_contra hne
  have := he d' hd' ⟨hde.1.trans (Nat.le_succ e), by have := hde.2; omega⟩
  have := hde.1
  omega

/-- And if all that is allocated there lies in the range, the range ends at cuts. -/
theorem Hull.cut_of_inside {lo hi : ℕ} (h : Hull l x e lo hi) (hw : Wf c l) (hxe : x ≤ e)
    (hin : ∀ p, lo ≤ p → p < hi → pageMap l p ≠ none → x ≤ p ∧ p ≤ e) :
    Cut (extents l) x ∧ Cut (extents l) (e + 1) := by
  obtain ⟨⟨d, hd, hdx, rfl⟩, d', hd', hde, rfl⟩ := h
  have hat : ∀ {d p}, d ∈ extents l → d.Has p → pageMap l p ≠ none := fun hd hp hn =>
    tagAt_eq_none.mp hn _ hd hp
  have hdx1 := hdx.1
  have hdx2 := hdx.2
  have hde2 := hde.2
  refine ⟨fun w hwl hp => ?_, fun w hwl hp => ?_⟩
  · rw [hw.sorted.eq_of_has hwl hd hp hdx]
    exact le_antisymm hdx1 (hin d.start le_rfl (by omega) (hat hd ⟨le_rfl, by omega⟩)).1
  · by_contra hne
    have hw1 := hp.1
    have hw2 := hp.2
    obtain rfl := hw.sorted.eq_of_has hwl hd' (p := e) ⟨by omega, by omega⟩ hde
    have := (hin (e + 1) (by omega) hw2 (hat hwl hp)).2
    omega

/-- A loop that edits every descriptor of a range. -/
theorem spec_edit {body : Unit → Addr → Vrd → Prog Vmm (Option Unit)}
    (g : Option VrdAttrs → Option VrdAttrs) (hg : g none = none) (h : Rep s l f) (hw : Wf c l)
    (hb : c.rsrvBase ≤ x) (hx : 4096 ∣ x) (hy : 4096 ∣ e + 1) (hxe : x ≤ e)
    (hbody : ∀ s l f pre a v post, Rep s l f → Wf c l → l = pre ++ (a, v) :: post → UserVrd c v →
      wp u (body () a v) (fun r s' => r = some () ∧ Mallocs s s' ∧
        ∃ l' f', Rep s' l' f' ∧ Edited c g v l l') s) :
    wp u (forRange body x e ()) (fun r s' => Mallocs s s' ∧ ∃ l' f', Rep s' l' f' ∧ Wf c l' ∧
      (∀ p, pageMap l p = none → pageMap l' p = none) ∧
      (Covered l x (e + 1) → r = some () ∧ ∃ lo hi, Hull l x e lo hi ∧ ∀ p, pageMap l' p
        = if lo ≤ p ∧ p < hi then g (pageMap l p) else pageMap l p)) s := by
  -- so far the descriptors that meet `[x, y)` were edited, and those from `y` on are as they were
  refine wp_forRange (c := c) (fun y (_ : Unit) s' l' => Mallocs s s' ∧ Wf c l' ∧
    (∃ f', Rep s' l' f') ∧ x ≤ y ∧ 4096 ∣ y ∧ (∀ p, pageMap l p = none → pageMap l' p = none) ∧
    (∀ d ∈ extents l', y < d.stop → d ∈ extents l) ∧
    ∃ lo, (lo = x ∧ y = x ∨ (∃ d ∈ extents l, d.Has x ∧ d.start = lo) ∧
        ∃ d ∈ extents l, d.start ≤ e ∧ d.stop = y) ∧
      ∀ p, pageMap l' p = if lo ≤ p ∧ p < y then g (pageMap l p) else pageMap l p) ?_ ?_ ?_ ?_
    ⟨Mallocs.refl s, hw, ⟨f, h⟩, le_rfl, hx, fun _ => id, fun _ hd _ => hd, x, .inl ⟨rfl, rfl⟩,
      fun p => (if_neg (by omega)).symm⟩
  · rintro y _ s₁ l₁ ⟨-, hw₁, hf₁, -⟩
    exact ⟨hw₁, hf₁⟩
  · rintro y _ s₁ l₁ ⟨hm, hw₁, ⟨f₁, h₁⟩, hxy, -, hsub, hrest, lo, hlo, hmap⟩ hlt pre a v post hl hin
    have hmem : (a, v) ∈ l₁ := by simp [hl]
    have hu := hw₁.user_of_has hmem hin (hb.trans hxy)
    have hold : v.extent ∈ extents l := hrest _ (mem_extents hmem) hin.2
    refine wp_mono (hbody s₁ l₁ f₁ pre a v post h₁ hw₁ hl hu) ?_
    rintro r s₂ ⟨hr, hm₂, l₂, f₂, h₂, hed⟩
    subst hr
    have hle := hin.1
    have hlt' := hin.2
    refine ⟨l₂, ⟨hm.trans hm₂, hed.wf, ⟨f₂, h₂⟩, hxy.trans hin.2.le,
      dvd_add hu.start_aligned hu.size_aligned, fun p hp => ?_,
      fun d hd hy => ?_, ?_⟩, hed.ahead⟩
    · rw [hed.pageMap, hsub p hp, hg, ite_self]
    · exact hrest d ((hed.other d hd).resolve_right hy.ne') (hin.2.trans hy)
    rcases hlo with ⟨rfl, rfl⟩ | ⟨hfirst, d, hd, -, hdy⟩
    · refine ⟨v.extent.start, .inr ⟨⟨_, hold, hin, rfl⟩, _, hold, by omega, rfl⟩, fun p => ?_⟩
      have hsame : pageMap l₁ p = pageMap l p := (hmap p).trans (if_neg (by omega))
      rw [hed.pageMap, hsame]
      rfl
    · -- the descriptor starts where the last one ended
      have hstart : v.extent.start = y := hdy ▸ hw.sorted.cut_stop hd _ hold (hdy.symm ▸ hin)
      refine ⟨lo, .inr ⟨hfirst, _, hold, by omega, rfl⟩, fun p => ?_⟩
      obtain ⟨d₀, -, hd₀, rfl⟩ := hfirst
      rw [hed.pageMap, hmap]
      by_cases hp : v.extent.Has p
      · have := hp.1
        rw [if_pos hp, if_neg (by omega), if_pos ⟨by have := hd₀.1; omega, hp.2⟩]
      · have hiff : (d₀.start ≤ p ∧ p < y) ↔ (d₀.start ≤ p ∧ p < v.extent.stop) := by
          have : v.extent.start ≤ p → v.extent.stop ≤ p := fun h1 => not_lt.mp fun h2 => hp ⟨h1, h2⟩
          omega
        simp only [hp, if_false, hiff]
  · rintro y _ s₁ l₁ ⟨hm, hw₁, ⟨f₁, h₁⟩, hxy, -, hsub, -, lo, -, hmap⟩ hlt hhole
    refine ⟨hm, l₁, f₁, h₁, hw₁, hsub, fun hcov => ?_⟩
    rw [hmap, if_neg (by omega)] at hhole
    exact absurd hhole (hcov y hxy (by omega))
  · rintro y _ s₁ l₁ ⟨hm, hw₁, ⟨f₁, h₁⟩, hxy, hal, hsub, -, lo, hlo, hmap⟩ hge
    -- the end of the range is not at a page boundary, but `y` is
    have hye : e < y := by omega
    refine ⟨hm, l₁, f₁, h₁, hw₁, hsub, fun hcov => ⟨rfl, lo, y, ?_, hmap⟩⟩
    rcases hlo with ⟨-, rfl⟩ | ⟨hfirst, d, hd, hde, rfl⟩
    · omega
    · exact ⟨hfirst, d, hd, ⟨hde, hye⟩, rfl⟩

/-- The range `[x, e]` ends where descriptors do, and is allocated. -/
structure Exact (l : List (Addr × Vrd)) (x e : ℕ) : Prop where
  cut_start : Cut (extents l) x
  cut_stop : Cut (extents l) (e + 1)
  covered : Covered l x (e + 1)

theorem spec_setPerms (perms : Protect) (h : Rep s l f) (hw : Wf c l) (hb : c.rsrvBase ≤ x)
    (hx : 4096 ∣ x) (hy : 4096 ∣ e + 1) (hxe : x ≤ e) :
    wp u (setPerms x e perms) (fun r s' => Mallocs s s' ∧ ∃ l' f', Rep s' l' f' ∧ Wf c l' ∧
      (Exact l x e → r = true ∧ ∀ p, pageMap l' p
        = if x ≤ p ∧ p ≤ e then (pageMap l p).map ({ · with perms := perms })
          else pageMap l p)) s := by
  rw [setPerms, wp_bind]
  refine wp_mono (spec_edit (Option.map ({ · with perms := perms })) rfl h hw hb hx hy hxe ?_)
    fun r s' ⟨hm, l', f', h', hw', _, hE⟩ => ?_
  · rintro s l f pre a v post h hw hl hu
    rw [wp_bind, writeVrd, wp_writeNode (h.cell hl), wp_pure]
    subst hl
    obtain ⟨hw', hmap⟩ := hw.setPerms hu perms
    refine ⟨rfl, ⟨rfl, le_rfl⟩, _, f, h.write rfl _, hw', fun p => ?_, fun d hd => ?_, fun y => ?_⟩
    · rw [hmap]
      by_cases hp : v.extent.Has p
      · have hmem : (a, v) ∈ pre ++ (a, v) :: post := by simp
        rw [if_pos hp, if_pos hp, hw.pageMap_eq hmem hp]
        rfl
      · rw [if_neg hp, if_neg hp]
    · simp only [extents_append, extents_cons, mem_append, mem_cons] at hd ⊢
      rcases hd with hd | rfl | hd
      · exact .inl (.inl hd)
      · exact .inr rfl
      · exact .inl (.inr (.inr hd))
    · unfold ahead
      simp only [countP_append, countP_cons]
      exact le_rfl
  · rw [wp_pure]
    refine ⟨hm, l', f', h', hw', fun hex => ?_⟩
    obtain ⟨rfl, lo, hi, hhull, hmap⟩ := hE hex.covered
    obtain ⟨rfl, rfl⟩ := hhull.eq_of_cut hex.cut_start hex.cut_stop
    exact ⟨rfl, fun p => by simp only [hmap, Nat.lt_succ_iff]⟩

theorem spec_freeVrds (h : Rep s l f) (hw : Wf c l) (hb : c.rsrvBase ≤ x) (hx : 4096 ∣ x)
    (hy : 4096 ∣ e + 1) (hxe : x ≤ e) :
    wp u (freeVrds x e) (fun _ s' => Mallocs s s' ∧ ∃ l' f', Rep s' l' f' ∧ Wf c l' ∧
      (∀ p, pageMap l p = none → pageMap l' p = none) ∧
      (Covered l x (e + 1) → ∃ lo hi, Hull l x e lo hi ∧ ∀ p, pageMap l' p
        = if lo ≤ p ∧ p < hi then none else pageMap l p)) s := by
  rw [freeVrds, wp_bind]
  refine wp_mono (spec_edit (fun _ => none) rfl h hw hb hx hy hxe ?_)
    fun _ s' ⟨hm, l', f', h', hw', hsub, hE⟩ => ?_
  · rintro s l f pre a v post h hw hl hu
    have hle : ¬v.stop < v.startAddr := by
      rw [Vrd.stop_eq hu.fits]
      exact not_lt.mpr (Nat.le_add_right _ _)
    rw [if_neg hle, wp_bind]
    refine wp_mono (spec_removeVrd h hl) ?_
    rintro _ s' ⟨h', hm⟩
    subst hl
    obtain ⟨hw', hmap⟩ := hw.remove hu
    rw [wp_pure]
    refine ⟨rfl, hm, _, _, h', hw', hmap, fun d hd => .inl ?_, fun y => ?_⟩
    · simp only [extents_append, extents_cons, mem_append, mem_cons] at hd ⊢
      exact hd.imp_right .inr
    · exact ((sublist_cons_self (a, v) post).append_left pre).countP_le
  · rw [wp_pure]
    exact ⟨hm, l', f', h', hw', hsub, fun hcov => (hE hcov).2⟩

end Edits

end ReservedMem
