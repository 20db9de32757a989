/-
Splitting and combining descriptors (`split_vrds_if_needed` and `combine_vrds`).

Both functions are looked at on any ordered list of descriptors and for any range
of addresses, without the alignment that the calls of the allocator guarantee.
Neither of them changes what the list says about an address.

`combine_vrds` visits the descriptors of the range and merges each into the one
before it.  When its loop ends `vrd` is the first descriptor *behind* the range, so
the comparison meant for the last one of the range and its successor is made one
place further on.

* **`settled_combined_iff`** — when no pair that could be merged remains around the
  range.
-/
import LinuxSgx.ReservedMem.Runs

namespace ReservedMem

open Prog Dll Extents List

/-- An ordered list is represented that says what `l` says. -/
def SameMap (l : List (Addr × Vrd)) (s : Vmm) : Prop :=
  ∃ l' f', Rep s l' f' ∧ Ordered (bare l') ∧ pageMap l' = pageMap l

theorem spec_splitVrds_map {u : Prop} {s : Vmm} {l : List (Addr × Vrd)} {f : List Addr} {x y : ℕ}
    (h : Rep s l f) (ho : Ordered (bare l)) :
    wp u (splitVrdsIfNeeded x y) (fun _ s' => SameMap l s') s := by
  refine wp_mono (spec_splitVrds h ho) ?_
  rintro _ s' ⟨-, l₁, l', f', h', hsplit, hsplit', -⟩
  obtain ⟨ho₁, hmap₁, -⟩ := hsplit.ordered ho
  obtain ⟨ho₂, hmap₂, -⟩ := hsplit'.ordered ho₁
  exact ⟨l', f', h', ho₂, hmap₂.trans hmap₁⟩

/-! ### The pairs that remain -/

section Settled

variable {done rest vs : List Vrd} {u v w z d : Vrd} {x e addr : ℕ}

/-- The descriptor shares an address with the range from `x` to `e`. -/
def Vrd.Meets (v : Vrd) (x e : ℕ) : Prop := ∃ p, x ≤ p ∧ p ≤ e ∧ v.extent.Has p

theorem Vrd.meets_iff (hpos : 0 < v.size) :
    v.Meets x e ↔ x ≤ e ∧ v.startAddr ≤ e ∧ x < v.extent.stop := by
  have hstop : v.extent.stop = v.startAddr + v.size := rfl
  constructor
  · rintro ⟨p, h1, h2, h3, h4⟩
    exact ⟨h1.trans h2, le_trans h3 h2, lt_of_le_of_lt h1 h4⟩
  · rintro ⟨h1, h2, h3⟩
    refine ⟨max x v.startAddr, le_max_left _ _, max_le h1 h2, le_max_right _ _, max_lt h3 ?_⟩
    omega

/-- Neighbours of which one lies in the range are not left to be merged. -/
def Unmergeable (x e : ℕ) (v w : Vrd) : Prop := v.Meets x e ∨ w.Meets x e → ¬Joinable v w

/-- No two neighbours that could be merged remain among the descriptors of the range
and those next to them. -/
def Settled (x e : ℕ) (vs : List Vrd) : Prop := vs.IsChain (Unmergeable x e)

theorem settled_of_not_meets (h : ∀ v ∈ vs, ¬v.Meets x e) : Settled x e vs := by
  induction vs with
  | nil => exact List.IsChain.nil
  | cons v vs ih =>
    refine isChain_cons.mpr ⟨fun w hw hm => ?_, ih fun w hw => h w (by simp [hw])⟩
    have hw : w ∈ vs := List.mem_of_mem_head? hw
    exact absurd hm (not_or.mpr ⟨h v (by simp), h w (by simp [hw])⟩)

/-- The pairs that `combine_vrds` does not compare need not be merged. -/
structure Compared (x e : ℕ) (vs : List Vrd) : Prop where
  /-- A range that starts in no descriptor is not looked at. -/
  hole : found x vs = [] → Settled x e vs
  /-- The descriptor before the range, once merged, is not compared with its predecessor. -/
  before : ∀ v ∈ (visited e x (found x vs)).head?, ∀ w ∈ (notYet x vs).reverse[0]?,
    ∀ u ∈ (notYet x vs).reverse[1]?, Joinable w v → ¬Joinable u w
  /-- The last descriptor visited is not compared with the next one. -/
  behind : ∀ w ∈ (notYet x vs ++ visited e x (found x vs)).getLast?,
    ∀ v ∈ (unvisited e x (found x vs)).head?, Unmergeable x e w v
  /-- A descriptor that begins with the last address of the range is not visited, and
  once merged it is not compared again. -/
  after : ∀ v ∈ (unvisited e x (found x vs))[0]?, v.Meets x e →
    ∀ w ∈ (unvisited e x (found x vs))[1]?, ∀ z ∈ (unvisited e x (found x vs))[2]?,
      Joinable v w → ¬Joinable w z

/-- To its right, `h` looks like `v`, which was merged into it. -/
structure Ends (x e : ℕ) (h v : Vrd) : Prop where
  fits : h.Fits
  stop : h.stop = v.stop
  attrs : h.toVrdAttrs = v.toVrdAttrs
  meets : h.Meets x e ↔ v.Meets x e

theorem joinable_congr (hstop : u.stop = v.stop) (hattrs : u.toVrdAttrs = v.toVrdAttrs) :
    Joinable u z ↔ Joinable v z := by
  rw [Joinable, Joinable, sameAttrs_iff, sameAttrs_iff, hstop, hattrs]

theorem Ends.joinable (h : Ends x e u v) : Joinable u z ↔ Joinable v z :=
  joinable_congr h.stop h.attrs

theorem Ends.unmergeable (h : Ends x e u v) : Unmergeable x e u z ↔ Unmergeable x e v z := by
  rw [Unmergeable, Unmergeable, h.meets, h.joinable]

theorem Joinable.stop_join (h : Joinable v w) : (v.join w).stop = w.stop := by
  have := h.1
  unfold Vrd.stop wrap at this
  simp only [Vrd.stop, Vrd.join, wrap]
  omega

theorem Joinable.attrs_join (h : Joinable v w) : (v.join w).toVrdAttrs = w.toVrdAttrs :=
  sameAttrs_iff.mp h.2

/-- What the merged descriptor covers. -/
theorem Joinable.has_join (h : Joinable v w) (hv : v.Fits) (hw : w.Fits) (p : ℕ) :
    (v.join w).extent.Has p ↔ v.extent.Has p ∨ w.extent.Has p := by
  have hadj : v.startAddr + v.size = w.startAddr := by
    rw [← h.1, Vrd.stop_eq hv]
    rfl
  rw [h.extent_join hv hw]
  simp only [Extent.Has, Extent.stop, Extent.join, Vrd.extent]
  omega

theorem Joinable.meets_join (h : Joinable v w) (hv : v.Fits) (hw : w.Fits) :
    (v.join w).Meets x e ↔ v.Meets x e ∨ w.Meets x e := by
  simp only [Vrd.Meets, h.has_join hv hw]
  constructor
  · rintro ⟨p, h1, h2, h3 | h3⟩
    · exact .inl ⟨p, h1, h2, h3⟩
    · exact .inr ⟨p, h1, h2, h3⟩
  · rintro (⟨p, h1, h2, h3⟩ | ⟨p, h1, h2, h3⟩)
    · exact ⟨p, h1, h2, .inl h3⟩
    · exact ⟨p, h1, h2, .inr h3⟩

theorem absorb_ends (hd : ∀ d ∈ done.head?, d.Fits) (hv : v.Fits)
    (hm : ∀ d ∈ done.head?, Joinable d v → v.Meets x e) :
    ∃ h t, absorb done v = h :: t ∧ Ends x e h v := by
  cases done with
  | nil => exact ⟨v, [], rfl, hv, rfl, rfl, Iff.rfl⟩
  | cons d done =>
    rw [absorb]
    by_cases hj : Joinable d v
    · rw [if_pos hj]
      have hmv := hm d rfl hj
      refine ⟨d.join v, done, rfl, hj.fits_join (hd d rfl) hv, hj.stop_join, hj.attrs_join, ?_⟩
      rw [hj.meets_join (hd d rfl) hv]
      simp [hmv]
    · rw [if_neg hj]
      exact ⟨v, d :: done, rfl, hv, rfl, rfl, Iff.rfl⟩

/-- A merger into a descriptor of the range settles the pair and leaves the others. -/
theorem isChain_absorb (hd : d.Fits) (hv : v.Fits) (hm : d.Meets x e) :
    (absorb (d :: done) v).IsChain (fun a b => Unmergeable x e b a) ↔
      (d :: done).IsChain (fun a b => Unmergeable x e b a) := by
  rw [absorb]
  by_cases hj : Joinable d v
  · rw [if_pos hj, isChain_cons, isChain_cons]
    have hm' : (d.join v).Meets x e := (hj.meets_join hd hv).mpr (.inl hm)
    refine and_congr_left fun _ => forall₂_congr fun y _ => ?_
    exact ⟨fun h _ => h (.inr hm'), fun h _ => h (.inr hm)⟩
  · rw [if_neg hj, isChain_cons_cons]
    exact and_iff_right fun _ => hj

/-- The mergers after the first one. -/
theorem foldl_visited (hx : x ≤ e)
    (hall : ∀ w ∈ v :: vs, w.Fits ∧ 0 < w.size ∧ x < w.extent.stop) {h : Vrd} {t : List Vrd}
    (hends : Ends x e h v) :
    ∃ h' t', (visited e v.stop vs).foldl absorb (h :: t) = h' :: t' ∧
      Ends x e h' ((visited e v.stop vs).getLast?.getD v) ∧
      ((h' :: t').IsChain (fun a b => Unmergeable x e b a) ↔
        (h :: t).IsChain (fun a b => Unmergeable x e b a)) := by
  induction vs generalizing v h t with
  | nil => exact ⟨h, t, rfl, hends, Iff.rfl⟩
  | cons w vs ih =>
    rw [visited]
    by_cases hlt : v.stop < e
    · -- another descriptor is visited only if this one ends inside the range
      rw [if_pos hlt]
      obtain ⟨hvf, hvp, hvx⟩ := hall v (by simp)
      obtain ⟨hwf, hwp, hwx⟩ := hall w (by simp)
      have hle : v.startAddr ≤ e := by
        have hstop : v.stop = v.startAddr + v.size := Vrd.stop_eq hvf
        omega
      have hhm : h.Meets x e := hends.meets.mpr ((Vrd.meets_iff hvp).mpr ⟨hx, hle, hvx⟩)
      have hwm : Joinable h w → w.Meets x e := fun hj =>
        (Vrd.meets_iff hwp).mpr ⟨hx, by rw [← hj.1, hends.stop]; exact hlt.le, hwx⟩
      have hfits : ∀ d ∈ (h :: t).head?, d.Fits := by simpa using hends.fits
      obtain ⟨h₁, t₁, habs, hends₁⟩ := absorb_ends (x := x) (e := e) hfits hwf (by simpa using hwm)
      obtain ⟨h₂, t₂, hfold, hends₂, hchain⟩ := ih (t := t₁)
        (fun y hy => hall y (mem_cons_of_mem _ hy)) hends₁
      refine ⟨h₂, t₂, ?_, ?_, hchain.trans ?_⟩
      · rw [foldl_cons, habs, hfold]
      · rw [List.getLast?_cons, Option.getD_some]
        exact hends₂
      · rw [← habs]
        exact isChain_absorb hends.fits hwf hhm
    · rw [if_neg hlt]
      exact ⟨h, t, rfl, hends, Iff.rfl⟩

/-- The first merger, into the descriptor before the range. -/
theorem isChain_absorb_first (hout : ∀ d ∈ done, d.Fits ∧ ¬d.Meets x e) (hv : v.Fits)
    (hm : v.Meets x e) :
    (absorb done v).IsChain (fun a b => Unmergeable x e b a) ↔
      ∀ w ∈ done[0]?, ∀ u ∈ done[1]?, Joinable w v → ¬Joinable u w := by
  have hquiet : ∀ l : List Vrd, (∀ d ∈ l, d ∈ done) →
      l.IsChain (fun a b => Unmergeable x e b a) := fun l hl =>
    isChain_reverse.mp (settled_of_not_meets fun d hd =>
      (hout d (hl d (mem_reverse.mp hd))).2)
  rcases done with _ | ⟨d, done⟩
  · simp [absorb]
  · rw [absorb]
    by_cases hj : Joinable d v
    · have hm' : (d.join v).Meets x e := (hj.meets_join (hout d (by simp)).1 hv).mpr (.inr hm)
      rw [if_pos hj, isChain_cons, and_iff_left (hquiet done (by simp +contextual))]
      constructor
      · rintro h w hw u hu -
        cases hw
        have hu' : u ∈ done.head? := by rwa [List.head?_eq_getElem?]
        exact h u hu' (.inr hm')
      · intro h u hu _
        refine h d rfl u ?_ hj
        rwa [List.head?_eq_getElem?] at hu
    · rw [if_neg hj, isChain_cons_cons]
      constructor
      · rintro - w hw u - hj'
        cases hw
        exact absurd hj' hj
      · exact fun _ => ⟨fun _ => hj, hquiet _ fun _ => id⟩

/-- The comparison after the loop. -/
theorem isChain_mergeHead {post : List Vrd} (hfit : ∀ w ∈ post, w.Fits)
    (htail : ∀ w ∈ post.tail, ¬w.Meets x e) :
    (mergeHead post).IsChain (Unmergeable x e) ↔
      ∀ v ∈ post[0]?, v.Meets x e → ∀ w ∈ post[1]?, ∀ z ∈ post[2]?,
        Joinable v w → ¬Joinable w z := by
  rcases post with _ | ⟨v, _ | ⟨w, post⟩⟩
  · simp [mergeHead]
  · simp [mergeHead]
  · have hw : ¬w.Meets x e := htail w (by simp)
    have hquiet : (w :: post).IsChain (Unmergeable x e) := settled_of_not_meets htail
    rw [mergeHead]
    by_cases hj : Joinable v w
    · have hmeet : (v.join w).Meets x e ↔ v.Meets x e := by
        rw [hj.meets_join (hfit v (by simp)) (hfit w (by simp)), or_iff_left hw]
      have hjoin : ∀ z, Joinable (v.join w) z ↔ Joinable w z := fun z =>
        joinable_congr hj.stop_join hj.attrs_join
      rw [if_pos hj, isChain_cons, and_iff_left (isChain_cons.mp hquiet).2]
      constructor
      · rintro h v' hv' hm w' hw' z hz -
        cases hv'
        cases hw'
        rw [← hjoin]
        refine h z ?_ (.inl (hmeet.mpr hm))
        rwa [List.head?_eq_getElem?]
      · intro h z hz hm
        have hzm : ¬z.Meets x e := htail z (mem_cons_of_mem _ (List.mem_of_mem_head? hz))
        rw [List.head?_eq_getElem?] at hz
        rw [hjoin]
        exact h v rfl (hmeet.mp (hm.resolve_right hzm)) w rfl z hz hj
    · rw [if_neg hj, isChain_cons_cons]
      constructor
      · rintro - v' hv' - w' hw' z - hj'
        cases hv'
        cases hw'
        exact absurd hj' hj
      · exact fun _ => ⟨fun _ => hj, hquiet⟩

/-- To its left, the descriptor behind the loop looks the same after the comparison. -/
theorem forall_head_mergeHead {post : List Vrd} (hfit : ∀ w ∈ post, w.Fits)
    (htail : ∀ w ∈ post.tail, ¬w.Meets x e) :
    (∀ v ∈ (mergeHead post).head?, Unmergeable x e u v) ↔ ∀ v ∈ post.head?, Unmergeable x e u v := by
  rcases post with _ | ⟨v, _ | ⟨w, post⟩⟩
  · simp [mergeHead]
  · simp [mergeHead]
  · rw [mergeHead]
    by_cases hj : Joinable v w
    · have hmeet : (v.join w).Meets x e ↔ v.Meets x e := by
        rw [hj.meets_join (hfit v (by simp)) (hfit w (by simp)),
          or_iff_left (htail w (by simp))]
      rw [if_pos hj]
      simp only [List.head?_cons, Option.mem_some_iff, forall_eq', Unmergeable, hmeet]
      exact Iff.rfl
    · rw [if_neg hj]

theorem visited_append_unvisited (e addr : ℕ) (vs : List Vrd) :
    visited e addr vs ++ unvisited e addr vs = vs := by
  induction vs generalizing addr with
  | nil => rfl
  | cons v vs ih =>
    rw [visited, unvisited]
    by_cases hlt : addr < e
    · rw [if_pos hlt, if_pos hlt, List.cons_append, ih]
    · rw [if_neg hlt, if_neg hlt, nil_append]

theorem Ordered.of_append_right {l l' : List Vrd} (h : Ordered (l ++ l')) : Ordered l' := by
  have hs := h.sorted
  rw [map_append, sorted_append] at hs
  exact ⟨fun v hv => h.fits v (mem_append_right _ hv), hs.2.1⟩

theorem Ordered.le_of_cons (h : Ordered (v :: vs)) (hw : w ∈ vs) : v.extent.stop ≤ w.startAddr :=
  (sorted_cons.mp h.sorted).2.2 w.extent (List.mem_map_of_mem hw)

theorem Ordered.pos (h : Ordered vs) (hv : v ∈ vs) : 0 < v.size :=
  h.sorted.pos v.extent (List.mem_map_of_mem hv)

/-- At most the first of the descriptors that are left begins inside the range. -/
theorem lt_start_of_unvisited (h : Ordered (v :: vs)) (hw : w ∈ (unvisited e v.stop vs).tail) :
    e < w.startAddr := by
  induction vs generalizing v with
  | nil => simp [unvisited] at hw
  | cons z vs ih =>
    rw [unvisited] at hw
    by_cases hlt : v.stop < e
    · rw [if_pos hlt] at hw
      exact ih (Ordered.of_append_right (l := [v]) h) hw
    · rw [if_neg hlt, tail_cons] at hw
      have h1 : v.extent.stop ≤ z.startAddr := h.le_of_cons (by simp)
      have h2 : z.extent.stop ≤ w.startAddr :=
        (Ordered.of_append_right (l := [v]) h).le_of_cons hw
      have h3 : 0 < z.size := h.pos (by simp)
      have h4 : v.stop = v.extent.stop := Vrd.stop_eq (h.fits v (by simp))
      have h5 : z.extent.stop = z.startAddr + z.size := rfl
      omega

theorem addrInVrd_of_found (hf : found x vs = v :: rest) : addrInVrd x v := by
  induction vs with
  | nil => simp [found] at hf
  | cons w vs ih =>
    by_cases hw : addrInVrd x w
    · simp only [found, dropWhile_cons, hw, Bool.not_true, Bool.false_eq_true, if_false,
        List.cons.injEq] at hf
      exact hf.1 ▸ hw
    · simp only [found, dropWhile_cons, hw, Bool.not_false, if_true] at hf
      exact ih hf

/-- The two halves of the list around the place where the loop ends. -/
theorem settled_split {pre post : List Vrd} (hfit : ∀ w ∈ post, w.Fits)
    (htail : ∀ w ∈ post.tail, ¬w.Meets x e) :
    Settled x e (pre ++ mergeHead post) ↔ pre.IsChain (Unmergeable x e) ∧
      (∀ v ∈ post[0]?, v.Meets x e → ∀ w ∈ post[1]?, ∀ z ∈ post[2]?,
        Joinable v w → ¬Joinable w z) ∧
      ∀ w ∈ pre.getLast?, ∀ v ∈ post.head?, Unmergeable x e w v := by
  rw [Settled, isChain_append, isChain_mergeHead hfit htail]
  refine and_congr_right fun _ => and_congr_right fun _ => forall₂_congr fun w _ => ?_
  exact forall_head_mergeHead hfit htail

theorem notYet_append_found (x : ℕ) (vs : List Vrd) : notYet x vs ++ found x vs = vs :=
  takeWhile_append_dropWhile

/-- What surrounds a range that starts in a descriptor. -/
structure Placed (x e : ℕ) (pre : List Vrd) (v : Vrd) (rest : List Vrd) : Prop where
  le : x ≤ e
  ordered : Ordered (v :: rest)
  meets : v.Meets x e
  before : ∀ d ∈ pre, d.Fits ∧ ¬d.Meets x e
  ends : ∀ w ∈ v :: rest, w.Fits ∧ 0 < w.size ∧ x < w.extent.stop

theorem Ordered.placed (ho : Ordered vs) (hf : found x vs = v :: rest) (hx : x ≤ e) :
    Placed x e (notYet x vs) v rest := by
  have hcut := notYet_append_found x vs
  rw [hf] at hcut
  have ho' : Ordered (v :: rest) := Ordered.of_append_right (hcut ▸ ho)
  have hhas : v.extent.Has x :=
    (addrInVrd_iff (ho'.fits v (by simp))).mp (addrInVrd_of_found hf)
  refine ⟨hx, ho', ⟨x, le_rfl, hx, hhas⟩, fun d hd => ?_, fun w hw => ?_⟩
  · have hs := ho.sorted
    rw [← hcut, map_append, sorted_append] at hs
    refine ⟨ho.fits d (hcut ▸ mem_append_left _ hd), ?_⟩
    rintro ⟨p, hp, -, -, hd2⟩
    have hle : d.extent.stop ≤ v.extent.start := hs.2.2 _ (List.mem_map_of_mem hd) _ (by simp)
    have := hhas.1
    omega
  · refine ⟨ho'.fits w hw, ho'.pos hw, ?_⟩
    rcases mem_cons.mp hw with rfl | hw
    · exact hhas.2
    · have h1 := ho'.le_of_cons hw
      have h2 : w.extent.stop = w.startAddr + w.size := rfl
      have h3 := hhas.2
      omega

/-- A range of one address: the loop does not run. -/
theorem Placed.settled_one {pre : List Vrd} (h : Placed x x pre v rest) :
    Settled x x (pre ++ mergeHead (v :: rest)) ↔
      (∀ v' ∈ (v :: rest)[0]?, v'.Meets x x → ∀ w ∈ (v :: rest)[1]?, ∀ z ∈ (v :: rest)[2]?,
        Joinable v' w → ¬Joinable w z) ∧
      ∀ w ∈ pre.getLast?, ∀ v' ∈ (v :: rest).head?, Unmergeable x x w v' := by
  rw [settled_split (fun w hw => (h.ends w hw).1), and_iff_right]
  · exact settled_of_not_meets fun d hd => (h.before d hd).2
  · intro w hw
    rw [Vrd.meets_iff (h.ends w (mem_of_mem_tail hw)).2.1]
    have h1 := h.ordered.le_of_cons hw
    have h2 := (h.ends v (by simp)).2.2
    omega

/-- A longer range: the descriptor in which it starts is merged first. -/
theorem Placed.settled_many {pre : List Vrd} (h : Placed x e pre v rest) :
    Settled x e (((v :: visited e v.stop rest).foldl absorb pre.reverse).reverse ++
        mergeHead (unvisited e v.stop rest)) ↔
      (∀ w ∈ pre.reverse[0]?, ∀ u ∈ pre.reverse[1]?, Joinable w v → ¬Joinable u w) ∧
      (∀ v' ∈ (unvisited e v.stop rest)[0]?, v'.Meets x e →
        ∀ w ∈ (unvisited e v.stop rest)[1]?, ∀ z ∈ (unvisited e v.stop rest)[2]?,
          Joinable v' w → ¬Joinable w z) ∧
      ∀ w ∈ (pre ++ v :: visited e v.stop rest).getLast?, ∀ v' ∈ (unvisited e v.stop rest).head?,
        Unmergeable x e w v' := by
  have hmem : ∀ w ∈ unvisited e v.stop rest, w ∈ v :: rest := fun w hw =>
    mem_cons_of_mem _
      (visited_append_unvisited e v.stop rest ▸ mem_append_right _ hw)
  have hpre : ∀ d ∈ pre.reverse, d.Fits ∧ ¬d.Meets x e := fun d hd =>
    h.before d (mem_reverse.mp hd)
  have hv : v.Fits := (h.ends v (by simp)).1
  obtain ⟨d, t, habs, hends⟩ := absorb_ends (fun d hd => (hpre d (List.mem_of_mem_head? hd)).1) hv
    fun _ _ _ => h.meets
  obtain ⟨d', t', hfold, hends', hchain⟩ := foldl_visited (t := t) h.le h.ends hends
  rw [foldl_cons, habs, hfold, settled_split (fun w hw => (h.ends w (hmem w hw)).1),
    isChain_reverse, hchain, ← habs, isChain_absorb_first hpre hv h.meets]
  · refine and_congr_right fun _ => and_congr_right fun _ => ?_
    rw [List.getLast?_reverse, List.getLast?_append, List.getLast?_cons]
    simp only [List.head?_cons, Option.mem_some_iff, forall_eq', Option.some_or,
      hends'.unmergeable]
  · intro w hw
    rw [Vrd.meets_iff (h.ends w (hmem w (mem_of_mem_tail hw))).2.1]
    have := lt_start_of_unvisited h.ordered hw
    omega

/-- **Combining leaves nothing to merge exactly if the pairs that it does not compare
need not be merged.** -/
theorem settled_combined_iff (ho : Ordered vs) (x e : ℕ) :
    Settled x e (combined x e vs) ↔ Compared x e vs := by
  have hcut := notYet_append_found x vs
  rcases hf : found x vs with _ | ⟨v, rest⟩
  · have hsame : combined x e vs = vs := by
      rw [hf, append_nil] at hcut
      rw [combined, hf, hcut]
      simp [visited, unvisited, mergeHead]
    rw [hsame]
    refine ⟨fun h => ⟨fun _ => h, ?_, ?_, ?_⟩, fun h => h.hole hf⟩ <;> simp [hf, visited, unvisited]
  · rcases lt_trichotomy x e with hlt | rfl | hlt
    · have hvisit : visited e x (found x vs) = v :: visited e v.stop rest := by
        rw [hf, visited, if_pos hlt]
      have hleft : unvisited e x (found x vs) = unvisited e v.stop rest := by
        rw [hf, unvisited, if_pos hlt]
      rw [combined, hvisit, hleft, (ho.placed hf hlt.le).settled_many]
      constructor
      · rintro ⟨h1, h2, h3⟩
        refine ⟨by simp [hf], ?_, by rwa [hvisit, hleft], by rwa [hleft]⟩
        rw [hvisit]
        simpa using h1
      · rintro ⟨-, h1, h3, h2⟩
        rw [hvisit] at h1 h3
        rw [hleft] at h2 h3
        exact ⟨by simpa using h1, h2, h3⟩
    · have hvisit : visited x x (found x vs) = [] := by
        rw [hf, visited, if_neg (lt_irrefl x)]
      have hleft : unvisited x x (found x vs) = v :: rest := by
        rw [hf, unvisited, if_neg (lt_irrefl x)]
      rw [combined, hvisit, hleft, foldl_nil, reverse_reverse,
        (ho.placed hf le_rfl).settled_one]
      constructor
      · rintro ⟨h2, h3⟩
        refine ⟨by simp [hf], by simp [hvisit], ?_, by rwa [hleft]⟩
        rwa [hvisit, hleft, append_nil]
      · rintro ⟨-, -, h3, h2⟩
        rw [hvisit, hleft, append_nil] at h3
        rw [hleft] at h2
        exact ⟨h2, h3⟩
    · -- there is no address in the range
      have hno : ∀ w : Vrd, ¬w.Meets x e := by
        rintro w ⟨p, h1, h2, -⟩
        omega
      refine ⟨fun _ => ⟨by simp [hf], ?_, ?_, ?_⟩, fun _ => settled_of_not_meets fun w _ => hno w⟩
      · rw [hf, visited, if_neg (by omega)]
        simp
      · exact fun w _ z _ hm => absurd hm (not_or.mpr ⟨hno w, hno z⟩)
      · exact fun w _ hm => absurd hm (hno w)

end Settled

/-! ### The two functions on a represented list -/

section Program

variable {s : Vmm} {l : List (Addr × Vrd)} {f : List Addr}

/-- **Splitting and combining keep the map of pages, and combining leaves nothing to
merge around the range exactly if the pairs that it passes over need not be merged.** -/
theorem split_combine_map (h : Rep s l f) (ho : Ordered (bare l)) (x e : ℕ) :
    (∃ r s', splitVrdsIfNeeded x e s = some (r, s') ∧ SameMap l s') ∧
    ∃ s' l' f', combineVrds x e s = some ((), s') ∧ Rep s' l' f' ∧ Ordered (bare l') ∧
      pageMap l' = pageMap l ∧ (Settled x e (bare l') ↔ Compared x e (bare l)) := by
  refine ⟨wp_false_iff.mp (spec_splitVrds_map h ho), ?_⟩
  obtain ⟨⟨⟩, s', hrun, -, l', f', h', hmerge, hl'⟩ := wp_false_iff.mp
    (spec_combineVrds_combined (x := x) (e := e) h)
  obtain ⟨ho', hmap⟩ := hmerge.ordered ho
  refine ⟨s', l', f', hrun, h', ho', hmap, ?_⟩
  rw [hl', settled_combined_iff ho]

/-- Two pages of which the first was protected: the range is all of them. -/
theorem split_combine_map_two_pages : ∃ s, Reaches smallConfig s ∧
    bare s.vmm.vrds = [lockedVrd smallConfig, ⟨⟨0, .committed, .readonly, .reg⟩, 8192, 4096⟩,
      ⟨⟨0, .committed, .readwrite, .reg⟩, 12288, 4096⟩] ∧
    ∃ s' l' f', combineVrds 8192 16383 s.vmm = some ((), s') ∧ Rep s' l' f' ∧
      Settled 8192 16383 (bare l') := by
  obtain ⟨s, hs, hobs⟩ := Reaches.observe smallConfig
    [.alloc 0 8192, .tprotect 8192 4096 ⟨true, false, false, false⟩] (fun _ => true)
    (fun _ => .ok) (fun s => (s.firstAlloc, bare s.vmm.vrds))
    (false, [lockedVrd smallConfig, ⟨⟨0, .committed, .readonly, .reg⟩, 8192, 4096⟩,
      ⟨⟨0, .committed, .readwrite, .reg⟩, 12288, 4096⟩]) (by decide +kernel)
  obtain ⟨hfirst, hlist⟩ := Prod.mk.inj hobs
  refine ⟨s, hs, hlist, ?_⟩
  rcases hs.sound.valid with ⟨hf, -⟩ | ⟨-, l, f, h, hw⟩
  · rw [hfirst] at hf
    cases hf
  · obtain ⟨-, s', l', f', hrun, h', -, -, hiff⟩ :=
      split_combine_map h (Ordered.of_wf hw) 8192 16383
    refine ⟨s', l', f', hrun, h', hiff.mpr ?_⟩
    rw [← h.vrds, hlist]
    refine ⟨?_, ?_, ?_, ?_⟩
    · intro hnil
      cases hnil
    · decide
    · rintro w - v hv
      cases hv
    · rintro v hv
      cases hv

/-- The first of two pages is protected and then made writable again: its descriptor
and the next one say the same, and combining its range does not merge them. -/
theorem uncompared_pair : ∃ s s', Reaches smallConfig s ∧
    vmm (combineVrds 8192 12287) s = some ((), s') ∧
    ¬Settled 8192 12287 (bare s'.vmm.vrds) := by
  obtain ⟨s, ⟨⟩, s', hs, hrun, hobs⟩ := observe_call smallConfig
    [.alloc 0 8192, .tprotect 8192 4096 ⟨true, false, false, false⟩,
      .tprotect 8192 4096 ⟨true, true, false, false⟩] (loaded (fun _ => true) fun _ => .ok)
    (fun _ => vmm (combineVrds 8192 12287)) (fun _ _ s' => bare s'.vmm.vrds)
    [lockedVrd smallConfig, ⟨⟨0, .committed, .readwrite, .reg⟩, 8192, 4096⟩,
      ⟨⟨0, .committed, .readwrite, .reg⟩, 12288, 4096⟩] (by decide +kernel)
  refine ⟨s, s', (Reaches.loaded _ _ _).runCalls hs, hrun, ?_⟩
  rw [hobs]
  intro hset
  have hpair := (isChain_cons_cons.mp (isChain_cons_cons.mp hset).2).1
  exact hpair (.inl ⟨8192, le_rfl, by decide, by decide⟩) (by decide)

end Program

end ReservedMem
