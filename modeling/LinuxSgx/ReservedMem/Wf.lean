/-
Well-formed lists of descriptors.

A list is read as the extents of its descriptors (`Lib.Extents`), so that the
pages it allocates, with what it says about them, are the partial map `pageMap`.
`Wf c l` is the invariant of the list: the locked descriptor of everything below
the reserved memory comes first, and the descriptors after it are committed,
page-aligned, sorted and inside the reserved memory.

Cutting and merging descriptors keep the map, on any ordered list, and the
invariant (`SplitAt`, `Merge`); insertion and removal change the map on one range
(`Wf.insert`, `Wf.remove`).
-/
import LinuxSgx.Lib.Extents
import LinuxSgx.ReservedMem.Links

namespace ReservedMem

open Extents List

variable {c : Config} {l l' pre post : List (Addr × Vrd)} {a b : Addr} {v w : Vrd} {x p : ℕ}

/-! ### Descriptors as extents -/

section Extent

def Vrd.extent (v : Vrd) : Extent VrdAttrs := ⟨v.startAddr, v.size, v.toVrdAttrs⟩

/-- The range does not wrap around. -/
def Vrd.Fits (v : Vrd) : Prop := v.startAddr + v.size < 2 ^ 64

theorem Vrd.stop_eq (h : v.Fits) : v.stop = v.extent.stop := Nat.mod_eq_of_lt h

theorem addrInVrd_iff (h : v.Fits) : addrInVrd x v ↔ v.extent.Has x := by
  simp only [addrInVrd, Vrd.stop_eq h, decide_eq_true_eq]
  rfl

theorem lastOf_eq {start size : ℕ} (hs : 0 < size) (h : start + size < 2 ^ 64) :
    lastOf start size = start + size - 1 := by
  unfold lastOf wrap
  omega

theorem sub64_eq {y : ℕ} (hx : x < 2 ^ 64) (hy : y ≤ x) : sub64 x y = x - y := by
  unfold sub64 wrap
  omega

theorem Vrd.extent_before (h : v.Fits) (hx : v.startAddr < x) (hx' : x < v.extent.stop) :
    (v.before x).extent = v.extent.before x := by
  have hlt : x < 2 ^ 64 := hx'.trans h
  simp only [Vrd.before, Vrd.extent, Extent.before, sub64_eq hlt hx.le]

theorem Vrd.extent_after (h : v.Fits) (hx : v.startAddr < x) (hx' : x < v.extent.stop) :
    (v.after x).extent = v.extent.after x := by
  have hlt : x < 2 ^ 64 := hx'.trans h
  have hstop : v.extent.stop = v.startAddr + v.size := rfl
  have hsize : v.size < 2 ^ 64 := by unfold Vrd.Fits at h; omega
  have hb : (v.before x).size = x - v.startAddr := sub64_eq hlt hx.le
  simp only [Vrd.after, Vrd.extent, Extent.after, hb, Extent.stop, Extent.mk.injEq, true_and,
    and_true]
  rw [sub64_eq hsize (by omega)]
  omega

theorem Vrd.extent_beyond (h : v.Fits) (hx : v.startAddr ≤ x) (hx' : x + 1 < v.extent.stop) :
    (v.beyond x).extent = v.extent.after (x + 1) := by
  have hstop : v.extent.stop = v.startAddr + v.size := rfl
  unfold Vrd.Fits at h
  have hw : wrap (x + 1) = x + 1 := Nat.mod_eq_of_lt (by omega)
  have hl : lastOf v.startAddr v.size = v.startAddr + v.size - 1 := lastOf_eq (by omega) h
  simp only [Vrd.beyond, Vrd.extent, Extent.after, hw, hl, Extent.stop, Extent.mk.injEq, true_and,
    and_true]
  rw [sub64_eq (by omega) (by omega)]
  omega

theorem Vrd.extent_upTo (h : v.Fits) (hx : v.startAddr ≤ x) (hx' : x + 1 < v.extent.stop) :
    (v.upTo x).extent = v.extent.before (x + 1) := by
  have hstop : v.extent.stop = v.startAddr + v.size := rfl
  have hb : (v.beyond x).size = v.startAddr + v.size - (x + 1) :=
    congrArg Extent.size (Vrd.extent_beyond h hx hx')
  unfold Vrd.Fits at h
  simp only [Vrd.upTo, Vrd.extent, Extent.before, hb, Extent.mk.injEq, true_and, and_true]
  rw [sub64_eq (by omega) (by omega)]
  omega

theorem Vrd.extent_join (h : w.Fits) (hadj : v.extent.stop = w.startAddr) :
    (v.join w).extent = v.extent.join w.extent := by
  have hstop : v.extent.stop = v.startAddr + v.size := rfl
  unfold Vrd.Fits at h
  have hw : wrap (v.size + w.size) = v.size + w.size := Nat.mod_eq_of_lt (by omega)
  simp only [Vrd.join, Vrd.extent, Extent.join, hw]

theorem sameAttrs_iff : sameAttrs v w ↔ v.toVrdAttrs = w.toVrdAttrs := by
  obtain ⟨⟨f, st, pm, pt⟩, a, n⟩ := v
  obtain ⟨⟨f', st', pm', pt'⟩, a', n'⟩ := w
  simp only [sameAttrs, decide_eq_true_eq, VrdAttrs.mk.injEq]
  tauto

end Extent

/-! ### Well-formed lists -/

/-- The extents of a list of descriptors. -/
def extents (l : List (Addr × Vrd)) : List (Extent VrdAttrs) := l.map fun p => p.2.extent

@[simp] theorem extents_append (l l' : List (Addr × Vrd)) :
    extents (l ++ l') = extents l ++ extents l' := map_append

@[simp] theorem extents_cons (a : Addr) (v : Vrd) (l : List (Addr × Vrd)) :
    extents ((a, v) :: l) = v.extent :: extents l := rfl

theorem mem_extents (h : (a, v) ∈ l) : v.extent ∈ extents l := mem_map_of_mem h

theorem exists_of_mem_extents {e : Extent VrdAttrs} (h : e ∈ extents l) :
    ∃ a v, (a, v) ∈ l ∧ v.extent = e := by
  obtain ⟨⟨a, v⟩, hmem, rfl⟩ := mem_map.mp h
  exact ⟨a, v, hmem, rfl⟩

/-- What the list says about an address. -/
def pageMap (l : List (Addr × Vrd)) (p : ℕ) : Option VrdAttrs := tagAt (extents l) p

/-- The descriptor of the part of the enclave below the reserved memory. -/
def lockedVrd (c : Config) : Vrd := ⟨⟨0, .locked, .noaccess, .reg⟩, c.enclaveBase, c.rsrvOffset⟩

/-- What holds of every descriptor of reserved memory. -/
structure UserVrd (c : Config) (v : Vrd) : Prop where
  state : v.state = .committed
  pageType : v.pageType = .reg
  flags : v.flags = 0
  start_aligned : 4096 ∣ v.startAddr
  size_aligned : 4096 ∣ v.size
  le_end : v.startAddr + v.size ≤ c.rsrvEnd

/-- The invariant of the list of descriptors. -/
structure Wf (c : Config) (l : List (Addr × Vrd)) : Prop where
  head : ∃ a rest, l = (a, lockedVrd c) :: rest
  user : ∀ p ∈ l.tail, UserVrd c p.2
  sorted : Sorted (extents l)

theorem Config.rsrvEnd_lt (c : Config) : c.rsrvEnd < 2 ^ 64 :=
  lt_of_le_of_lt c.rsrv_le c.elrange_lt

theorem UserVrd.fits (h : UserVrd c v) : v.Fits := lt_of_le_of_lt h.le_end c.rsrvEnd_lt

theorem lockedVrd_fits (c : Config) : (lockedVrd c).Fits := by
  have := c.rsrvEnd_lt
  unfold Config.rsrvEnd Config.rsrvBase at this
  show c.enclaveBase + c.rsrvOffset < 2 ^ 64
  omega

namespace Wf

theorem ne_nil (h : Wf c l) : l ≠ [] := by
  obtain ⟨a, rest, rfl⟩ := h.head
  simp

theorem mem_cases (h : Wf c l) (hv : (a, v) ∈ l) : v = lockedVrd c ∨ UserVrd c v := by
  obtain ⟨b, rest, rfl⟩ := h.head
  rcases mem_cons.mp hv with heq | hv
  · cases heq
    exact .inl rfl
  · exact .inr (h.user _ hv)

theorem fits (h : Wf c l) (hv : (a, v) ∈ l) : v.Fits := by
  rcases h.mem_cases hv with rfl | hu
  · exact lockedVrd_fits c
  · exact hu.fits

/-- A descriptor that covers an address of reserved memory is not the locked one. -/
theorem user_of_has (h : Wf c l) (hv : (a, v) ∈ l) (hp : v.extent.Has p) (hb : c.rsrvBase ≤ p) :
    UserVrd c v := by
  rcases h.mem_cases hv with rfl | hu
  · exact absurd hp.2 (not_lt.mpr hb)
  · exact hu

/-- The place of a user descriptor has a descriptor before it. -/
theorem pre_ne_nil (h : Wf c (pre ++ (a, v) :: post)) (hv : UserVrd c v) : pre ≠ [] := by
  rintro rfl
  obtain ⟨b, rest, heq⟩ := h.head
  cases heq
  cases hv.state

theorem user_of_pre (h : Wf c (pre ++ (a, v) :: post)) (hpre : pre ≠ []) : UserVrd c v := by
  obtain ⟨d, pre, rfl⟩ := exists_cons_of_ne_nil hpre
  exact h.user (a, v) (by simp)

/-- Every descriptor of a part after the first one is a user descriptor. -/
theorem start_ge (h : Wf c l) (hv : (a, v) ∈ l) (hu : UserVrd c v) : c.rsrvBase ≤ v.startAddr := by
  obtain ⟨b, rest, rfl⟩ := h.head
  rcases mem_cons.mp hv with heq | hv
  · cases heq
    cases hu.state
  · exact (sorted_cons.mp h.sorted).2.2 _ (mem_extents hv)

theorem stop_le (h : Wf c l) {e : Extent VrdAttrs} (he : e ∈ extents l) : e.stop ≤ c.rsrvEnd := by
  obtain ⟨a, v, hv, rfl⟩ := exists_of_mem_extents he
  rcases h.mem_cases hv with rfl | hu
  · exact Nat.le_add_right _ _
  · exact hu.le_end

theorem base_le_stop (h : Wf c l) {e : Extent VrdAttrs} (he : e ∈ extents l) :
    c.rsrvBase ≤ e.stop := by
  obtain ⟨a, v, hv, rfl⟩ := exists_of_mem_extents he
  rcases h.mem_cases hv with rfl | hu
  · exact le_rfl
  · exact (h.start_ge hv hu).trans (Nat.le_add_right _ _)

theorem of_parts (hhead : ∃ a rest, pre = (a, lockedVrd c) :: rest)
    (hpre : ∀ p ∈ pre.tail, UserVrd c p.2) (hpost : ∀ p ∈ post, UserVrd c p.2)
    (hs : Sorted (extents (pre ++ post))) : Wf c (pre ++ post) := by
  obtain ⟨a, rest, rfl⟩ := hhead
  refine ⟨⟨a, rest ++ post, rfl⟩, fun p hp => ?_, hs⟩
  rcases mem_append.mp hp with hp | hp
  · exact hpre p hp
  · exact hpost p hp

/-- The parts of a list that is cut behind its first descriptor. -/
theorem parts (h : Wf c (pre ++ post)) (hne : pre ≠ []) :
    (∃ a rest, pre = (a, lockedVrd c) :: rest) ∧ (∀ p ∈ pre.tail, UserVrd c p.2) ∧
      ∀ p ∈ post, UserVrd c p.2 := by
  obtain ⟨d, pre, rfl⟩ := exists_cons_of_ne_nil hne
  obtain ⟨a, rest, heq⟩ := h.head
  cases heq
  exact ⟨⟨a, pre, rfl⟩, fun p hp => h.user p (mem_append_left _ hp),
    fun p hp => h.user p (mem_append_right _ hp)⟩

/-- The part behind the first descriptor may be edited as long as it stays
sorted. -/
theorem replace (mid mid' : List (Addr × Vrd)) (h : Wf c (pre ++ (mid ++ post))) (hne : pre ≠ [])
    (hmid : ∀ p ∈ mid', UserVrd c p.2) (hs : Sorted (extents (pre ++ (mid' ++ post)))) :
    Wf c (pre ++ (mid' ++ post)) := by
  obtain ⟨hhead, hpre, hrest⟩ := h.parts hne
  refine of_parts hhead hpre (fun p hp => ?_) hs
  rcases mem_append.mp hp with hp | hp
  · exact hmid p hp
  · exact hrest p (mem_append_right _ hp)

end Wf

/-! ### Ordered lists -/

/-- The descriptors of a list, without their addresses. -/
def bare (l : List (Addr × Vrd)) : List Vrd := l.map Prod.snd

@[simp] theorem bare_append (l l' : List (Addr × Vrd)) : bare (l ++ l') = bare l ++ bare l' :=
  map_append

@[simp] theorem bare_cons (a : Addr) (v : Vrd) (l : List (Addr × Vrd)) :
    bare ((a, v) :: l) = v :: bare l := rfl

@[simp] theorem bare_nil : bare [] = [] := rfl

/-- What a list of descriptors says about an address. -/
def attrsAt (vs : List Vrd) (p : ℕ) : Option VrdAttrs := tagAt (vs.map Vrd.extent) p

theorem extents_eq (l : List (Addr × Vrd)) : extents l = (bare l).map Vrd.extent := by
  rw [bare, map_map]
  rfl

theorem pageMap_eq_attrsAt (l : List (Addr × Vrd)) : pageMap l = attrsAt (bare l) := by
  funext p
  rw [pageMap, attrsAt, extents_eq]

/-- No descriptor is empty or wraps around, and each ends before the next begins. -/
structure Ordered (vs : List Vrd) : Prop where
  fits : ∀ v ∈ vs, v.Fits
  sorted : Sorted (vs.map Vrd.extent)

theorem Ordered.of_wf (h : Wf c l) : Ordered (bare l) := by
  refine ⟨fun v hv => ?_, extents_eq l ▸ h.sorted⟩
  obtain ⟨⟨a, w⟩, hmem, rfl⟩ := mem_map.mp hv
  exact h.fits hmem

theorem Ordered.sorted_extents (h : Ordered (bare l)) : Sorted (extents l) :=
  extents_eq l ▸ h.sorted

theorem Ordered.fits_of_mem (h : Ordered (bare l)) (hv : (a, v) ∈ l) : v.Fits :=
  h.fits v (mem_map_of_mem hv)

theorem Ordered.pageMap_eq (h : Ordered (bare l)) (hv : (a, v) ∈ l) (hx : v.extent.Has x) :
    pageMap l x = some v.toVrdAttrs :=
  h.sorted_extents.tagAt_of_mem (mem_extents hv) hx

section Bare

variable {pre post : List Vrd} {v' w' : Vrd}

/-- A cut inside a descriptor. -/
theorem Ordered.split (h : Ordered (pre ++ v :: post)) (hx : v.startAddr < x)
    (hx' : x < v.extent.stop) (hv' : v'.extent = v.extent.before x)
    (hw' : w'.extent = v.extent.after x) :
    Ordered (pre ++ v' :: w' :: post) ∧
      attrsAt (pre ++ v' :: w' :: post) = attrsAt (pre ++ v :: post) := by
  have hs : Sorted (pre.map Vrd.extent ++ v.extent :: post.map Vrd.extent) := by
    simpa using h.sorted
  have hfit : v.Fits := h.fits v (by simp)
  have hfit' : v'.extent.stop < 2 ^ 64 ∧ w'.extent.stop < 2 ^ 64 := by
    rw [hv', hw']
    unfold Vrd.Fits at hfit
    simp only [Extent.stop, Extent.before, Extent.after, Vrd.extent] at hx' ⊢
    omega
  refine ⟨⟨fun z hz => ?_, ?_⟩, funext fun p => ?_⟩
  · simp only [mem_append, mem_cons] at hz
    rcases hz with hz | rfl | rfl | hz
    · exact h.fits z (by simp [hz])
    · exact hfit'.1
    · exact hfit'.2
    · exact h.fits z (by simp [hz])
  · simp only [map_append, map_cons, hv', hw']
    exact sorted_split hs hx hx'
  · simp only [attrsAt, map_append, map_cons, hv', hw']
    rw [tagAt_split hs hx hx']

/-- Two descriptors that `combine_vrds` would merge. -/
def Joinable (v w : Vrd) : Prop := v.stop = w.startAddr ∧ sameAttrs v w

instance : Decidable (Joinable v w) := inferInstanceAs (Decidable (_ ∧ _))

theorem Joinable.extent_join (h : Joinable v w) (hv : v.Fits) (hw : w.Fits) :
    (v.join w).extent = v.extent.join w.extent :=
  Vrd.extent_join hw (Vrd.stop_eq hv ▸ h.1)

theorem Joinable.fits_join (h : Joinable v w) (hv : v.Fits) (hw : w.Fits) : (v.join w).Fits := by
  have hadj : v.startAddr + v.size = w.startAddr := (Vrd.stop_eq hv).symm.trans h.1
  show (v.join w).extent.stop < 2 ^ 64
  rw [h.extent_join hv hw]
  unfold Vrd.Fits at hw
  simp only [Extent.stop, Extent.join, Vrd.extent]
  omega

theorem Ordered.join (h : Ordered (pre ++ v :: w :: post)) (hj : Joinable v w) :
    Ordered (pre ++ v.join w :: post) ∧
      attrsAt (pre ++ v.join w :: post) = attrsAt (pre ++ v :: w :: post) := by
  have hs : Sorted (pre.map Vrd.extent ++ v.extent :: w.extent :: post.map Vrd.extent) := by
    simpa using h.sorted
  have hv : v.Fits := h.fits v (by simp)
  have hw : w.Fits := h.fits w (by simp)
  have hext := hj.extent_join hv hw
  have hadj : v.extent.stop = w.extent.start := Vrd.stop_eq hv ▸ hj.1
  refine ⟨⟨fun z hz => ?_, ?_⟩, funext fun p => ?_⟩
  · simp only [mem_append, mem_cons] at hz
    rcases hz with hz | rfl | hz
    · exact h.fits z (by simp [hz])
    · exact hj.fits_join hv hw
    · exact h.fits z (by simp [hz])
  · simp only [map_append, map_cons, hext]
    exact sorted_join hs hadj
  · simp only [attrsAt, map_append, map_cons, hext]
    rw [tagAt_join hs hadj (sameAttrs_iff.mp hj.2)]

end Bare

/-! ### Cutting -/

/-- The second list is the first one with the descriptor that covers `x` cut there. -/
inductive SplitAt (x : ℕ) : List (Addr × Vrd) → List (Addr × Vrd) → Prop
  | intro (pre post : List (Addr × Vrd)) (a a' b' : Addr) {v v' w' : Vrd} (hx : v.startAddr < x)
      (hx' : x < v.extent.stop) (hv' : v'.extent = v.extent.before x)
      (hw' : w'.extent = v.extent.after x) :
      SplitAt x (pre ++ (a, v) :: post) (pre ++ (a', v') :: (b', w') :: post)

abbrev Split (x : ℕ) := Relation.ReflGen (SplitAt x)

theorem SplitAt.ordered (h : SplitAt x l l') (ho : Ordered (bare l)) :
    Ordered (bare l') ∧ pageMap l' = pageMap l ∧ Cut (extents l') x ∧
      ∀ z, Cut (extents l) z → Cut (extents l') z := by
  cases h with
  | @intro pre post a a' b' v v' w' hx hx' hv' hw' =>
    rw [pageMap_eq_attrsAt, pageMap_eq_attrsAt]
    simp only [bare_append, bare_cons] at ho ⊢
    obtain ⟨ho', hmap⟩ := ho.split hx hx' hv' hw'
    refine ⟨ho', hmap, ?_, fun z hz => ?_⟩
    · have hs : Sorted (extents (pre ++ (a', v') :: (b', w') :: post)) := by
        simpa [extents_eq] using ho'.sorted
      have hcut := hs.cut_start (e := w'.extent) (by simp)
      rwa [hw'] at hcut
    · simp only [extents_append, extents_cons, hv', hw'] at hz ⊢
      exact hz.split hx hx'

theorem UserVrd.of_attrs (h : UserVrd c v) (hattrs : w.toVrdAttrs = v.toVrdAttrs)
    (hstart : 4096 ∣ w.startAddr) (hsize : 4096 ∣ w.size)
    (hend : w.startAddr + w.size ≤ c.rsrvEnd) : UserVrd c w :=
  ⟨(congrArg VrdAttrs.state hattrs).trans h.state,
    (congrArg VrdAttrs.pageType hattrs).trans h.pageType,
    (congrArg VrdAttrs.flags hattrs).trans h.flags, hstart, hsize, hend⟩

/-- The second list is the first one with descriptors cut. -/
structure Finer (c : Config) (l l' : List (Addr × Vrd)) : Prop where
  wf : Wf c l'
  pageMap : pageMap l' = pageMap l
  cut : ∀ z, Cut (extents l) z → Cut (extents l') z

theorem Finer.refl (h : Wf c l) : Finer c l l := ⟨h, rfl, fun _ => id⟩

theorem Finer.trans {l'' : List (Addr × Vrd)} (h : Finer c l l') (h' : Finer c l' l'') :
    Finer c l l'' :=
  ⟨h'.wf, h'.pageMap.trans h.pageMap, fun z hz => h'.cut z (h.cut z hz)⟩

/-- Cut a descriptor of reserved memory at a page boundary. -/
theorem SplitAt.finer (h : SplitAt x l l') (hw : Wf c l)
    (hb : c.rsrvBase ≤ x) (hal : 4096 ∣ x) : Finer c l l' := by
  obtain ⟨ho', hmap, -, hcut⟩ := h.ordered (.of_wf hw)
  refine ⟨?_, hmap, hcut⟩
  cases h with
  | @intro pre post a a' b' v v' w' hx hx' hv' hw' =>
    have hu : UserVrd c v := hw.user_of_has (a := a) (by simp) ⟨hx.le, hx'⟩ hb
    have hend := hu.le_end
    have hstop : v.extent.stop = v.startAddr + v.size := rfl
    have hstart : v'.startAddr = v.startAddr := congrArg Extent.start hv'
    have hstart' : w'.startAddr = x := congrArg Extent.start hw'
    have hsize : v'.size = x - v.startAddr := congrArg Extent.size hv'
    have hsize' : w'.size = v.startAddr + v.size - x := congrArg Extent.size hw'
    have huser : UserVrd c v' := by
      refine hu.of_attrs (congrArg Extent.tag hv') (hstart ▸ hu.start_aligned) ?_ (by omega)
      exact hsize ▸ Nat.dvd_sub hal hu.start_aligned
    have huser' : UserVrd c w' := by
      refine hu.of_attrs (congrArg Extent.tag hw') (hstart' ▸ hal) ?_ (by omega)
      exact hsize' ▸ Nat.dvd_sub (dvd_add hu.start_aligned hu.size_aligned) hal
    exact .replace [(a, v)] [(a', v'), (b', w')] hw (hw.pre_ne_nil hu) (by simpa using ⟨huser, huser'⟩)
      ho'.sorted_extents

theorem Split.ordered (h : Split x l l') (ho : Ordered (bare l)) :
    Ordered (bare l') ∧ pageMap l' = pageMap l ∧ ∀ z, Cut (extents l) z → Cut (extents l') z := by
  cases h with
  | refl => exact ⟨ho, rfl, fun _ => id⟩
  | single h =>
    obtain ⟨ho', hmap, -, hcut⟩ := h.ordered ho
    exact ⟨ho', hmap, hcut⟩

theorem Split.cut_of_ne {y : ℕ} (h : Split x l l') (hz : y ≠ x) (hcut : Cut (extents l') y) :
    Cut (extents l) y := by
  cases h with
  | refl => exact hcut
  | single h =>
    cases h with
    | intro pre post a a' b' hx hx' hv' hw' =>
      simp only [extents_append, extents_cons, hv', hw'] at hcut ⊢
      exact hcut.of_split hz

theorem Split.finer (h : Split x l l') (hw : Wf c l)
    (hb : c.rsrvBase ≤ x) (hal : 4096 ∣ x) : Finer c l l' := by
  cases h with
  | refl => exact Finer.refl hw
  | single h => exact h.finer hw hb hal

/-! ### Merging -/

/-- Two neighbours that say the same are merged. -/
inductive Merge : List (Addr × Vrd) → List (Addr × Vrd) → Prop
  | intro (pre post : List (Addr × Vrd)) (a b : Addr) {v w : Vrd} (hj : Joinable v w) :
      Merge (pre ++ (a, v) :: (b, w) :: post) (pre ++ (a, v.join w) :: post)

theorem Merge.ordered (h : Merge l l') (ho : Ordered (bare l)) :
    Ordered (bare l') ∧ pageMap l' = pageMap l := by
  cases h with
  | intro pre post a b hj =>
    rw [pageMap_eq_attrsAt, pageMap_eq_attrsAt]
    simp only [bare_append, bare_cons] at ho ⊢
    exact ho.join hj

theorem Merge.wf (h : Merge l l') (hw : Wf c l) : Wf c l' := by
  have hs := (h.ordered (.of_wf hw)).1.sorted_extents
  cases h with
  | @intro pre post a b v w hj =>
    have hwu : UserVrd c w := by
      have h' : Wf c ((pre ++ [(a, v)]) ++ (b, w) :: post) := by simpa using hw
      exact h'.user_of_pre (by simp)
    have hattrs := sameAttrs_iff.mp hj.2
    -- the locked descriptor says something else, so the first one of the two has a predecessor
    have hvu : UserVrd c v := by
      rcases hw.mem_cases (show (a, v) ∈ _ by simp) with rfl | hvu
      · have hst := (congrArg VrdAttrs.state hattrs).trans hwu.state
        cases hst
      · exact hvu
    have hsize : (v.join w).size = v.size + w.size :=
      congrArg Extent.size (hj.extent_join hvu.fits hwu.fits)
    have hadj : v.startAddr + v.size = w.startAddr := (Vrd.stop_eq hvu.fits).symm.trans hj.1
    have hend := hwu.le_end
    have hjoin : UserVrd c (v.join w) := by
      refine hvu.of_attrs rfl hvu.start_aligned ?_ ?_
      · exact hsize ▸ dvd_add hvu.size_aligned hwu.size_aligned
      · rw [hsize]
        show v.startAddr + _ ≤ _
        omega
    exact .replace [(a, v), (b, w)] [(a, v.join w)] hw (hw.pre_ne_nil hvu) (by simpa using hjoin) hs

abbrev Merged := Relation.ReflTransGen Merge

theorem Merged.ordered (h : Merged l l') (ho : Ordered (bare l)) :
    Ordered (bare l') ∧ pageMap l' = pageMap l := by
  induction h with
  | refl => exact ⟨ho, rfl⟩
  | tail _ hm ih =>
    obtain ⟨ho', hmap⟩ := hm.ordered ih.1
    exact ⟨ho', hmap.trans ih.2⟩

theorem Merged.wf (h : Merged l l') (hw : Wf c l) : Wf c l' := by
  induction h with
  | refl => exact hw
  | tail _ hm ih => exact hm.wf ih

/-! ### Insertion and removal -/

theorem Wf.insert (h : Wf c (pre ++ post)) (hne : pre ≠ []) (hv : UserVrd c v) (hpos : 0 < v.size)
    (hpre : ∀ p ∈ pre, p.2.extent.stop ≤ v.startAddr)
    (hpost : ∀ p ∈ post, v.extent.stop ≤ p.2.startAddr) :
    Wf c (pre ++ (a, v) :: post) ∧ ∀ p, pageMap (pre ++ (a, v) :: post) p
      = if v.extent.Has p then some v.toVrdAttrs else pageMap (pre ++ post) p := by
  have hs : Sorted (extents pre ++ v.extent :: extents post) := by
    refine sorted_insert_iff.mpr ⟨by simpa using h.sorted, hpos, fun e he => ?_, fun e he => ?_⟩
    · obtain ⟨b, w, hw, rfl⟩ := exists_of_mem_extents he
      exact hpre _ hw
    · obtain ⟨b, w, hw, rfl⟩ := exists_of_mem_extents he
      exact hpost _ hw
  refine ⟨.replace [] [(a, v)] h hne (by simpa using hv) (by simpa using hs), fun p => ?_⟩
  simp only [pageMap, extents_append, extents_cons]
  exact tagAt_insert hs

theorem Wf.remove (h : Wf c (pre ++ (a, v) :: post)) (hv : UserVrd c v) :
    Wf c (pre ++ post) ∧ ∀ p, pageMap (pre ++ post) p
      = if v.extent.Has p then none else pageMap (pre ++ (a, v) :: post) p := by
  have hs : Sorted (extents pre ++ v.extent :: extents post) := by simpa using h.sorted
  refine ⟨.replace [(a, v)] [] h (h.pre_ne_nil hv) (by simp)
    (by simpa using (sorted_insert_iff.mp hs).1), fun p => ?_⟩
  simp only [pageMap, extents_append, extents_cons]
  exact tagAt_remove hs

/-- Change the permissions of a descriptor. -/
theorem Wf.setPerms (h : Wf c (pre ++ (a, v) :: post)) (hv : UserVrd c v) (perms : Protect) :
    Wf c (pre ++ (a, { v with perms := perms }) :: post) ∧
      ∀ p, pageMap (pre ++ (a, { v with perms := perms }) :: post) p
        = if v.extent.Has p then some { v.toVrdAttrs with perms := perms }
          else pageMap (pre ++ (a, v) :: post) p := by
  have hs : Sorted (extents pre ++ v.extent :: extents post) := by simpa using h.sorted
  have hs' : Sorted (extents (pre ++ (a, { v with perms := perms }) :: post)) := by
    simp only [extents_append, extents_cons]
    rw [sorted_insert_iff] at hs ⊢
    exact hs
  have hu : UserVrd c { v with perms := perms } := { hv with }
  refine ⟨.replace [(a, v)] [(a, { v with perms := perms })] h (h.pre_ne_nil hv) (by simpa using hu) hs',
    fun p => ?_⟩
  simp only [pageMap, extents_append, extents_cons]
  exact tagAt_retag hs

end ReservedMem
