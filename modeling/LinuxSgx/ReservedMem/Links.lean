/-
Relinking the list of descriptors.

Each function of `mm_vrd.cpp` that changes the list is described by the list it
leaves: lookup (`spec_findVrd`), removal (`spec_removeVrd`), insertion before a
descriptor and at the end (`spec_linkBefore`, `spec_linkLast`), the two cuts
(`spec_splitBefore`, `spec_splitAfter`) and the merger of neighbours
(`spec_combineNext`).  Insertion before the head of the list leaves the head
pointer behind, so `spec_linkBefore` asks for a descriptor before it.
-/
import LinuxSgx.ReservedMem.Rep

namespace ReservedMem

open Prog Dll Function List

variable {u : Prop} {s s' : Vmm} {l pre post : List (Addr × Vrd)} {f : List Addr} {a b : Addr}
  {v w : Vrd} {c : Cell Vrd}

/-! ### Neighbours -/

section Neighbours

theorem first_append_elim (pre l l' : List (Addr × Vrd)) :
    first (pre ++ l) = (last pre).elim (first l) fun _ => first (pre ++ l') := by
  rcases eq_nil_or_concat pre with rfl | ⟨pre, d, rfl⟩
  · rfl
  · rw [concat_eq_append, last_concat]
    cases pre <;> rfl

theorem Rep.prev_cell (h : Rep s l f) (hl : l = pre ++ (a, v) :: post) {p : Addr}
    (hp : last pre = some p) : ∃ c, s.heap p = some c ∧ c.next = some a := by
  rcases eq_nil_or_concat pre with rfl | ⟨pre, ⟨q, w⟩, rfl⟩
  · cases hp
  · rw [concat_eq_append] at hl hp
    rw [last_concat] at hp
    cases hp
    rw [List.append_assoc] at hl
    exact ⟨_, h.cell hl, rfl⟩

theorem Rep.next_cell (h : Rep s l f) (hl : l = pre ++ (a, v) :: post) {x : Addr}
    (hx : first post = some x) : ∃ c, s.heap x = some c ∧ c.prev = some a := by
  cases post with
  | nil => cases hx
  | cons d post =>
    obtain ⟨y, w⟩ := d
    cases hx
    have hl' : l = (pre ++ [(a, v)]) ++ (y, w) :: post := by rw [hl]; simp
    exact ⟨_, h.cell hl', by simp [last]⟩

end Neighbours

/-- The four parts of the represented cells are apart, and so are the cells next
to the middle. -/
structure Apart (pre mid post : List (Addr × Vrd)) (f : List Addr) : Prop where
  pre_mid : ∀ x ∈ pre.map Prod.fst, x ∉ mid.map Prod.fst
  pre_post : ∀ x ∈ pre.map Prod.fst, x ∉ post.map Prod.fst
  mid_post : ∀ x ∈ mid.map Prod.fst, x ∉ post.map Prod.fst
  free : ∀ x ∈ f, x ∉ pre.map Prod.fst ∧ x ∉ mid.map Prod.fst ∧ x ∉ post.map Prod.fst

variable {mid : List (Addr × Vrd)}

theorem Rep.apart (h : Rep s (pre ++ mid ++ post) f) : Apart pre mid post f := by
  have hn := h.nodup
  simp only [map_append, nodup_append, mem_append] at hn
  obtain ⟨⟨⟨-, -, h1⟩, -, h2⟩, -, h3⟩ := hn
  refine ⟨fun x hx hy => h1 x hx x hy rfl, fun x hx hy => h2 x (.inl hx) x hy rfl,
    fun x hx hy => h2 x (.inr hx) x hy rfl, fun x hx => ⟨fun hy => ?_, fun hy => ?_, fun hy => ?_⟩⟩
  · exact h3 x (.inl (.inl hy)) x hx rfl
  · exact h3 x (.inl (.inr hy)) x hx rfl
  · exact h3 x (.inr hy) x hx rfl

theorem last_ne {x : Addr} (hx : x ∉ pre.map Prod.fst) : last pre ≠ some x :=
  fun h => hx (mem_of_last h)

theorem first_ne {x : Addr} (hx : x ∉ post.map Prod.fst) : first post ≠ some x :=
  fun h => hx (mem_of_first h)

/-- Replace the middle of the list; its new cells are among the old ones and a
spare one. -/
theorem Rep.splice (h : Rep s (pre ++ mid ++ post) f) (mid' : List (Addr × Vrd)) (s' : Vmm)
    (hvrdl : s'.vrdl = first (pre ++ mid' ++ post)) (hfree : s'.freeList = s.freeList)
    (hcount : s'.freeListCount = s.freeListCount) (haddr : s'.nextAddr = s.nextAddr)
    (hpre : ∀ a ∈ pre.map Prod.fst,
      s'.heap a = Dll.setNext s.heap (last pre) (first (mid' ++ post)) a)
    (hpost : ∀ a ∈ post.map Prod.fst,
      s'.heap a = Dll.setPrev s.heap (first post) (last (pre ++ mid')) a)
    (hmid : Seg s'.heap (last pre) mid' (first post)) (hf : ∀ a ∈ f, s'.heap a = s.heap a)
    (hnd : ((pre ++ mid' ++ post).map Prod.fst ++ f).Nodup)
    (hnew : ∀ a ∈ mid'.map Prod.fst, a < s.nextAddr) : Rep s' (pre ++ mid' ++ post) f := by
  refine ⟨hvrdl, h.list.splice h.nodup.of_append_left (by simpa using hpre) (by simpa using hpost)
    (by simpa using hmid), hfree.trans h.freeList, h.stack.frame hf, hcount.trans h.count, hnd,
    fun a ha => ?_⟩
  rw [haddr]
  simp only [map_append, mem_append] at ha
  rcases ha with ((ha | ha) | ha) | ha
  · exact h.fresh a (by simp only [map_append, mem_append]; tauto)
  · exact hnew a ha
  · exact h.fresh a (by simp only [map_append, mem_append]; tauto)
  · exact h.fresh a (by simp only [map_append, mem_append]; tauto)

/-! ### Lookup -/

section Lookup

theorem spec_findVrdFrom {x n : ℕ} (h : Rep s l f) (hl : l = pre ++ post) (hn : post.length ≤ n) :
    wp u (findVrdFrom x n (first post)) (fun r s' => s' = s ∧
      match r with
      | none => ∀ p ∈ post, ¬addrInVrd x p.2
      | some a => ∃ pre' v post', post = pre' ++ (a, v) :: post' ∧ addrInVrd x v ∧
          ∀ p ∈ pre', ¬addrInVrd x p.2) s := by
  induction post generalizing pre n with
  | nil =>
    rw [first_nil, findVrdFrom]
    simp
  | cons d post ih =>
    obtain ⟨a, v⟩ := d
    cases n with
    | zero => simp at hn
    | succ n =>
      rw [first_cons, findVrdFrom, wp_bind, wp_node (h.cell hl), wp_ite]
      refine ⟨fun hin => ?_, fun hout => ?_⟩
      · exact ⟨rfl, [], v, post, rfl, hin, by simp⟩
      · have hl' : l = (pre ++ [(a, v)]) ++ post := by rw [hl]; simp
        have hout' : ¬addrInVrd x v := hout
        refine wp_mono (ih hl' (by simpa using hn)) fun r s' ⟨hs, hr⟩ => ⟨hs, ?_⟩
        cases r with
        | none =>
          intro p hp
          rcases mem_cons.mp hp with rfl | hp
          · exact hout'
          · exact hr p hp
        | some b =>
          obtain ⟨pre', w, post', rfl, hw, hpre⟩ := hr
          refine ⟨(a, v) :: pre', w, post', rfl, hw, fun p hp => ?_⟩
          rcases mem_cons.mp hp with rfl | hp
          · exact hout'
          · exact hpre p hp

theorem spec_findVrd (x : ℕ) (h : Rep s l f) :
    wp u (findVrd x) (fun r s' => s' = s ∧
      match r with
      | none => ∀ p ∈ l, ¬addrInVrd x p.2
      | some a => ∃ pre v post, l = pre ++ (a, v) :: post ∧ addrInVrd x v ∧
          ∀ p ∈ pre, ¬addrInVrd x p.2) s := by
  rw [findVrd, wp_bind, wp_get, h.vrdl]
  exact spec_findVrdFrom h (nil_append l).symm h.length_le

end Lookup

/-! ### Removal -/

section Removal

variable {Q : Bool → Vmm → Prop}

theorem wp_nextIs (h : Rep s l f) (hl : l = pre ++ (a, v) :: post) :
    wp u (nextIs (last pre) a) Q s ↔ Q true s := by
  rcases hp : last pre with _ | p
  · rfl
  · obtain ⟨c, hc, hcn⟩ := h.prev_cell hl hp
    simp [nextIs, wp_node hc, hcn]

theorem wp_prevIs (h : Rep s l f) (hl : l = pre ++ (a, v) :: post) :
    wp u (prevIs (first post) a) Q s ↔ Q true s := by
  rcases hx : first post with _ | x
  · rfl
  · obtain ⟨c, hc, hcp⟩ := h.next_cell hl hx
    simp [prevIs, wp_node hc, hcp]

theorem wp_setNextOrHead {Q : Unit → Vmm → Prop} {q x : Option Addr}
    (h : ∀ p ∈ q, ∃ c, s.heap p = some c) :
    wp u (setNextOrHead q x) Q s ↔
      Q () { s with vrdl := q.elim x fun _ => s.vrdl, heap := Dll.setNext s.heap q x } := by
  cases q with
  | none => rfl
  | some p => exact wp_setNextOf h

/-- The list without one of its descriptors. -/
theorem Rep.unlink (h : Rep s (pre ++ [(a, v)] ++ post) f)
    (hs' : s' = { s with
      vrdl := (last pre).elim (first post) fun _ => s.vrdl
      heap := Dll.setPrev (Dll.setNext s.heap (last pre) (first post)) (first post) (last pre) }) :
    Rep s' (pre ++ post) f ∧ Spare s' (pre ++ post) f a := by
  have hap := h.apart
  have hmem : a ∈ [(a, v)].map Prod.fst := by simp
  have hcell := h.cell (by simp : pre ++ [(a, v)] ++ post = pre ++ (a, v) :: post)
  have hnd := h.nodup
  simp only [List.append_assoc, map_append, map_cons, nil_append,
    List.cons_append] at hnd
  have hperm := perm_middle.nodup_iff.mp hnd
  subst hs'
  refine ⟨?_, ⟨⟨_, Eq.trans ?_ hcell⟩, ?_, h.fresh a (by simp)⟩⟩
  · rw [show pre ++ post = pre ++ [] ++ post by simp]
    refine h.splice [] _ ?_ rfl rfl rfl (fun x hx => ?_) (fun x hx => ?_) trivial (fun x hx => ?_) ?_
      (by simp)
    · rw [append_nil, first_append_elim pre post ([(a, v)] ++ post), ← List.append_assoc,
        ← h.vrdl]
    · exact setPrev_of_ne (first_ne (hap.pre_post x hx))
    · rw [append_nil]
      exact setPrev_congr (setNext_of_ne (last_ne fun hy => hap.pre_post x hy hx))
    · obtain ⟨hx1, -, hx2⟩ := hap.free x hx
      exact (setPrev_of_ne (first_ne hx2)).trans (setNext_of_ne (last_ne hx1))
    · simpa using (nodup_cons.mp hperm).2
  · exact (setPrev_of_ne (first_ne (hap.mid_post a hmem))).trans
      (setNext_of_ne (last_ne fun hy => hap.pre_mid a hy hmem))
  · have := (nodup_cons.mp hperm).1
    simpa using this

theorem spec_removeVrd (h : Rep s l f) (hl : l = pre ++ (a, v) :: post) :
    wp u (removeVrd a) (fun _ s' => Rep s' (pre ++ post) (a :: f) ∧ Mallocs s s') s := by
  have hprev := fun p => h.prev_cell hl (p := p)
  have hnext := fun x => h.next_cell hl (x := x)
  have hsplit : l = pre ++ [(a, v)] ++ post := by rw [hl]; simp
  have hap := (hsplit ▸ h).apart
  simp only [removeVrd, wp_bind, wp_node (h.cell hl), wp_nextIs h hl, wp_prevIs h hl, and_self,
    if_true, wp_setNextOrHead fun p hp => (hprev p hp).imp fun _ => And.left]
  rw [wp_setPrevOf]
  · obtain ⟨h₁, ha⟩ := (hsplit ▸ h).unlink rfl
    refine wp_mono (spec_freeListPutVrd h₁ ha) ?_
    rintro _ s₂ ⟨_, h₂, hm⟩
    exact ⟨h₂, hm.same, hm.mallocs.le⟩
  · intro x hx
    obtain ⟨c, hc, -⟩ := hnext x hx
    refine ⟨c, ?_⟩
    rw [← hc]
    exact setNext_of_ne (last_ne fun hy => hap.pre_post x hy (mem_of_first hx))

end Removal

/-! ### Insertion -/

section Insertion

theorem Spare.notMem_list (ha : Spare s l f a) : a ∉ l.map Prod.fst :=
  fun hm => ha.notMem (mem_append_left _ hm)

theorem Spare.notMem_free (ha : Spare s l f a) : a ∉ f :=
  fun hm => ha.notMem (mem_append_right _ hm)

/-- A spare descriptor may join the list. -/
theorem Rep.nodup_add (h : Rep s (pre ++ post) f) (ha : Spare s (pre ++ post) f a) :
    ((pre ++ [(a, v)] ++ post).map Prod.fst ++ f).Nodup := by
  have hperm : ((pre ++ [(a, v)] ++ post).map Prod.fst ++ f).Perm
      (a :: ((pre ++ post).map Prod.fst ++ f)) := by
    simp only [map_append, List.append_assoc]
    exact perm_middle
  exact hperm.nodup_iff.mpr (nodup_cons.mpr ⟨ha.notMem, h.nodup⟩)

/-- Link a spare descriptor in between two parts of the list. -/
theorem Rep.link (h : Rep s (pre ++ post) f) (ha : Spare s (pre ++ post) f a)
    (hs' : s' = { s with
      vrdl := (last pre).elim (some a) fun _ => s.vrdl
      heap := Dll.setPrev (Dll.setNext (update s.heap a (some ⟨v, first post, last pre⟩))
        (last pre) (some a)) (first post) (some a) }) :
    Rep s' (pre ++ (a, v) :: post) f := by
  have h' : Rep s (pre ++ [] ++ post) f := by simpa using h
  have hap := h'.apart
  have hmem := ha.notMem_list
  simp only [map_append, mem_append, not_or] at hmem
  rw [hs', append_cons]
  refine h'.splice [(a, v)] _ ?_ rfl rfl rfl (fun x hx => ?_) (fun x hx => ?_) ⟨?_, trivial⟩
    (fun x hx => ?_) ?_ ?_
  · rw [List.append_assoc, first_append_elim pre ([(a, v)] ++ post) post, ← h.vrdl]
    rfl
  · refine (setPrev_of_ne (first_ne (hap.pre_post x hx))).trans (setNext_congr ?_)
    exact update_of_ne (ne_of_mem_of_not_mem hx hmem.1) _ _
  · rw [last_concat]
    refine setPrev_congr ((setNext_of_ne (last_ne fun hy => hap.pre_post x hy hx)).trans ?_)
    exact update_of_ne (ne_of_mem_of_not_mem hx hmem.2) _ _
  · refine (setPrev_of_ne (first_ne hmem.2)).trans ((setNext_of_ne (last_ne hmem.1)).trans ?_)
    simp
  · obtain ⟨hx1, -, hx2⟩ := hap.free x hx
    refine (setPrev_of_ne (first_ne hx2)).trans ((setNext_of_ne (last_ne hx1)).trans ?_)
    exact update_of_ne (ne_of_mem_of_not_mem hx ha.notMem_free) _ _
  · exact h.nodup_add ha
  · simpa using ha.fresh

variable {nx pv : Option Addr}

/-- Insertion before a descriptor that is not the head of the list. -/
theorem spec_linkBefore (h : Rep s l f) (hl : l = pre ++ (b, w) :: post) (hpre : pre ≠ [])
    (ha : Spare s l f a) (hcell : s.heap a = some ⟨v, nx, pv⟩) :
    wp u (linkBefore a b) (fun r s' => r = true ∧ Rep s' (pre ++ (a, v) :: (b, w) :: post) f ∧
      Mallocs s s') s := by
  subst hl
  have hmem := ha.notMem_list
  simp only [map_append, mem_append, not_or] at hmem
  have hprev := fun p => h.prev_cell rfl (p := p)
  have hap := (show Rep s (pre ++ [] ++ (b, w) :: post) f by simpa using h).apart
  have hb := h.cell rfl
  have hbmem : b ∈ ((b, w) :: post).map Prod.fst := by simp
  simp only [linkBefore, wp_bind, wp_node hb, wp_nextIs h rfl, if_true, wp_writeNode hcell]
  rw [wp_setNextOf]
  · rw [wp_setPrevOf]
    · refine ⟨rfl, h.link ha ?_, rfl, le_rfl⟩
      obtain ⟨p, hp⟩ : ∃ p, last pre = some p := by
        rcases eq_nil_or_concat pre with rfl | ⟨pre, d, rfl⟩
        · exact absurd rfl hpre
        · exact ⟨d.1, by rw [concat_eq_append, last_concat]⟩
      rw [hp]
      rfl
    · intro x hx
      cases hx
      refine ⟨_, (setNext_of_ne (last_ne fun hy => hap.pre_post b hy hbmem)).trans
        ((update_of_ne ?_ _ _).trans hb)⟩
      exact ne_of_mem_of_not_mem hbmem hmem.2
  · intro p hp
    obtain ⟨c, hc, -⟩ := hprev p hp
    refine ⟨c, (update_of_ne ?_ _ _).trans hc⟩
    exact ne_of_mem_of_not_mem (mem_of_last hp) hmem.1

/-- Insertion at the end. -/
theorem spec_linkLast (h : Rep s l f) (ha : Spare s l f a) (hcell : s.heap a = some ⟨v, nx, pv⟩) :
    wp u (linkLast a (last l)) (fun _ s' => Rep s' (l ++ [(a, v)]) f ∧ Mallocs s s') s := by
  have h' : Rep s (l ++ []) f := by simpa using h
  have ha' : Spare s (l ++ []) f a := by simpa using ha
  rcases eq_nil_or_concat l with rfl | ⟨l, ⟨p, w⟩, rfl⟩
  · simp only [linkLast, wp_bind, wp_get, h.vrdl, first_nil, wp_modify]
    rw [wp_writeNode (s := { s with vrdl := some a }) hcell]
    exact ⟨h'.link ha' rfl, rfl, le_rfl⟩
  · rw [concat_eq_append] at *
    have hp := h.cell (by simp : l ++ [(p, w)] = l ++ (p, w) :: [])
    have hne : p ≠ a := by
      rintro rfl
      exact ha.notMem (by simp)
    have hfirst : ∃ x, first (l ++ [(p, w)]) = some x := by
      cases l
      · exact ⟨_, rfl⟩
      · exact ⟨_, rfl⟩
    obtain ⟨x, hx⟩ := hfirst
    have hvrdl : s.vrdl = some x := h.vrdl.trans hx
    simp only [linkLast, wp_bind, wp_get, hvrdl, last_concat, wp_writeNode hcell]
    rw [wp_setNextOf]
    · refine ⟨h'.link ha' ?_, rfl, le_rfl⟩
      rw [last_concat, Option.elim, hvrdl]
      rfl
    · intro y hy
      cases hy
      exact ⟨_, (update_of_ne hne _ _).trans hp⟩

end Insertion

/-! ### Splitting and merging -/

section Splitting

/-- Overwrite a descriptor of the list. -/
theorem Rep.write (h : Rep s l f) (hl : l = pre ++ (a, v) :: post) (w : Vrd) :
    Rep { s with heap := update s.heap a (some ⟨w, first post, last pre⟩) }
      (pre ++ (a, w) :: post) f := by
  have hfst : (pre ++ (a, w) :: post).map Prod.fst = l.map Prod.fst := by simp [hl]
  have haf : a ∉ f := fun hm =>
    (nodup_append.mp h.nodup).2.2 a (by simp [hl]) a hm rfl
  have hlist : Seg s.heap none (pre ++ (a, v) :: post) none := hl ▸ h.list
  have hset := hlist.setVal (hl ▸ h.nodup.of_append_left) w
  rw [Option.or_none, Option.or_none] at hset
  refine ⟨?_, hset, h.freeList, h.stack.update haf _, h.count, hfst ▸ h.nodup, hfst ▸ h.fresh⟩
  show s.vrdl = _
  rw [h.vrdl, hl]
  cases pre <;> simp

theorem Rep.around (h : Rep s (pre ++ (a, v) :: post) f) :
    a ∉ pre.map Prod.fst ∧ a ∉ post.map Prod.fst := by
  have hap := (show Rep s (pre ++ [(a, v)] ++ post) f by simpa using h).apart
  have ham : a ∈ [(a, v)].map Prod.fst := by simp
  exact ⟨fun hy => hap.pre_mid a hy ham, hap.mid_post a ham⟩

/-- What is spare stays so when a descriptor of the list is overwritten. -/
theorem Spare.write (hb : Spare s l f b) (hl : l = pre ++ (a, v) :: post) (w : Vrd)
    (n : Option (Cell Vrd)) :
    b ≠ a ∧ Spare { s with heap := update s.heap a n } (pre ++ (a, w) :: post) f b := by
  have hfst : (pre ++ (a, w) :: post).map Prod.fst = l.map Prod.fst := by simp [hl]
  have hba : b ≠ a := by
    rintro rfl
    exact hb.notMem_list (by simp [hl])
  obtain ⟨c, hc⟩ := hb.cell
  exact ⟨hba, ⟨c, (update_of_ne hba _ _).trans hc⟩, hfst ▸ hb.notMem, hb.fresh⟩

/-- Cut a descriptor; the spare one takes the first part. -/
theorem spec_splitBefore {x : ℕ} (h : Rep s l f) (hl : l = pre ++ (a, v) :: post)
    (hb : Spare s l f b) :
    wp u (splitBefore a b x) (fun _ s' =>
      Rep s' (pre ++ (b, v.before x) :: (a, v.after x) :: post) f ∧ NoMallocs s s') s := by
  have hcell := h.cell hl
  obtain ⟨hapre, -⟩ := (hl ▸ h).around
  obtain ⟨cb, hcb⟩ := hb.cell
  obtain ⟨hba, hb₁⟩ := hb.write hl (v.after x) (some ⟨v.after x, first post, last pre⟩)
  have hbpre : b ∉ pre.map Prod.fst := fun hm => hb.notMem_list (by rw [hl]; simp [hm])
  simp only [splitBefore, wp_bind, wp_node hcell, wp_nextIs h hl, if_true,
    wp_setNextOrHead fun p hp => (h.prev_cell hl hp).imp fun _ => And.left]
  rw [wp_writeNode (c := cb), wp_writeNode (c := ⟨v, first post, last pre⟩)]
  · -- the descriptor is overwritten, and the spare one linked before it
    refine ⟨(h.write hl (v.after x)).link hb₁ ?_, rfl, rfl⟩
    simp [setNext_update (last_ne hapre), setNext_update (last_ne hbpre), Dll.setPrev,
      update_comm hba, hba.symm]
  · exact (update_of_ne hba.symm _ _).trans ((setNext_of_ne (last_ne hapre)).trans hcell)
  · exact (setNext_of_ne (last_ne hbpre)).trans hcb

/-- Cut a descriptor; the spare one takes the second part. -/
theorem spec_splitAfter {x : ℕ} (h : Rep s l f) (hl : l = pre ++ (a, v) :: post)
    (hb : Spare s l f b) :
    wp u (splitAfter a b x) (fun _ s' =>
      Rep s' (pre ++ (a, v.upTo x) :: (b, v.beyond x) :: post) f ∧ Mallocs s s') s := by
  have hcell := h.cell hl
  obtain ⟨-, hapost⟩ := (hl ▸ h).around
  obtain ⟨cb, hcb⟩ := hb.cell
  obtain ⟨hba, hb₁⟩ := hb.write hl (v.upTo x) (some ⟨v.upTo x, first post, last pre⟩)
  have hbpost : b ∉ post.map Prod.fst := fun hm => hb.notMem_list (by rw [hl]; simp [hm])
  simp only [splitAfter, wp_bind, wp_node hcell, wp_prevIs h hl, if_true,
    wp_setPrevOf fun p hp => (h.next_cell hl hp).imp fun _ => And.left]
  rw [wp_writeNode (c := cb), wp_writeNode (c := ⟨v, first post, last pre⟩)]
  · have h₁ := h.write hl (v.upTo x)
    rw [append_cons] at h₁ hb₁
    rw [append_cons]
    refine ⟨h₁.link hb₁ ?_, rfl, le_rfl⟩
    simp [setPrev_update (first_ne hapost), setPrev_update (first_ne hbpost), Dll.setNext,
      update_comm hba, hba.symm]
  · exact (update_of_ne hba.symm _ _).trans ((setPrev_of_ne (first_ne hapost)).trans hcell)
  · exact (setPrev_of_ne (first_ne hbpost)).trans hcb

/-- Merge a descriptor into the one before it, if that is possible. -/
theorem spec_combineNext (h : Rep s l f) (hl : l = pre ++ (a, v) :: (b, w) :: post) :
    wp u (combineNext a b) (fun _ s' => Mallocs s s' ∧
      if v.stop = w.startAddr ∧ sameAttrs v w then Rep s' (pre ++ (a, v.join w) :: post) (b :: f)
      else s' = s) s := by
  have ha := h.cell hl
  have hl' : l = (pre ++ [(a, v)]) ++ (b, w) :: post := by rw [hl]; simp
  have hb := h.cell hl'
  rw [last_concat] at hb
  simp only [combineNext, wp_bind, wp_node ha, wp_node hb]
  rw [wp_ite]
  refine ⟨fun hcond => ?_, fun hcond => ⟨Mallocs.refl s, by rw [if_neg hcond]⟩⟩
  simp only [wp_bind, wp_writeNode ha]
  rw [wp_setPrevOf]
  · -- the first one is overwritten, and the second one unlinked
    have h₁ := h.write hl (v.join w)
    rw [append_cons, append_cons _ (b, w)] at h₁
    obtain ⟨h₂, hb₂⟩ := h₁.unlink rfl
    simp [Dll.setNext] at h₂ hb₂
    refine wp_mono (spec_freeListPutVrd h₂ hb₂) ?_
    rintro _ s₂ ⟨_, h₃, hm⟩
    refine ⟨⟨hm.same, hm.mallocs.le⟩, ?_⟩
    rw [if_pos hcond]
    simpa using h₃
  · intro y hy
    obtain ⟨c, hc, -⟩ := h.next_cell hl' hy
    obtain ⟨-, hapost⟩ := (hl ▸ h).around
    refine ⟨c, (update_of_ne ?_ _ _).trans hc⟩
    rintro rfl
    exact hapost (mem_cons_of_mem _ (mem_of_first hy))

end Splitting

end ReservedMem
