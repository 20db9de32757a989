/-
Copies of buffers in a trusted bridge (`gen_parm_ptr_direction_pre`, `gen_parm_ptr_direction_post` of
`CodeGen.ml`).

* `Kept` — a step that leaves the local copies of pointers and lengths as they are;
* `CloneEvent`, **`cloneInPtr_spec`** — what is accessed for the copy of a parameter;
* **`copyBack_spec`** — what is accessed when it is copied back.
-/
import LinuxSgx.Edger8r.Locals

open CInt List Function

namespace Edger8r

def Event.source? : Event → Option Buffer
  | .read b _ _ => some b
  | _ => none

/-- The buffers that were read, in order. -/
def buffersRead (tr : List Event) : List Buffer := tr.filterMap Event.source?

theorem buffersRead_append (tr tr' : List Event) :
    buffersRead (tr ++ tr') = buffersRead tr ++ buffersRead tr' := filterMap_append

theorem mem_buffersRead {tr : List Event} {b : Buffer} :
    b ∈ buffersRead tr ↔ ∃ p n, Event.read b p n ∈ tr := by
  rw [buffersRead, mem_filterMap]
  constructor
  · rintro ⟨e, he, hb⟩
    cases e with
    | read b' p n =>
      cases hb
      exact ⟨p, n, he⟩
    | readField | check | alloc | call | write => cases hb
  · rintro ⟨p, n, hmem⟩
    exact ⟨_, hmem, rfl⟩

/-- A step after the declarations: it does not assign to local copies and lengths. -/
structure Kept (s s' : State) (evs : List Event) : Prop where
  tmp : s'.tmp = s.tmp
  len : s'.len = s.len
  trace : s'.trace = s.trace ++ evs

theorem Kept.refl (s : State) : Kept s s [] := ⟨rfl, rfl, (append_nil _).symm⟩

theorem Kept.trans {s s' s'' : State} {evs evs' : List Event} (h : Kept s s' evs)
    (h' : Kept s' s'' evs') : Kept s s'' (evs ++ evs') :=
  ⟨h'.tmp.trans h.tmp, h'.len.trans h.len, by rw [h'.trace, h.trace, List.append_assoc]⟩

theorem kept_emit (s : State) (evs : List Event) : Kept s (s.emit evs) evs := ⟨rfl, rfl, rfl⟩

/-! ### Members -/

theorem mem_memberEvents {event : Buffer → ℕ → ℕ → Event} {x : String} {l : List (ℕ × ℕ)}
    {e : Event} (h : e ∈ memberEvents event x l) :
    ∃ k p n, l[k]? = some (p, n) ∧ e = event (.member x k) p n := by
  obtain ⟨⟨⟨p, n⟩, k⟩, hmem, rfl⟩ := List.mem_map.mp h
  have hidx := List.mem_zipIdx_iff_getElem?.mp (mem_filter.mp hmem).1
  exact ⟨k, p, n, hidx, rfl⟩

theorem nodup_memberEvents (x : String) (l : List (ℕ × ℕ)) :
    (buffersRead (memberEvents .read x l)).Nodup := by
  have hmap : buffersRead (memberEvents .read x l) =
      ((l.zipIdx.filter fun y => y.1.1 ≠ 0 ∧ y.1.2 ≠ 0).map Prod.snd).map (Buffer.member x) := by
    rw [buffersRead, memberEvents, filterMap_map, List.map_map]
    exact congrFun (filterMap_eq_map (f := Buffer.member x ∘ Prod.snd)) _
  have hidx : (l.zipIdx.map Prod.snd).Nodup := by
    rw [zipIdx_map_snd]
    exact nodup_range'
  rw [hmap]
  exact (hidx.sublist (filter_sublist.map _)).map fun i j hij => (Buffer.member.inj hij).2

theorem buffersRead_checks (x : String) (l : List (ℕ × ℕ)) :
    buffersRead (memberEvents .check x l) = [] := by
  rw [buffersRead, filterMap_eq_nil_iff]
  intro e he
  obtain ⟨k, p, n, -, rfl⟩ := mem_memberEvents he
  rfl

/-! ### Copying in -/

/-- The room for members with the pointers and lengths `l`. -/
def blockSize (dir : PtrDirection) (l : List (ℕ × ℕ)) : ℕ :=
  (l.map fun y => headerSize dir + need y.1 y.2).sum

/-- The accesses for the copy of the parameter `x`; `l` are pointers and lengths of its members. -/
def CloneEvent (s : State) (x : String) (dir : PtrDirection) (l : List (ℕ × ℕ)) : Event → Prop
  | .alloc (.param y) n => y = x ∧ n = s.len x
  | .alloc (.block y) n => y = x ∧ n = blockSize dir l
  | .read (.param y) p n => y = x ∧ p = ptrOf (s.tmp x) ∧ n = s.len x
  | .read (.member y k) p n => y = x ∧ l[k]? = some (p, n)
  | .check (.member y k) p n => y = x ∧ l[k]? = some (p, n)
  | _ => False

/-- The lengths of the members of structures, in order. -/
def memberLens (M : Machine) (sd : { sd // sd ∈ M.env.structs }) (es : List (String → ℤ)) : List ℕ :=
  es.flatMap fun e => sd.1.members.attach.map fun m => (layoutOf M sd).len e m

/-- What a copy that succeeds hands over: the lengths are those of the copied structures, and they
have passed their checks. -/
def Sized (M : Machine) (ty : AType) (l : List (ℕ × ℕ)) (es : List (String → ℤ)) : Prop :=
  ∀ sd, deepStruct M ty = some sd →
    l.map Prod.snd = memberLens M sd es ∧
      ∀ e ∈ es, ∀ m ∈ sd.1.members.attach, (layoutOf M sd).lenOk e m = true

theorem sized_nil (M : Machine) (ty : AType) : Sized M ty [] [] :=
  fun _ _ => ⟨rfl, nofun⟩

theorem sized_of_nil (M : Machine) (ty : AType) {es : List (String → ℤ)} (h : es = []) :
    Sized M ty [] es :=
  h ▸ sized_nil M ty

section Clone

variable {M : Machine} {h : Host} {x : String} {ty : AType} {attr : PtrAttr} {ary : Bool} {s : State}

/-- The pointers and lengths of the members of structures. -/
abbrev rangesOf (sd : { sd // sd ∈ M.env.structs }) (es : List (String → ℤ)) : List (ℕ × ℕ) :=
  pairs (layoutOf M sd) sd.1.members.attach es

theorem map_snd_pairs (sd : { sd // sd ∈ M.env.structs }) (es : List (String → ℤ)) :
    (rangesOf sd es).map Prod.snd = memberLens M sd es := by
  rw [rangesOf, pairs, memberLens, map_flatMap]
  refine flatMap_congr fun e _ => ?_
  rw [List.map_map]
  rfl

variable {es es' : List (String → ℤ)} {sd : { sd // sd ∈ M.env.structs }}

/-- Structures with the same lengths, member by member. -/
theorem memberLens_congr
    (hsame : List.Forall₂ (fun e e' => ∀ m, (layoutOf M sd).len e' m = (layoutOf M sd).len e m ∧
      (layoutOf M sd).lenOk e' m = (layoutOf M sd).lenOk e m) es es') :
    memberLens M sd es = memberLens M sd es' := by
  induction hsame with
  | nil => rfl
  | cons he _ ih =>
    rw [memberLens, memberLens, flatMap_cons, flatMap_cons]
    congr 1
    exact map_congr_left fun m _ => (he m).1.symm

theorem lenOk_of_same {ms : List { m : Member // m ∈ sd.1.members }}
    (hsame : List.Forall₂ (fun e e' => ∀ m, (layoutOf M sd).len e' m = (layoutOf M sd).len e m ∧
      (layoutOf M sd).lenOk e' m = (layoutOf M sd).lenOk e m) es es')
    (hok : ∀ e ∈ es, ∀ m ∈ ms, (layoutOf M sd).lenOk e m = true) :
    ∀ e ∈ es', ∀ m ∈ ms, (layoutOf M sd).lenOk e m = true := by
  induction hsame with
  | nil => exact nofun
  | cons he _ ih =>
    rw [forall_mem_cons] at hok ⊢
    exact ⟨fun m hm => (he m).2.trans (hok.1 m hm), ih hok.2⟩

/-- What a copy with the accesses `evs` does. -/
structure Clones (M : Machine) (x : String) (ty : AType) (dir : PtrDirection) (s : State)
    (r : State × Option Status) (evs : List Event) (l : List (ℕ × ℕ)) : Prop where
  kept : Kept s r.1 evs
  events : ∀ e ∈ evs, CloneEvent s x dir l e
  nodup : (buffersRead evs).Nodup
  inn : ∀ y, y ≠ x → r.1.inn y = s.inn y
  elems : ∀ y, y ≠ x → r.1.elems y = s.elems y
  sized : r.2 = none → s.elems x = [] → Sized M ty l (r.1.elems x)

theorem deepCopyIn_spec {dir : PtrDirection} (hsd : deepStruct M ty = some sd) :
    ∃ evs, Clones M x ty dir s (deepCopyIn M h x dir sd es s) evs (rangesOf sd es) ∧
      (deepCopyIn M h x dir sd es s).1.inn = s.inn ∧ ∀ p n, Event.read (.param x) p n ∉ evs := by
  -- the accesses of the two loops
  have hall : ∀ size, calculateElems (layoutOf M sd) M.encl dir sd.1.members.attach es 0 = .ok size →
      ∀ e ∈ memberEvents .check x (rangesOf sd es) ++ [.alloc (.block x) size] ++
        memberEvents .read x (rangesOf sd es),
      CloneEvent s x dir (rangesOf sd es) e ∧ ∀ p n, e ≠ .read (.param x) p n := by
    intro size hsize e he
    rw [mem_append, mem_append] at he
    rcases he with (he | he) | he
    · obtain ⟨k, p, n, hk, rfl⟩ := mem_memberEvents he
      exact ⟨⟨rfl, hk⟩, nofun⟩
    · obtain rfl := mem_singleton.mp he
      refine ⟨⟨rfl, ?_⟩, nofun⟩
      rw [(calculateElems_spec (by decide) hsize).1, sum_roomOf, Nat.zero_add, blockSize]
    · obtain ⟨k, p, n, hk, rfl⟩ := mem_memberEvents he
      exact ⟨⟨rfl, hk⟩, nofun⟩
  have hchecks := fun size hsize e he => hall size hsize e (mem_append_left _ he)
  have hnone : ∀ size,
      buffersRead (memberEvents .check x (rangesOf sd es) ++ [.alloc (.block x) size]) = [] := by
    intro size
    rw [buffersRead_append, buffersRead_checks]
    rfl
  have hnodup : ∀ size, (buffersRead (memberEvents .check x (rangesOf sd es) ++
      [.alloc (.block x) size] ++ memberEvents .read x (rangesOf sd es))).Nodup := by
    intro size
    rw [buffersRead_append, hnone, nil_append]
    exact nodup_memberEvents _ _
  simp only [deepCopyIn]
  split
  · exact ⟨[], ⟨Kept.refl s, nofun, nodup_nil, fun _ _ => rfl,
      fun _ _ => rfl, nofun⟩, rfl, fun p n => not_mem_nil⟩
  · rename_i size hsize
    split
    · exact ⟨_, ⟨kept_emit s _, fun e he => (hchecks size hsize e he).1, by rw [hnone]; exact nodup_nil,
        fun _ _ => rfl, fun _ _ => rfl, nofun⟩, rfl,
        fun p n he => (hchecks size hsize _ he).2 p n rfl⟩
    · split
      · exact ⟨_, ⟨(kept_emit s _).trans (kept_emit _ _), fun e he => (hall size hsize e he).1, hnodup size,
          fun _ _ => rfl, fun _ _ => rfl, nofun⟩, rfl,
          fun p n he => (hall size hsize _ he).2 p n rfl⟩
      · rename_i esIn c hcopy
        have hkept : Kept s { (s.emit (memberEvents .check x (rangesOf sd es) ++
            [.alloc (.block x) size])).emit (memberEvents .read x (rangesOf sd es)) with
            time := c.time, elems := update s.elems x esIn } _ :=
          ⟨rfl, rfl, ((kept_emit s _).trans (kept_emit _ _)).trace⟩
        refine ⟨_, ⟨hkept, fun e he => (hall size hsize e he).1, hnodup size, fun _ _ => rfl,
          fun y hy => update_of_ne hy _ _, fun _ _ => ?_⟩, rfl,
          fun p n he => (hall size hsize _ he).2 p n rfl⟩
        show Sized M ty _ (update s.elems x esIn x)
        rw [update_self]
        intro sd' hsd'
        obtain rfl : sd = sd' := Option.some.inj (hsd.symm.trans hsd')
        have hsame := copyElems_same hcopy
        refine ⟨?_, ?_⟩
        · rw [map_snd_pairs]
          exact memberLens_congr hsame
        · have hok := (calculateElems_spec (by decide) hsize).2.2
          exact lenOk_of_same hsame fun e he m hm => (hok e he m hm).1

theorem cloneBuffer_spec :
    ∃ evs l, Clones M x ty attr.direction s (cloneBuffer M h x ty attr s) evs l := by
  have hinn : ∀ y, y ≠ x → update s.inn x true y = s.inn y :=
    fun y hy => update_of_ne hy _ _
  simp only [cloneBuffer]
  split
  · refine ⟨[.alloc (.param x) (s.len x)], [], ⟨⟨rfl, rfl, rfl⟩, fun e he => ?_, nodup_nil, hinn,
      fun _ _ => rfl, fun _ => sized_of_nil M ty⟩⟩
    obtain rfl := mem_singleton.mp he
    exact ⟨rfl, rfl⟩
  · have hfirst : ∀ l, ∀ e ∈ [Event.alloc (.param x) (s.len x),
        .read (.param x) (ptrOf (s.tmp x)) (s.len x)], CloneEvent s x attr.direction l e := by
      intro l e he
      rcases mem_pair.mp he with rfl | rfl
      · exact ⟨rfl, rfl⟩
      · exact ⟨rfl, rfl, rfl⟩
    split
    · rename_i sd hsd
      -- the copy of the array, and then the members of its structures
      have hkept : Kept s
          { s.emit [.alloc (.param x) (s.len x), .read (.param x) (ptrOf (s.tmp x)) (s.len x)] with
            time := s.time + s.len x, inn := update s.inn x true } _ := ⟨rfl, rfl, rfl⟩
      obtain ⟨evs, hc, hinn', hparam⟩ := deepCopyIn_spec hsd
      refine ⟨_, _, ⟨hkept.trans hc.kept, ?_, ?_, ?_, hc.elems, hc.sized⟩⟩
      · intro e he
        rcases mem_append.mp he with he | he
        · exact hfirst _ e he
        · exact hc.events e he
      · rw [buffersRead_append]
        refine List.Nodup.append (nodup_singleton _) hc.nodup ?_
        intro b hb hb'
        obtain rfl := mem_singleton.mp hb
        obtain ⟨p, n, hmem⟩ := mem_buffersRead.mp hb'
        exact hparam p n hmem
      · intro y hy
        rw [hinn']
        exact hinn y hy
    · exact ⟨_, [], ⟨⟨rfl, rfl, rfl⟩, hfirst [], nodup_singleton _, hinn, fun _ _ => rfl,
        fun _ => sized_of_nil M ty⟩⟩

/-- **Copying in.**  What is read for the copy of a parameter is the range of its local copies, and
the ranges of its members, each once. -/
theorem cloneInPtr_spec (M : Machine) (h : Host) (x : String) (ty : AType) (attr : PtrAttr)
    (ary : Bool) (s : State) :
    (∃ evs l, Clones M x ty attr.direction s (cloneInPtr M h x ty attr ary s) evs l) ∧
      ((cloneInPtr M h x ty attr ary s).1.inn x = true →
        s.inn x = true ∨ s.len x ≠ 0 ∧ checkSize M ty attr ary (s.len x) = true) := by
  have hskip : ∀ r : Option Status, Clones M x ty attr.direction s (s, r) [] [] := fun r =>
    ⟨Kept.refl s, nofun, nodup_nil, fun _ _ => rfl,
      fun _ _ => rfl, fun _ => sized_of_nil M ty⟩
  rw [cloneInPtr]
  by_cases hzero : ptrOf (s.tmp x) = 0 ∨ s.len x = 0
  · rw [if_pos hzero]
    exact ⟨⟨_, _, hskip none⟩, .inl⟩
  rw [if_neg hzero]
  by_cases hsize : checkSize M ty attr ary (s.len x) = false
  · rw [if_pos hsize]
    exact ⟨⟨_, _, hskip _⟩, .inl⟩
  rw [if_neg hsize]
  split_ifs with hmalloc
  · refine ⟨⟨_, [], ⟨kept_emit s _, ?_, nodup_nil, fun _ _ => rfl, fun _ _ => rfl,
      nofun⟩⟩, .inl⟩
    intro e he
    obtain rfl := mem_singleton.mp he
    exact ⟨rfl, rfl⟩
  · rw [not_or] at hzero
    exact ⟨cloneBuffer_spec, fun _ => .inr ⟨hzero.2, eq_true_of_ne_false hsize⟩⟩

end Clone

/-! ### Copying back -/

/-- The accesses when the parameter `x` is copied back; `l` are the ranges that its members are
written to. -/
def BackEvent (M : Machine) (attr : PtrAttr) (s : State) (x : String) (l : List (ℕ × ℕ)) : Event → Prop
  | .check (.back y k) p n => y = x ∧ l[k]? = some (p, n)
  | .write (.back y k) p n => y = x ∧ ∃ m, l[k]? = some (p, m) ∧ n ≤ m
  | .write (.param y) p n => y = x ∧ p = ptrOf (s.tmp x) ∧ s.inn x = true ∧
      n = backLength M attr (s.len x) (M.after x)
  | _ => False

section Back

variable {M : Machine} {x : String} {ty : AType} {attr : PtrAttr} {s : State}

theorem mem_backEvents {log : List Returned} (hlog : WritesOk M.encl log) {e : Event}
    (he : e ∈ backEvents x log) :
    BackEvent M attr s x (log.map fun y => (y.pair.ptr, y.pair.len)) e := by
  obtain ⟨⟨⟨entry, source, w⟩, k⟩, hmem, he⟩ := mem_flatMap.mp he
  have hidx := List.mem_zipIdx_iff_getElem?.mp (mem_filter.mp hmem).1
  have hget : (log.map fun y => (y.pair.ptr, y.pair.len))[k]? = some (entry.ptr, entry.len) := by
    rw [List.getElem?_map, hidx]
    rfl
  have hle := (hlog _ (mem_of_getElem? hidx)).1
  rcases mem_pair.mp he with rfl | rfl
  · exact ⟨rfl, hget⟩
  · exact ⟨rfl, _, hget, hle⟩

theorem deepCopyBack_spec (M : Machine) (x : String) (dir : PtrDirection) (ty : AType) (attr : PtrAttr)
    (s : State) :
    ∃ evs l, Kept s (deepCopyBack M x dir ty s) evs ∧ (deepCopyBack M x dir ty s).elems = s.elems ∧
      (deepCopyBack M x dir ty s).inn = s.inn ∧ ∀ e ∈ evs, BackEvent M attr s x l e := by
  unfold deepCopyBack
  split
  · refine ⟨_, _, ⟨rfl, rfl, rfl⟩, rfl, rfl, fun e he => mem_backEvents ?_ he⟩
    exact writesOk_backElems nofun
  · exact ⟨[], [], Kept.refl s, rfl, rfl, nofun⟩

/-- **Copying back.**  What is written is in the range of the local copies, and members are written to
ranges that were checked. -/
theorem copyBack_spec (M : Machine) (x : String) (ty : AType) (attr : PtrAttr) (s : State) :
    ∃ evs l, Kept s (copyBack M x ty attr s) evs ∧ (copyBack M x ty attr s).elems = s.elems ∧
      (copyBack M x ty attr s).inn = s.inn ∧ ∀ e ∈ evs, BackEvent M attr s x l e := by
  rw [copyBack]
  split_ifs with hinn
  · obtain ⟨evs, l, hkept, helems, hin, hevents⟩ := deepCopyBack_spec M x attr.direction ty attr s
    refine ⟨_, l, hkept.trans (kept_emit _ _), helems, hin, fun e he => ?_⟩
    rcases mem_append.mp he with he | he
    · exact hevents e he
    · obtain rfl := mem_singleton.mp he
      exact ⟨rfl, rfl, hinn, rfl⟩
  · exact ⟨[], [], Kept.refl s, rfl, rfl, nofun⟩

/-- A string is not longer than its copy. -/
theorem backLength_le {n : ℕ} {data : List UInt8} {ary : Bool} (hn : n ≠ 0)
    (hsize : checkSize M ty attr ary n = true) : backLength M attr n data ≤ n := by
  rw [backLength]
  split_ifs with hstr hwstr
  · have hidx : (data.take (n - 1)).findIdx (· = 0) ≤ (data.take (n - 1)).length :=
      findIdx_le_length
    rw [length_take] at hidx
    omega
  · unfold checkSize at hsize
    rw [if_neg hstr, if_pos hwstr, decide_eq_true_eq] at hsize
    have hidx : (List.range (n / M.env.sizeof .wchar - 1)).findIdx
        (wideZero (M.env.sizeof .wchar) data) ≤ _ := findIdx_le_length
    rw [length_range] at hidx
    have hdiv := Nat.div_mul_cancel (Nat.dvd_of_mod_eq_zero hsize)
    have hpos : 0 < n / M.env.sizeof .wchar := by
      by_contra hzero
      rw [Nat.eq_zero_of_not_pos hzero, Nat.zero_mul] at hdiv
      exact hn hdiv.symm
    calc _ ≤ n / M.env.sizeof .wchar * M.env.sizeof .wchar := Nat.mul_le_mul_right _ (by omega)
      _ = n := hdiv
  · exact le_rfl

end Back

end Edger8r
