/-
The parts of a trusted bridge after its declarations.

Everything that is checked, copied and passed on is what the local copies say.  The exception is the
trusted function's argument for a `user_check` parameter of a foreign array type: there is no local
copy, and the field of the marshalling structure is read once to compare it with `NULL` and once more
to pass it on.

* `Late` — what holds after the declarations and some copies;
* `Called` — the arguments of the trusted function, and the reads for them;
* `late_checks`, `late_clones`, `late_backs` — the parts before and after the call.
-/
import LinuxSgx.Edger8r.Copies

open CInt List Option

namespace Edger8r

/-! ### Accesses after the declarations -/

/-- An access to the buffer of a parameter is to the range of its local copies; there are no other
accesses than those of the loops to members. -/
def ParamEvent (a : List Stmt) (s₀ : State) : Event → Prop
  | .check (.param x) p n => Stmt.tmp x ∈ a ∧ p = ptrOf (s₀.tmp x) ∧ n = s₀.len x
  | .read (.param x) p n => Stmt.tmp x ∈ a ∧ p = ptrOf (s₀.tmp x) ∧ n = s₀.len x
  | .alloc (.param x) n => n = s₀.len x
  | .write (.param x) p n => Stmt.tmp x ∈ a ∧ p = ptrOf (s₀.tmp x) ∧ n ≤ s₀.len x
  | .check (.block _) _ _ | .read (.block _) _ _ | .write (.block _) _ _ => False
  | .read (.back _ _) _ _ | .write (.member _ _) _ _ => False
  | .alloc (.member _ _) _ | .alloc (.back _ _) _ => False
  | _ => True

/-- The ranges of the members of `x` on the way in are `l`. -/
def OfMember (x : String) (l : List (ℕ × ℕ)) : Event → Prop
  | .check (.member y k) p n | .read (.member y k) p n => y = x → l[k]? = some (p, n)
  | _ => True

/-- The ranges of the members of `x` on the way back are `l`. -/
def OfBack (x : String) (l : List (ℕ × ℕ)) : Event → Prop
  | .check (.back y k) p n => y = x → l[k]? = some (p, n)
  | .write (.back y k) p n => y = x → ∃ m, l[k]? = some (p, m) ∧ n ≤ m
  | _ => True

/-- The parameter that is copied. -/
def Event.cloned? : Event → Option String
  | .check (.member x _) _ _ | .read (.member x _) _ _ | .read (.param x) _ _ => some x
  | .alloc (.block x) _ => some x
  | _ => none

/-- The parameter whose members are copied back. -/
def Event.written? : Event → Option String
  | .check (.back x _) _ _ | .write (.back x _) _ _ => some x
  | _ => none

theorem ofMember_of_ne {x : String} {l : List (ℕ × ℕ)} {e : Event} (h : e.cloned? ≠ some x) :
    OfMember x l e := by
  unfold OfMember
  split
  · rintro rfl
    exact absurd rfl h
  · rintro rfl
    exact absurd rfl h
  · trivial

theorem ofBack_of_ne {x : String} {l : List (ℕ × ℕ)} {e : Event} (h : e.written? ≠ some x) :
    OfBack x l e := by
  unfold OfBack
  split
  · rintro rfl
    exact absurd rfl h
  · rintro rfl
    exact absurd rfl h
  · trivial

/-- What holds after the declarations `a`, which have led to `s₀`, and after some copies. -/
structure Late (M : Machine) (fd : FuncDecl) (a : List Stmt) (s₀ : State)
    (cloned written : List String) (s : State) : Prop where
  tmp : s.tmp = s₀.tmp
  len : s.len = s₀.len
  params : ∀ e ∈ s.trace, ParamEvent a s₀ e
  members : ∀ x, ∃ l, ∀ e ∈ s.trace, OfMember x l e
  backs : ∀ x, ∃ l, ∀ e ∈ s.trace, OfBack x l e
  cloned : ∀ e ∈ s.trace, ∀ x, e.cloned? = some x → x ∈ cloned
  written : ∀ e ∈ s.trace, ∀ x, e.written? = some x → x ∈ written
  nodup : (buffersRead s.trace).Nodup
  inn : ∀ ty attr declr, (ParamType.ptPtr ty attr, declr) ∈ fd.plist → s.inn declr.identifier = true →
    s₀.len declr.identifier ≠ 0 ∧
      checkSize M ty attr declr.isArray (s₀.len declr.identifier) = true

section Late

variable {M : Machine} {h : Host} {fd : FuncDecl} {a : List Stmt} {s₀ s s' : State}
  {cloned written : List String}

theorem clone_events {x : String} {dir : PtrDirection} {l : List (ℕ × ℕ)} {e : Event}
    (htmp : Stmt.tmp x ∈ a) (heq : s.tmp = s₀.tmp) (hlen : s.len = s₀.len)
    (he : CloneEvent s x dir l e) :
    ParamEvent a s₀ e ∧ OfMember x l e ∧ e.written? = none ∧ (∀ y, e.cloned? = some y → y = x) := by
  unfold CloneEvent at he
  split at he
  · obtain ⟨rfl, rfl⟩ := he
    exact ⟨congrFun hlen _, trivial, rfl, nofun⟩
  · obtain ⟨rfl, -⟩ := he
    exact ⟨trivial, trivial, rfl, fun y hy => (some.inj hy).symm⟩
  · obtain ⟨rfl, rfl, rfl⟩ := he
    exact ⟨⟨htmp, by rw [heq], by rw [hlen]⟩, trivial, rfl, fun y hy => (some.inj hy).symm⟩
  · obtain ⟨rfl, hk⟩ := he
    exact ⟨trivial, fun _ => hk, rfl, fun y hy => (some.inj hy).symm⟩
  · obtain ⟨rfl, hk⟩ := he
    exact ⟨trivial, fun _ => hk, rfl, fun y hy => (some.inj hy).symm⟩
  · exact he.elim

theorem cloned_of_source {e : Event} {b : Buffer} {a : List Stmt} (hp : ParamEvent a s₀ e)
    (h : e.source? = some b) : ∃ x, e.cloned? = some x ∧ (b = .param x ∨ ∃ k, b = .member x k) := by
  cases e with
  | read b' p n =>
    cases h
    cases b with
    | param x => exact ⟨x, rfl, .inl rfl⟩
    | member x k => exact ⟨x, rfl, .inr ⟨k, rfl⟩⟩
    | back | block => exact hp.elim
  | readField | check | alloc | call | write => cases h

variable {evs : List Event}

/-- Accesses to further parameters, the ranges `l` of whose members are not mentioned before. -/
theorem ranges_append {name : Event → Option String} {Of : String → List (ℕ × ℕ) → Event → Prop}
    (hne : ∀ {x l e}, name e ≠ some x → Of x l e) {old : List Event} {seen new : List String}
    {l : List (ℕ × ℕ)} (hold : ∀ x, ∃ l, ∀ e ∈ old, Of x l e)
    (hseen : ∀ e ∈ old, ∀ x, name e = some x → x ∈ seen)
    (hevs : ∀ e ∈ evs, ∀ x, name e = some x → x ∈ new ∧ Of x l e) (hnew : ∀ x ∈ new, x ∉ seen) :
    (∀ x, ∃ l, ∀ e ∈ old ++ evs, Of x l e) ∧
      ∀ e ∈ old ++ evs, ∀ x, name e = some x → x ∈ new ++ seen := by
  refine ⟨fun x => ?_, fun e he x hx => mem_append.mpr ?_⟩
  · by_cases hx : x ∈ new
    · refine ⟨l, fun e he => ?_⟩
      by_cases hname : name e = some x
      · rcases mem_append.mp he with he | he
        · exact absurd (hseen e he x hname) (hnew x hx)
        · exact (hevs e he x hname).2
      · exact hne hname
    · obtain ⟨l', hl'⟩ := hold x
      refine ⟨l', fun e he => (mem_append.mp he).elim (hl' e) fun he => hne fun hname => ?_⟩
      exact hx (hevs e he x hname).1
  · exact (mem_append.mp he).symm.imp (fun he => (hevs e he x hx).1) fun he => hseen e he x hx

/-- Further accesses: the parameters `c` are copied and `w` copied back, which were not before. -/
theorem Late.extend (hl : Late M fd a s₀ cloned written s) (hk : Kept s s' evs) {c w : List String}
    {l : List (ℕ × ℕ)}
    (hevs : ∀ e ∈ evs, ParamEvent a s₀ e ∧ (∀ x, e.cloned? = some x → x ∈ c ∧ OfMember x l e) ∧
      ∀ x, e.written? = some x → x ∈ w ∧ OfBack x l e) (hc : ∀ x ∈ c, x ∉ cloned)
    (hw : ∀ x ∈ w, x ∉ written) (hnodup : (buffersRead evs).Nodup)
    (hinn : ∀ ty attr declr, (ParamType.ptPtr ty attr, declr) ∈ fd.plist →
      s'.inn declr.identifier = true → s₀.len declr.identifier ≠ 0 ∧
        checkSize M ty attr declr.isArray (s₀.len declr.identifier) = true) :
    Late M fd a s₀ (c ++ cloned) (w ++ written) s' := by
  obtain ⟨hmembers, hcloned⟩ := ranges_append ofMember_of_ne hl.members hl.cloned
    (fun e he => (hevs e he).2.1) hc
  obtain ⟨hbacks, hwritten⟩ := ranges_append ofBack_of_ne hl.backs hl.written
    (fun e he => (hevs e he).2.2) hw
  rw [← hk.trace] at hmembers hcloned hbacks hwritten
  refine ⟨hk.tmp.trans hl.tmp, hk.len.trans hl.len, fun e he => ?_, hmembers, hbacks, hcloned,
    hwritten, ?_, hinn⟩
  · rw [hk.trace] at he
    exact (mem_append.mp he).elim (hl.params e) fun he => (hevs e he).1
  · rw [hk.trace, buffersRead_append]
    refine List.Nodup.append hl.nodup hnodup ?_
    intro b hb hb'
    obtain ⟨e, he, hsource⟩ := mem_filterMap.mp hb
    obtain ⟨e', he', hsource'⟩ := mem_filterMap.mp hb'
    obtain ⟨x, hx, hbx⟩ := cloned_of_source (hl.params e he) hsource
    obtain ⟨x', hx', hbx'⟩ := cloned_of_source (hevs e' he').1 hsource'
    have hsame : x = x' := by
      rcases hbx with rfl | ⟨k, rfl⟩
      · rcases hbx' with heq | ⟨k', heq⟩
        · exact Buffer.param.inj heq
        · cases heq
      · rcases hbx' with heq | ⟨k', heq⟩
        · cases heq
        · exact (Buffer.member.inj heq).1
    exact hc x' ((hevs e' he').2.1 x' hx').1 (hsame ▸ hl.cloned e he x hx)

/-- Accesses that are not copies. -/
theorem Late.plain (hl : Late M fd a s₀ cloned written s) (hk : Kept s s' evs)
    (hinn : s'.inn = s.inn)
    (hevs : ∀ e ∈ evs, ParamEvent a s₀ e ∧ e.cloned? = none ∧ e.written? = none ∧ e.source? = none) :
    Late M fd a s₀ cloned written s' := by
  have hnone : buffersRead evs = [] := filterMap_eq_nil_iff.mpr fun e he => (hevs e he).2.2.2
  refine hl.extend hk (c := []) (w := []) (l := []) (fun e he => ⟨(hevs e he).1, ?_, ?_⟩) nofun nofun
    (hnone ▸ nodup_nil) (hinn ▸ hl.inn)
  · rw [(hevs e he).2.1]
    exact nofun
  · rw [(hevs e he).2.2.1]
    exact nofun

/-- There are only reads of fields among the declarations. -/
theorem Declared.late (hd : Declared M fd.plist a s₀) : Late M fd a s₀ [] [] s₀ := by
  have hstart : Late M fd a s₀ [] [] { s₀ with trace := [] } := by
    refine ⟨rfl, rfl, nofun, fun _ => ⟨[], nofun⟩, fun _ => ⟨[], nofun⟩, nofun, nofun, nodup_nil, ?_⟩
    intro ty attr declr _ hinn
    rw [hd.inn] at hinn
    cases hinn
  have hkept : Kept { s₀ with trace := [] } s₀ s₀.trace := ⟨rfl, rfl, rfl⟩
  refine hstart.plain hkept rfl fun e he => ?_
  obtain ⟨f, v, rfl⟩ := hd.reads e he
  exact ⟨trivial, rfl, rfl, rfl⟩

/-- The copy of a parameter that was not copied before. -/
theorem Late.clone (hl : Late M fd a s₀ cloned written s) {ty : AType} {attr : PtrAttr}
    {declr : Declarator} (hfd : fd.Accepted M.env)
    (hpd : (ParamType.ptPtr ty attr, declr) ∈ fd.plist) (htmp : Stmt.tmp declr.identifier ∈ a)
    (hnew : declr.identifier ∉ cloned) :
    Late M fd a s₀ (declr.identifier :: cloned) written
      (cloneInPtr M h declr.identifier ty attr declr.isArray s).1 := by
  obtain ⟨⟨evs, l, hc⟩, hinn⟩ := cloneInPtr_spec M h declr.identifier ty attr declr.isArray s
  refine hl.extend hc.kept (c := [declr.identifier]) (w := []) (l := l) (fun e he => ?_)
    (fun x hx => mem_singleton.mp hx ▸ hnew) nofun hc.nodup fun ty' attr' declr' hp hin => ?_
  · obtain ⟨hparam, hmember, hwritten, hname⟩ := clone_events htmp hl.tmp hl.len (hc.events e he)
    refine ⟨hparam, fun x hx => ?_, ?_⟩
    · rw [hname x hx]
      exact ⟨mem_singleton_self _, hmember⟩
    · rw [hwritten]
      exact nofun
  · by_cases hx : declr'.identifier = declr.identifier
    · have heq := inj_on_of_nodup_map hfd.nodup hp hpd hx
      cases heq
      rcases hinn hin with hin | ⟨hn, hsize⟩
      · exact hl.inn ty attr declr hpd hin
      · rw [hl.len] at hn hsize
        exact ⟨hn, hsize⟩
    · rw [hc.inn _ hx] at hin
      exact hl.inn ty' attr' declr' hp hin

/-- A parameter whose members were not copied back before is copied back. -/
theorem Late.back (hl : Late M fd a s₀ cloned written s) {ty : AType} {attr : PtrAttr}
    {declr : Declarator} (hpd : (ParamType.ptPtr ty attr, declr) ∈ fd.plist)
    (htmp : Stmt.tmp declr.identifier ∈ a) (hnew : declr.identifier ∉ written) :
    Late M fd a s₀ cloned (declr.identifier :: written) (copyBack M declr.identifier ty attr s) := by
  obtain ⟨evs, l, hk, -, hinn, hevents⟩ := copyBack_spec M declr.identifier ty attr s
  have hevs : ∀ e ∈ evs, ParamEvent a s₀ e ∧ OfBack declr.identifier l e ∧ e.cloned? = none ∧
      e.source? = none ∧ ∀ y, e.written? = some y → y = declr.identifier := by
    intro e he
    have hback := hevents e he
    unfold BackEvent at hback
    split at hback
    · obtain ⟨rfl, hget⟩ := hback
      exact ⟨trivial, fun _ => hget, rfl, rfl, fun y hy => (some.inj hy).symm⟩
    · obtain ⟨rfl, hget⟩ := hback
      exact ⟨trivial, fun _ => hget, rfl, rfl, fun y hy => (some.inj hy).symm⟩
    · obtain ⟨rfl, rfl, hin, rfl⟩ := hback
      obtain ⟨hn, hsize⟩ := hl.inn ty attr declr hpd hin
      refine ⟨⟨htmp, by rw [hl.tmp], ?_⟩, trivial, rfl, rfl, nofun⟩
      rw [hl.len]
      exact backLength_le hn hsize
    · exact hback.elim
  have hnone : buffersRead evs = [] := filterMap_eq_nil_iff.mpr fun e he => (hevs e he).2.2.2.1
  refine hl.extend hk (c := []) (w := [declr.identifier]) (l := l) (fun e he => ?_) nofun
    (fun x hx => mem_singleton.mp hx ▸ hnew) (hnone ▸ nodup_nil) (hinn ▸ hl.inn)
  obtain ⟨hparam, hback, hcloned, -, hname⟩ := hevs e he
  refine ⟨hparam, ?_, fun x hx => ?_⟩
  · rw [hcloned]
    exact nofun
  · rw [hname x hx]
    exact ⟨mem_singleton_self _, hback⟩

end Late

/-! ### Arguments -/

/-- A `user_check` parameter of a foreign array type. -/
def races (pd : PDecl) : Bool := isForeignArray pd.1 && !ptrHasDirection pd.1

section Arguments

variable {M : Machine} {h : Host} {fd : FuncDecl} {a : List Stmt} {s s' : State}

variable {pd : PDecl}

/-- What the trusted function gets for a parameter. -/
theorem FuncDecl.Accepted.arg_cases (hfd : fd.Accepted M.env) (hpd : pd ∈ fd.plist) :
    (ptrHasDirection pd.1 = true ∧ races pd = false ∧
      (mkParmNameTbridge fd.cache pd = .inn pd.2.identifier ∨
        mkParmNameTbridge fd.cache pd = .deref (.inn pd.2.identifier))) ∨
    (ptrHasDirection pd.1 = false ∧ races pd = false ∧
      Stmt.tmp pd.2.identifier ∈ fd.locals ∧
      mkParmNameTbridge fd.cache pd = .tmp pd.2.identifier) ∨
    (ptrHasDirection pd.1 = false ∧ races pd = false ∧
      Stmt.tmp pd.2.identifier ∉ fd.locals ∧
      mkParmNameTbridge fd.cache pd = .field pd.2.identifier) ∨
    (ptrHasDirection pd.1 = false ∧ races pd = true ∧
      Stmt.tmp pd.2.identifier ∉ fd.locals ∧
      mkParmNameTbridge fd.cache pd = .deref (.field pd.2.identifier)) := by
  obtain ⟨-, hc⟩ := hfd.cached
  -- without a place in the cache, only a pointer has a local copy
  have htmp : pd.2.identifier ∉ fd.cache → hasTmp pd = false →
      Stmt.tmp pd.2.identifier ∉ fd.locals := by
    intro hcache hno hmem
    rcases hc.of_tmp _ hmem with hin | ⟨pd', hpd', hyes, heq⟩
    · exact hcache hin
    · obtain rfl := inj_on_of_nodup_map hfd.nodup hpd hpd' heq
      rw [hno] at hyes
      cases hyes
  rcases pd with ⟨pt, declr⟩
  cases pt with
  | ptVal ty =>
    by_cases hcache : declr.identifier ∈ fd.cache
    · refine .inr (.inl ⟨rfl, rfl, hc.tmp _ hcache, ?_⟩)
      simp only [mkParmNameTbridge, tbridgeMkParmNameExt, hcache, true_or, if_true]
      rfl
    · refine .inr (.inr (.inl ⟨rfl, rfl, htmp hcache rfl, ?_⟩))
      simp only [mkParmNameTbridge, tbridgeMkParmNameExt, hcache, isPtr, false_or, Bool.false_eq_true,
        false_and, if_false]
      rfl
  | ptPtr ty attr =>
    by_cases hary : isForeignArray (.ptPtr ty attr) = true
    · have hcache : declr.identifier ∉ fd.cache := fun hin =>
        hfd.not_intName hpd (hc.ints _ hin)
      have hname : mkParmNameTbridge fd.cache (.ptPtr ty attr, declr) =
          .deref (if attr.direction = .ptrNoDirection then .field declr.identifier
            else .inn declr.identifier) := by
        simp only [mkParmNameTbridge, addForeignArrayPtrref, tbridgeMkParmNameExt, hcache, hary,
          not_true, and_false, or_false, if_false, if_true]
        rfl
      by_cases hdir : attr.direction = .ptrNoDirection
      · have hno : ptrHasDirection (.ptPtr ty attr) = false := by
          rw [ptrHasDirection, hdir]
          rfl
        refine .inr (.inr (.inr ⟨hno, ?_, htmp hcache ?_, ?_⟩))
        · rw [races, hary, hno]
          rfl
        · rw [hasTmp, hary, hno]
          rfl
        · rw [hname, if_pos hdir]
      · have hyes : ptrHasDirection (.ptPtr ty attr) = true := by
          exact decide_eq_true hdir
        refine .inl ⟨hyes, ?_, .inr ?_⟩
        · rw [races, hyes, Bool.not_true, Bool.and_false]
        · rw [hname, if_neg hdir]
    · have hname : mkParmNameTbridge fd.cache (.ptPtr ty attr, declr) =
          if ptrHasDirection (.ptPtr ty attr) = true then .inn declr.identifier
          else .tmp declr.identifier := by
        simp only [mkParmNameTbridge, addForeignArrayPtrref, tbridgeMkParmNameExt, hary, isPtr,
          Bool.false_eq_true, not_false_eq_true, and_self, or_true, if_true, if_false]
      have hrace : races (.ptPtr ty attr, declr) = false := by
        rw [races, Bool.eq_false_of_not_eq_true hary, Bool.false_and]
      by_cases hdir : ptrHasDirection (.ptPtr ty attr) = true
      · exact .inl ⟨hdir, hrace, .inl (by rw [hname, if_pos hdir])⟩
      · refine .inr (.inl ⟨Bool.eq_false_of_not_eq_true hdir, hrace, ?_, by
          rw [hname, if_neg hdir]⟩)
        refine hfd.tmp_mem hpd ?_
        rw [hasTmp, Bool.eq_false_of_not_eq_true hary]
        rfl

theorem evalArg_deref_inn (x : String) (s : State) :
    evalArg h (.deref (.inn x)) s = (.copy x (s.elems x), s) := by
  by_cases hnull : Passed.isNull s (.copy x (s.elems x)) = true
  · exact if_pos hnull
  · exact if_neg hnull

/-- `NULL` is read once. -/
theorem evalArg_deref_null {x : String} (hnull : ptrOf (h.field s.time (.parm x)) = 0) :
    evalArg h (.deref (.field x)) s = evalArg h (.field x) s :=
  if_pos (decide_eq_true hnull)

/-- Another pointer is read twice. -/
theorem evalArg_deref_ptr {x : String} (hnull : ptrOf (h.field s.time (.parm x)) ≠ 0) :
    evalArg h (.deref (.field x)) s = evalArg h (.field x) (evalArg h (.field x) s).2 :=
  if_neg fun hdec => hnull (of_decide_eq_true hdec)

/-- The value that the trusted function gets for a parameter was read for it, or it is the local
copy. -/
def Handed (a : List Stmt) (s : State) (evs : List Event) (pd : PDecl) (r : Passed) : Prop :=
  (ptrHasDirection pd.1 = true ∧ r = .copy pd.2.identifier (s.elems pd.2.identifier)) ∨
    (ptrHasDirection pd.1 = false ∧ ∃ v, r = .value v ∧
      (Event.readField (.parm pd.2.identifier) v ∈ evs ∨
        Stmt.tmp pd.2.identifier ∈ a ∧ v = s.tmp pd.2.identifier))

theorem Handed.mono {evs evs' : List Event} {r : Passed} (hsub : evs ⊆ evs')
    (hh : Handed a s evs pd r) : Handed a s evs' pd r := by
  rcases hh with hcopy | ⟨hdir, v, hr, hv⟩
  · exact .inl hcopy
  · exact .inr ⟨hdir, v, hr, hv.imp_left fun hmem => hsub hmem⟩

/-- Copies, and values with a local copy, are handed over as they are. -/
def FromLocals (a : List Stmt) (s : State) (pd : PDecl) (r : Passed) : Prop :=
  (ptrHasDirection pd.1 = true → r = .copy pd.2.identifier (s.elems pd.2.identifier)) ∧
    (ptrHasDirection pd.1 = false → Stmt.tmp pd.2.identifier ∈ a → r = .value (s.tmp pd.2.identifier))

/-- The arguments of a list of parameters, read with the accesses `evs`.  With one read for each of
the `user_check` arrays, all are handed over as they were read; and if there is one read for each
field, these arrays are `NULL`. -/
structure Called (a : List Stmt) (s s' : State) (l : List PDecl) (r : List Passed)
    (evs : List Event) : Prop where
  kept : Kept s s' evs
  inn : s'.inn = s.inn
  elems : s'.elems = s.elems
  reads : ∀ e ∈ evs, ∃ pd ∈ l, ∃ v, e = Event.readField (.parm pd.2.identifier) v ∧
    Stmt.tmp pd.2.identifier ∉ a
  once : (∀ pd ∈ l, races pd = true → ∀ v, Event.readField (.parm pd.2.identifier) v ∈ evs →
    ptrOf v = 0) → (fieldsRead evs).Nodup ∧ List.Forall₂ (Handed a s evs) l r
  null : (fieldsRead evs).Nodup → ∀ pd ∈ l, races pd = true → ∀ v,
    Event.readField (.parm pd.2.identifier) v ∈ evs → ptrOf v = 0
  locals : List.Forall₂ (FromLocals a s) l r

/-- One argument. -/
theorem FuncDecl.Accepted.called_one (hfd : fd.Accepted M.env) (hpd : pd ∈ fd.plist) (s : State) :
    ∃ evs, Called fd.locals s
      (evalArg h (mkParmNameTbridge fd.cache pd) s).2 [pd]
      [(evalArg h (mkParmNameTbridge fd.cache pd) s).1] evs := by
  -- no field is read
  have hquiet : ∀ r, Handed fd.locals s [] pd r →
      FromLocals fd.locals s pd r →
      Called fd.locals s s [pd] [r] [] := by
    intro r hr hlocal
    refine ⟨Kept.refl s, rfl, rfl, nofun,
      fun _ => ⟨nodup_nil, .cons hr .nil⟩, fun _ pd' _ _ v hv =>
        absurd hv not_mem_nil, .cons hlocal .nil⟩
  -- a field is read for a parameter without a local copy
  have hno : ∀ r, ptrHasDirection pd.1 = false →
      Stmt.tmp pd.2.identifier ∉ fd.locals →
      List.Forall₂ (FromLocals fd.locals s) [pd] [r] := by
    intro r hdir htmp
    refine .cons ⟨fun hyes => ?_, fun _ hmem => absurd hmem htmp⟩ .nil
    rw [hdir] at hyes
    cases hyes
  have hread : ptrHasDirection pd.1 = false →
      Stmt.tmp pd.2.identifier ∉ fd.locals →
      (races pd = true → ptrOf (h.field s.time (.parm pd.2.identifier)) = 0) →
      ∃ evs, Called fd.locals s (evalArg h (.field pd.2.identifier) s).2 [pd]
        [(evalArg h (.field pd.2.identifier) s).1] evs := by
    intro hdir htmp hnull
    refine ⟨[.readField (.parm pd.2.identifier) (h.field s.time (.parm pd.2.identifier))],
      ⟨rfl, rfl, rfl⟩, rfl, rfl, ?_, ?_, ?_, hno _ hdir htmp⟩
    · intro e he
      exact ⟨pd, mem_singleton_self _, _, mem_singleton.mp he, htmp⟩
    · exact fun _ => ⟨nodup_singleton _, .cons
        (.inr ⟨hdir, _, rfl, .inl (mem_singleton_self _)⟩) .nil⟩
    · intro _ pd' hpd' hrace v hv
      cases mem_singleton.mp hpd'
      cases mem_singleton.mp hv
      exact hnull hrace
  rcases hfd.arg_cases hpd with ⟨hdir, hrace, harg⟩ | ⟨hdir, hrace, htmp, harg⟩ |
    ⟨hdir, hrace, htmp, harg⟩ | ⟨hdir, hrace, htmp, harg⟩
  · have hlocal : FromLocals fd.locals s pd
        (.copy pd.2.identifier (s.elems pd.2.identifier)) := by
      refine ⟨fun _ => rfl, fun hno => ?_⟩
      rw [hdir] at hno
      cases hno
    refine ⟨[], ?_⟩
    rcases harg with harg | harg
    · rw [harg]
      exact hquiet _ (.inl ⟨hdir, rfl⟩) hlocal
    · rw [harg, evalArg_deref_inn]
      exact hquiet _ (Or.inl ⟨hdir, rfl⟩) hlocal
  · have hlocal : FromLocals fd.locals s pd
        (.value (s.tmp pd.2.identifier)) := by
      refine ⟨fun hyes => ?_, fun _ _ => rfl⟩
      rw [hdir] at hyes
      cases hyes
    refine ⟨[], ?_⟩
    rw [harg]
    exact hquiet _ (Or.inr ⟨hdir, _, rfl, Or.inr ⟨htmp, rfl⟩⟩) hlocal
  · rw [harg]
    refine hread hdir htmp fun hyes => ?_
    rw [hrace] at hyes
    cases hyes
  · -- the field is compared with `NULL`, and read again if it is another pointer
    rw [harg]
    by_cases hnull : ptrOf (h.field s.time (.parm pd.2.identifier)) = 0
    · rw [evalArg_deref_null hnull]
      exact hread hdir htmp fun _ => hnull
    · rw [evalArg_deref_ptr hnull]
      refine ⟨[.readField (.parm pd.2.identifier) (h.field s.time (.parm pd.2.identifier)),
        .readField (.parm pd.2.identifier) (h.field (s.time + 1) (.parm pd.2.identifier))],
        ⟨rfl, rfl, ?_⟩, rfl, rfl, ?_, ?_, ?_, hno _ hdir htmp⟩
      · show (s.trace ++ [_]) ++ [_] = _
        rw [List.append_assoc]
        rfl
      · intro e he
        rcases mem_pair.mp he with rfl | rfl
        · exact ⟨pd, mem_singleton_self _, _, rfl, htmp⟩
        · exact ⟨pd, mem_singleton_self _, _, rfl, htmp⟩
      · intro hzero
        exact absurd (hzero pd (mem_singleton_self _) hrace _ mem_cons_self) hnull
      · intro hnodup
        exact absurd mem_cons_self (nodup_cons.mp hnodup).1

/-- All arguments. -/
theorem FuncDecl.Accepted.called (hfd : fd.Accepted M.env) {l : List PDecl} (hl : l ⊆ fd.plist)
    (hnodup : (l.map fun pd => pd.2.identifier).Nodup) (s : State) :
    ∃ evs, Called fd.locals s
      (evalArgs h (l.map (mkParmNameTbridge fd.cache)) s).2 l
      (evalArgs h (l.map (mkParmNameTbridge fd.cache)) s).1 evs := by
  induction l generalizing s with
  | nil =>
    exact ⟨[], Kept.refl s, rfl, rfl, fun e he => absurd he not_mem_nil,
      fun _ => ⟨nodup_nil, List.Forall₂.nil⟩, fun _ pd hpd => absurd hpd not_mem_nil,
      List.Forall₂.nil⟩
  | cons pd l ih =>
    obtain ⟨hne, hnodup⟩ := nodup_cons.mp hnodup
    obtain ⟨evs₁, h₁⟩ := hfd.called_one (h := h) (hl mem_cons_self) s
    obtain ⟨evs₂, h₂⟩ := ih (List.Subset.trans (subset_cons_self _ _) hl) hnodup
      (evalArg h (mkParmNameTbridge fd.cache pd) s).2
    -- the first argument reads the field of its own parameter
    have hfirst : ∀ e ∈ evs₁, ∃ v, e = Event.readField (.parm pd.2.identifier) v := by
      intro e he
      obtain ⟨pd', hpd', v, rfl, -⟩ := h₁.reads e he
      rw [mem_singleton.mp hpd']
      exact ⟨v, rfl⟩
    have hrest : ∀ v, Event.readField (.parm pd.2.identifier) v ∉ evs₂ := by
      intro v hv
      obtain ⟨pd', hpd', v', heq, -⟩ := h₂.reads _ hv
      obtain ⟨hname, -⟩ := Event.readField.inj heq
      exact hne (List.mem_map.mpr ⟨pd', hpd', (Field.parm.inj hname).symm⟩)
    have hother : ∀ pd' ∈ l, ∀ v, Event.readField (.parm pd'.2.identifier) v ∉ evs₁ := by
      intro pd' hpd' v hv
      obtain ⟨v', heq⟩ := hfirst _ hv
      obtain ⟨hname, -⟩ := Event.readField.inj heq
      exact hne (List.mem_map.mpr ⟨pd', hpd', Field.parm.inj hname⟩)
    refine ⟨evs₁ ++ evs₂, h₁.kept.trans h₂.kept, h₂.inn.trans h₁.inn, h₂.elems.trans h₁.elems,
      ?_, ?_, ?_, ?_⟩
    · intro e he
      rcases mem_append.mp he with he | he
      · obtain ⟨pd', hpd', v, heq, htmp⟩ := h₁.reads e he
        rw [mem_singleton.mp hpd'] at heq htmp
        exact ⟨pd, mem_cons_self, v, heq, htmp⟩
      · obtain ⟨pd', hpd', v, heq, htmp⟩ := h₂.reads e he
        exact ⟨pd', mem_cons_of_mem _ hpd', v, heq, htmp⟩
    · intro hnull
      obtain ⟨hnodup₁, hhanded₁⟩ := h₁.once (by
        intro pd' hpd' hrace v hv
        rw [mem_singleton.mp hpd'] at hrace hv
        exact hnull pd mem_cons_self hrace v (mem_append_left _ hv))
      obtain ⟨hnodup₂, hhanded₂⟩ := h₂.once fun pd' hpd' hrace v hv =>
        hnull pd' (mem_cons_of_mem _ hpd') hrace v (mem_append_right _ hv)
      refine ⟨?_, .cons ?_ ?_⟩
      · rw [fieldsRead_append]
        refine List.Nodup.append hnodup₁ hnodup₂ ?_
        intro f hf hf'
        obtain ⟨v, hv⟩ := mem_fieldsRead.mp hf
        obtain ⟨v', hv'⟩ := mem_fieldsRead.mp hf'
        obtain ⟨w, heq⟩ := hfirst _ hv
        obtain ⟨rfl, -⟩ := Event.readField.inj heq
        exact hrest v' hv'
      · rcases hhanded₁ with _ | ⟨hr, _⟩
        exact hr.mono (subset_append_left _ _)
      · refine hhanded₂.imp fun pd' r hr => ?_
        have hstate : Handed fd.locals s evs₂ pd' r := by
          rw [Handed, h₁.elems, h₁.kept.tmp] at hr
          exact hr
        exact hstate.mono (subset_append_right _ _)
    · intro hfields pd' hpd' hrace v hv
      rw [fieldsRead_append] at hfields
      rcases mem_cons.mp hpd' with rfl | hpd'
      · refine h₁.null hfields.of_append_left pd' (mem_singleton_self _) hrace v ?_
        exact (mem_append.mp hv).resolve_right (hrest v)
      · refine h₂.null hfields.of_append_right pd' hpd' hrace v ?_
        exact (mem_append.mp hv).resolve_left (hother pd' hpd' v)
    · rcases h₁.locals with _ | ⟨hr, _⟩
      refine .cons hr (h₂.locals.imp fun pd' r hr' => ?_)
      rw [FromLocals, h₁.elems, h₁.kept.tmp] at hr'
      exact hr'

end Arguments

/-! ### The parts of a bridge -/

/-- Neither a field is read nor the trusted function called. -/
def Event.Quiet (e : Event) : Prop := e.field? = none ∧ ∀ args, e ≠ .call args

section Parts

variable {M : Machine} {h : Host} {fd : FuncDecl} {a : List Stmt} {s₀ s s' s'' : State}
  {cloned written : List String}

/-- A part of a bridge in which no field is read and the trusted function is not called. -/
def QuietPart (s s' : State) : Prop := ∃ evs, Kept s s' evs ∧ ∀ e ∈ evs, e.Quiet

theorem QuietPart.refl (s : State) : QuietPart s s :=
  ⟨[], Kept.refl s, nofun⟩

/-- Parts with one kind of accesses, one after the other. -/
theorem parts_trans {P : Event → Prop} (h₁ : ∃ evs, Kept s s' evs ∧ ∀ e ∈ evs, P e)
    (h₂ : ∃ evs, Kept s' s'' evs ∧ ∀ e ∈ evs, P e) : ∃ evs, Kept s s'' evs ∧ ∀ e ∈ evs, P e := by
  obtain ⟨evs, hk, hq⟩ := h₁
  obtain ⟨evs', hk', hq'⟩ := h₂
  refine ⟨evs ++ evs', hk.trans hk', fun e he => ?_⟩
  exact (mem_append.mp he).elim (hq e) (hq' e)

theorem QuietPart.trans (h₁ : QuietPart s s') (h₂ : QuietPart s' s'') : QuietPart s s'' :=
  parts_trans h₁ h₂

theorem execAll_cons (st : Stmt) (l : List Stmt) :
    execAll M h fd.plist (st :: l) s =
      if (exec M h fd.plist st s).2 = none then execAll M h fd.plist l (exec M h fd.plist st s).1
      else exec M h fd.plist st s := by
  rw [execAll]
  rcases hexec : exec M h fd.plist st s with ⟨s', _ | e⟩
  · rw [if_pos rfl]
  · rw [if_neg (by exact (some_ne_none e))]

theorem execAll_append (l l' : List Stmt) :
    execAll M h fd.plist (l ++ l') s =
      if (execAll M h fd.plist l s).2 = none then
        execAll M h fd.plist l' (execAll M h fd.plist l s).1
      else execAll M h fd.plist l s := by
  induction l generalizing s with
  | nil => rfl
  | cons st l ih =>
    rw [List.cons_append, execAll_cons, execAll_cons]
    by_cases hok : (exec M h fd.plist st s).2 = none
    · rw [if_pos hok, if_pos hok, ih]
    · rw [if_neg hok, if_neg hok, if_neg hok]

/-- What holds with the parameters `l` left is kept until none is left, or until one fails. -/
theorem execAll_filterMap {f : PDecl → Option Stmt} {I : List PDecl → State → Prop}
    {Q : State × Option Status → Prop} (hend : ∀ {s}, I [] s → Q (s, none))
    (hskip : ∀ {pd l s}, I (pd :: l) s → f pd = none → I l s)
    (hstep : ∀ {pd l s st}, I (pd :: l) s → f pd = some st →
      ((exec M h fd.plist st s).2 = none → I l (exec M h fd.plist st s).1) ∧
        ((exec M h fd.plist st s).2 ≠ none → Q (exec M h fd.plist st s)))
    {l : List PDecl} (hs : I l s) : Q (execAll M h fd.plist (l.filterMap f) s) := by
  induction l generalizing s with
  | nil => exact hend hs
  | cons pd l ih =>
    rcases hpd : f pd with _ | st
    · rw [filterMap_cons_none hpd]
      exact ih (hskip hs hpd)
    · rw [filterMap_cons_some hpd, execAll_cons]
      split_ifs with hok
      · exact ih ((hstep hs hpd).1 hok)
      · exact (hstep hs hpd).2 hok

/-- The checks before the copies. -/
theorem late_checks {l : List Stmt}
    (hl : ∀ st ∈ l, (∃ ty attr, st = .checkOverflow ty attr) ∨ ∃ x, st = .checkPtr x ∧ Stmt.tmp x ∈ a)
    (hs : Late M fd a s₀ cloned written s) :
    Late M fd a s₀ cloned written (execAll M h fd.plist l s).1 ∧
      QuietPart s (execAll M h fd.plist l s).1 ∧ (execAll M h fd.plist l s).1.elems = s.elems := by
  induction l generalizing s with
  | nil => exact ⟨hs, QuietPart.refl s, rfl⟩
  | cons st l ih =>
    rw [forall_mem_cons] at hl
    -- one check
    have hone : Late M fd a s₀ cloned written (exec M h fd.plist st s).1 ∧
        QuietPart s (exec M h fd.plist st s).1 ∧ (exec M h fd.plist st s).1.elems = s.elems := by
      rcases hl.1 with ⟨ty, attr, rfl⟩ | ⟨x, rfl, htmp⟩
      · exact ⟨hs, QuietPart.refl s, rfl⟩
      · rw [exec]
        split_ifs with hnull
        · exact ⟨hs, QuietPart.refl s, rfl⟩
        all_goals
          refine ⟨hs.plain (kept_emit s _) rfl ?_, ⟨_, kept_emit s _, ?_⟩, rfl⟩
          · intro e he
            obtain rfl := mem_singleton.mp he
            exact ⟨⟨htmp, by rw [hs.tmp], by rw [hs.len]⟩, rfl, rfl, rfl⟩
          · intro e he
            obtain rfl := mem_singleton.mp he
            exact ⟨rfl, nofun⟩
    rw [execAll_cons]
    split_ifs
    · obtain ⟨h₁, h₂, h₃⟩ := ih hl.2 hone.1
      exact ⟨h₁, hone.2.1.trans h₂, h₃.trans hone.2.2⟩
    · exact hone

theorem quiet_of_cloneEvent {x : String} {dir : PtrDirection} {l : List (ℕ × ℕ)} {e : Event}
    (he : CloneEvent s x dir l e) : e.Quiet := by
  cases e with
  | readField | call => exact he.elim
  | check | alloc | read | write => exact ⟨rfl, nofun⟩

/-- The bytes that are checked, allocated or read for a copy. -/
def Event.bytes? : Event → Option (Buffer × ℕ)
  | .check (.back _ _) _ _ => none
  | .check b _ n | .alloc b n | .read b _ n => some (b, n)
  | _ => none

theorem quiet_of_backEvent {x : String} {attr : PtrAttr} {l : List (ℕ × ℕ)} {e : Event}
    (he : BackEvent M attr s x l e) : e.Quiet ∧ e.bytes? = none := by
  cases e with
  | readField | call | alloc | read => exact he.elim
  | check b =>
    cases b with
    | back => exact ⟨⟨rfl, nofun⟩, rfl⟩
    | param | member | block => exact he.elim
  | write => exact ⟨⟨rfl, nofun⟩, rfl⟩

/-- A part in which moreover nothing is copied in. -/
def BackPart (s s' : State) : Prop := ∃ evs, Kept s s' evs ∧ ∀ e ∈ evs, e.Quiet ∧ e.bytes? = none

theorem BackPart.quiet (hb : BackPart s s') : QuietPart s s' := by
  obtain ⟨evs, hk, hevs⟩ := hb
  exact ⟨evs, hk, fun e he => (hevs e he).1⟩

section Parameters

variable {ty : AType} {attr : PtrAttr} {declr : Declarator} {l : List PDecl}

theorem hasTmp_of_direction (h : attr.direction ≠ .ptrNoDirection) :
    hasTmp (.ptPtr ty attr, declr) = true := by
  rw [hasTmp, ptrHasDirection, decide_eq_true h, Bool.or_true, Bool.and_true]
  rfl

/-- The other parameters stay new when one is done. -/
theorem not_mem_cons_of_nodup {pd : PDecl} {seen : List String}
    (hnodup : ((pd :: l).map fun pd => pd.2.identifier).Nodup)
    (hnew : ∀ pd' ∈ pd :: l, pd'.2.identifier ∉ seen) :
    ∀ pd' ∈ l, pd'.2.identifier ∉ pd.2.identifier :: seen := by
  intro pd' hpd' hmem
  rcases mem_cons.mp hmem with heq | hmem
  · exact (nodup_cons.mp hnodup).1 (List.mem_map.mpr ⟨pd', hpd', heq⟩)
  · exact hnew pd' (mem_cons_of_mem _ hpd') hmem

end Parameters

section Sized

/-- The room for the members of `x`. -/
def OfBlock (dir : PtrDirection) (x : String) (l : List (ℕ × ℕ)) : Event → Prop
  | .alloc (.block y) n => y = x → n = blockSize dir l
  | _ => True

/-- Everything that was accessed for the members of a parameter is for the structures in its copy. -/
def SizedAll (M : Machine) (fd : FuncDecl) (s : State) : Prop :=
  ∀ ty attr declr, (ParamType.ptPtr ty attr, declr) ∈ fd.plist →
    ∃ l, Sized M ty l (s.elems declr.identifier) ∧
      ∀ e ∈ s.trace, OfMember declr.identifier l e ∧ OfBlock attr.direction declr.identifier l e

variable {x : String} {dir : PtrDirection} {l : List (ℕ × ℕ)} {e : Event} {ty : AType}
  {attr : PtrAttr} {declr : Declarator}

theorem ofBlock_of_ne (hne : e.cloned? ≠ some x) : OfBlock dir x l e := by
  unfold OfBlock
  split
  · rintro rfl
    exact absurd rfl hne
  · trivial

theorem Declared.sizedAll (hd : Declared M fd.plist a s₀) : SizedAll M fd s₀ := by
  intro ty attr declr _
  refine ⟨[], ?_, fun e he => ?_⟩
  · rw [hd.elems]
    exact sized_nil M ty
  · obtain ⟨f, v, rfl⟩ := hd.reads e he
    exact ⟨trivial, trivial⟩

/-- Accesses that are not for members. -/
theorem SizedAll.plain (hs : SizedAll M fd s) {evs : List Event} (hk : Kept s s' evs)
    (helems : s'.elems = s.elems) (hevs : ∀ e ∈ evs, e.cloned? = none) :
    SizedAll M fd s' := by
  intro ty attr declr hpd
  obtain ⟨l, hsized, hevents⟩ := hs ty attr declr hpd
  refine ⟨l, helems ▸ hsized, fun e he => ?_⟩
  rw [hk.trace, mem_append] at he
  rcases he with he | he
  · exact hevents e he
  · have hne : e.cloned? ≠ some declr.identifier := by
      rw [hevs e he]
      exact (some_ne_none _).symm
    exact ⟨ofMember_of_ne hne, ofBlock_of_ne hne⟩

theorem ofBlock_of_cloneEvent (he : CloneEvent s x dir l e) : OfBlock dir x l e := by
  unfold CloneEvent at he
  split at he
  all_goals first
    | exact fun _ => he.2
    | trivial

/-- The copy of a parameter that was not copied before. -/
theorem SizedAll.clone (hsized : SizedAll M fd s) (hfd : fd.Accepted M.env)
    (hpd : (ParamType.ptPtr ty attr, declr) ∈ fd.plist) (htmp : Stmt.tmp declr.identifier ∈ a)
    (hnew : declr.identifier ∉ cloned) (hempty : s.elems declr.identifier = []) (hs : Late M fd a s₀ cloned [] s)
    {r : State × Option Status} {evs : List Event}
    (hc : Clones M declr.identifier ty attr.direction s r evs l) (hgo : r.2 = none) :
    SizedAll M fd r.1 := by
  have hevs := fun e he => clone_events htmp hs.tmp hs.len (hc.events e he)
  intro ty' attr' declr' hpd'
  by_cases hx : declr'.identifier = declr.identifier
  · cases inj_on_of_nodup_map hfd.nodup hpd' hpd hx
    refine ⟨l, hc.sized hgo hempty, fun e he => ?_⟩
    rw [hc.kept.trace, mem_append] at he
    rcases he with he | he
    · -- older accesses are not to members of this parameter
      have hne : e.cloned? ≠ some declr.identifier := fun heq => hnew (hs.cloned e he _ heq)
      exact ⟨ofMember_of_ne hne, ofBlock_of_ne hne⟩
    · exact ⟨(hevs e he).2.1, ofBlock_of_cloneEvent (hc.events e he)⟩
  · obtain ⟨l', hsized', hevents⟩ := hsized ty' attr' declr' hpd'
    refine ⟨l', hc.elems _ hx ▸ hsized', fun e he => ?_⟩
    rw [hc.kept.trace, mem_append] at he
    rcases he with he | he
    · exact hevents e he
    · have hne : e.cloned? ≠ some declr'.identifier := fun heq =>
        hx ((hevs e he).2.2.2 _ heq)
      exact ⟨ofMember_of_ne hne, ofBlock_of_ne hne⟩

end Sized

/-- The copies; if all of them are made, they have what was accessed for them. -/
theorem late_clones (hfd : fd.Accepted M.env)
    (ha : ∀ pd ∈ fd.plist, hasTmp pd = true → Stmt.tmp pd.2.identifier ∈ a)
    (hs : Late M fd a s₀ [] [] s) (hempty : ∀ x, s.elems x = []) (hsized : SizedAll M fd s) :
    (∃ cloned, Late M fd a s₀ cloned []
        (execAll M h fd.plist (genParmPtrDirectionPre fd.plist) s).1) ∧
      QuietPart s (execAll M h fd.plist (genParmPtrDirectionPre fd.plist) s).1 ∧
      ((execAll M h fd.plist (genParmPtrDirectionPre fd.plist) s).2 = none →
        SizedAll M fd (execAll M h fd.plist (genParmPtrDirectionPre fd.plist) s).1) := by
  refine execAll_filterMap (h := h) (I := fun rest s' => rest <:+ fd.plist ∧
      (∃ cloned, Late M fd a s₀ cloned [] s' ∧ ∀ pd ∈ rest, pd.2.identifier ∉ cloned) ∧
      (∀ pd ∈ rest, s'.elems pd.2.identifier = []) ∧ QuietPart s s' ∧ SizedAll M fd s')
    (Q := fun r => (∃ cloned, Late M fd a s₀ cloned [] r.1) ∧ QuietPart s r.1 ∧
      (r.2 = none → SizedAll M fd r.1)) ?_ ?_ ?_
    ⟨suffix_refl fd.plist, ⟨[], hs, fun _ _ => not_mem_nil⟩, fun _ _ => hempty _,
      QuietPart.refl s, hsized⟩
  · rintro s' ⟨-, ⟨cloned, hl, -⟩, -, hq, hsz⟩
    exact ⟨⟨cloned, hl⟩, hq, fun _ => hsz⟩
  · rintro pd l s' ⟨hsuf, ⟨cloned, hl, hnew⟩, hnone, hrest⟩ -
    exact ⟨(suffix_cons pd l).trans hsuf,
      ⟨cloned, hl, fun pd' hpd' => hnew pd' (mem_cons_of_mem _ hpd')⟩,
      fun pd' hpd' => hnone pd' (mem_cons_of_mem _ hpd'), hrest⟩
  · rintro ⟨_ | ⟨ty, attr⟩, declr⟩ l s' st ⟨hsuf, ⟨cloned, hl, hnew⟩, hnone, hq, hsz⟩ hst
    · cases hst
    · dsimp only at hst
      split_ifs at hst with hdir
      cases hst
      have hpd := hsuf.subset mem_cons_self
      have hnodup := (hsuf.sublist.map fun pd => pd.2.identifier).nodup hfd.nodup
      have htmp := ha _ hpd (hasTmp_of_direction hdir)
      have hclone := hl.clone (h := h) hfd hpd htmp (hnew _ mem_cons_self)
      obtain ⟨⟨evs, ranges, hc⟩, -⟩ := cloneInPtr_spec M h declr.identifier ty attr declr.isArray s'
      have hquiet : QuietPart s (cloneInPtr M h declr.identifier ty attr declr.isArray s').1 :=
        hq.trans ⟨evs, hc.kept, fun e he => quiet_of_cloneEvent (hc.events e he)⟩
      refine ⟨fun hgo => ⟨(suffix_cons _ l).trans hsuf, ⟨_, hclone, not_mem_cons_of_nodup hnodup hnew⟩,
        fun pd' hpd' => ?_, hquiet, ?_⟩, fun hno => ⟨⟨_, hclone⟩, hquiet, fun h0 => absurd h0 hno⟩⟩
      · have hne := fun heq => (nodup_cons.mp hnodup).1 (List.mem_map.mpr ⟨pd', hpd', heq⟩)
        exact (hc.elems _ hne).trans (hnone pd' (mem_cons_of_mem _ hpd'))
      · exact hsz.clone hfd hpd htmp (hnew _ mem_cons_self) (hnone _ mem_cons_self) hl hc hgo

/-- The copies back. -/
theorem late_backs (hfd : fd.Accepted M.env)
    (ha : ∀ pd ∈ fd.plist, hasTmp pd = true → Stmt.tmp pd.2.identifier ∈ a)
    (hs : Late M fd a s₀ cloned [] s) :
    ∃ written, Late M fd a s₀ cloned written
        (execAll M h fd.plist (genParmPtrDirectionPost fd.plist) s).1 ∧
      BackPart s (execAll M h fd.plist (genParmPtrDirectionPost fd.plist) s).1 := by
  refine execAll_filterMap (h := h) (I := fun rest s' => rest <:+ fd.plist ∧
      (∃ written, Late M fd a s₀ cloned written s' ∧ ∀ pd ∈ rest, pd.2.identifier ∉ written) ∧
      BackPart s s') (Q := fun r => ∃ written, Late M fd a s₀ cloned written r.1 ∧ BackPart s r.1)
    ?_ ?_ ?_ ⟨suffix_refl fd.plist, ⟨[], hs, fun _ _ => not_mem_nil⟩, [], Kept.refl s, nofun⟩
  · rintro s' ⟨-, ⟨written, hl, -⟩, hb⟩
    exact ⟨written, hl, hb⟩
  · rintro pd l s' ⟨hsuf, ⟨written, hl, hnew⟩, hb⟩ -
    exact ⟨(suffix_cons pd l).trans hsuf,
      ⟨written, hl, fun pd' hpd' => hnew pd' (mem_cons_of_mem _ hpd')⟩, hb⟩
  · rintro ⟨_ | ⟨ty, attr⟩, declr⟩ l s' st ⟨hsuf, ⟨written, hl, hnew⟩, hb⟩ hst
    · cases hst
    · have hout : attr.direction ≠ .ptrNoDirection ∧ st = .writeBack declr.identifier ty attr := by
        dsimp only at hst
        split at hst
        · rename_i hdir
          exact ⟨by rw [hdir]; decide, (some.inj hst).symm⟩
        · rename_i hdir
          exact ⟨by rw [hdir]; decide, (some.inj hst).symm⟩
        · cases hst
      obtain ⟨hdir, rfl⟩ := hout
      have hpd := hsuf.subset mem_cons_self
      have hnodup := (hsuf.sublist.map fun pd => pd.2.identifier).nodup hfd.nodup
      have hback := hl.back hpd (ha _ hpd (hasTmp_of_direction hdir)) (hnew _ mem_cons_self)
      obtain ⟨evs, ranges, hk, -, -, hevents⟩ := copyBack_spec M declr.identifier ty attr s'
      refine ⟨fun _ => ⟨(suffix_cons _ l).trans hsuf, ⟨_, hback, not_mem_cons_of_nodup hnodup hnew⟩,
        parts_trans hb ⟨evs, hk, fun e he => quiet_of_backEvent (hevents e he)⟩⟩, fun hne => absurd rfl hne⟩

end Parts

end Edger8r
