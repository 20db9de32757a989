/-
Trusted bridges fetch from the host once.

* `FetchedOnce` — one read for each field and buffer, and all accesses as for one snapshot;
* `parts_of_run` — every run is made of declarations, checks and copies, the call, and copies back;
* **`fetched_once_iff`** — a run fetches once if and only if no other pointer than `NULL` was read for a
  `user_check` parameter of a foreign array type;
* **`array_fetched_twice`** — a host that changes such a pointer between the two reads.
-/
import LinuxSgx.Edger8r.Parts

open CInt List

namespace Edger8r

/-! ### Fetching once -/

/-- The argument for a parameter, if `v` are the values of the parameters and `es` the structures in
copies. -/
def passed (v : String → ℤ) (es : String → List (String → ℤ)) (pd : PDecl) : Passed :=
  if ptrHasDirection pd.1 then .copy pd.2.identifier (es pd.2.identifier)
  else .value (v pd.2.identifier)

/-- An access of a bridge whose parameters have the values `v` and whose buffers are the ranges
`range`. -/
def FromSnapshot (fd : FuncDecl) (v : String → ℤ) (range : Buffer → ℕ × ℕ) : Event → Prop
  | .readField (.parm x) w => w = v x
  | .readField (.strLen x) w => (range (.param x)).2 = ptrOf w
  | .check b p n => range b = (p, n)
  | .alloc (.param x) n => (range (.param x)).2 = n
  | .alloc _ _ => True
  | .read b p n => range b = (p, n)
  | .call args => ∃ es, args = fd.plist.map (passed v es)
  | .write b p n => (range b).1 = p ∧ n ≤ (range b).2

/-- Each field of the marshalling structure is read at most once, and so is each buffer.  All accesses
are as if the values of the parameters had been fixed: what is checked is what is copied, lengths are
those of the values, and these are the values that the trusted function gets. -/
structure FetchedOnce (M : Machine) (fd : FuncDecl) (tr : List Event) : Prop where
  fields : (fieldsRead tr).Nodup
  buffers : (buffersRead tr).Nodup
  snapshot : ∃ v range, (∀ e ∈ tr, FromSnapshot fd v range e) ∧
    (∀ x, (range (.param x)).1 = ptrOf (v x)) ∧
    ∀ ty attr declr, (ParamType.ptPtr ty attr, declr) ∈ fd.plist → attr.size ≠ emptyPtrSize →
      (range (.param declr.identifier)).2 = lengthOf M fd.plist ty attr v

/-- The value that was read first for a parameter. -/
def firstRead (tr : List Event) (x : String) : ℤ :=
  (tr.findSome? fun e =>
    match e with
    | .readField (.parm y) v => if y = x then some v else none
    | _ => none).getD 0

/-- With one read for each field, it is the only one. -/
theorem firstRead_eq {tr : List Event} (hnodup : (fieldsRead tr).Nodup) {x : String} {v : ℤ}
    (hmem : Event.readField (.parm x) v ∈ tr) : firstRead tr x = v := by
  induction tr with
  | nil => cases hmem
  | cons e tr ih =>
    rw [firstRead, List.findSome?_cons]
    have hcons : fieldsRead (e :: tr) = fieldsRead [e] ++ fieldsRead tr := fieldsRead_append [e] tr
    rw [hcons] at hnodup
    rcases mem_cons.mp hmem with rfl | hmem'
    · simp only [if_true, Option.getD_some]
    · have hrest := ih hnodup.of_append_right hmem'
      split
      · rename_i w hw
        -- another read of the same field does not come first
        split at hw
        · split_ifs at hw with heq
          obtain rfl := heq
          have hin : Field.parm _ ∈ fieldsRead tr := mem_fieldsRead.mpr ⟨v, hmem'⟩
          exact absurd hin (nodup_cons.mp hnodup).1
        · cases hw
      · exact hrest

/-- A run, after the declarations that have led to `s₀`; the reads `evs` are those of the call. -/
structure Parts (M : Machine) (fd : FuncDecl) (tr : List Event) (s₀ : State) (evs : List Event) :
    Prop where
  declared : Declared M fd.plist (genTbridgeLocalVars fd.plist).1 s₀
  fields : fieldsRead tr = fieldsRead s₀.trace ++ fieldsRead evs
  reads : ∀ f v, Event.readField f v ∈ tr ↔
    Event.readField f v ∈ s₀.trace ∨ Event.readField f v ∈ evs
  own : ∀ e ∈ evs, ∃ pd ∈ fd.plist, ∃ v, e = Event.readField (.parm pd.2.identifier) v ∧
    Stmt.tmp pd.2.identifier ∉ (genTbridgeLocalVars fd.plist).1
  once : (∀ pd ∈ fd.plist, races pd = true → ∀ v, Event.readField (.parm pd.2.identifier) v ∈ evs →
    ptrOf v = 0) → (fieldsRead evs).Nodup ∧ ∀ args, Event.call args ∈ tr → ∃ s : State,
      s.tmp = s₀.tmp ∧ List.Forall₂ (Handed (genTbridgeLocalVars fd.plist).1 s evs) fd.plist args
  null : (fieldsRead evs).Nodup → ∀ pd ∈ fd.plist, races pd = true → ∀ v,
    Event.readField (.parm pd.2.identifier) v ∈ evs → ptrOf v = 0

section Main

variable {M : Machine} {h : Host} {fd : FuncDecl}

/-- The checks and copies before the call. -/
def preStmts (fd : FuncDecl) : List Stmt :=
  genCheckTbridgeLengthOverflow fd.plist ++ genCheckTbridgePtrParms fd.plist ++
    genParmPtrDirectionPre fd.plist

theorem mem_checks (hfd : fd.Accepted M.env) {st : Stmt}
    (hst : st ∈ genCheckTbridgeLengthOverflow fd.plist ++ genCheckTbridgePtrParms fd.plist) :
    (∃ ty attr, st = .checkOverflow ty attr) ∨
      ∃ x, st = .checkPtr x ∧ Stmt.tmp x ∈ fd.locals := by
  rcases mem_append.mp hst with hst | hst
  · obtain ⟨⟨pt, declr⟩, -, hgen⟩ := mem_filterMap.mp hst
    cases pt with
    | ptVal => cases hgen
    | ptPtr ty attr =>
      simp only at hgen
      split_ifs at hgen
      cases hgen
      exact .inl ⟨ty, attr, rfl⟩
  · obtain ⟨pd', hpd', hgen⟩ := mem_filterMap.mp hst
    obtain ⟨⟨pt, declr⟩, hpd, rfl⟩ := List.mem_map.mp hpd'
    cases pt with
    | ptVal => cases hgen
    | ptPtr ty attr =>
      have hchk : attr.chkptr = true ∧ st = .checkPtr declr.identifier := by
        simp only [convArrayToPtr] at hgen
        split_ifs at hgen with hary
        all_goals
          simp only at hgen
          split_ifs at hgen with hchk
          cases hgen
          exact ⟨hchk, rfl⟩
      refine .inr ⟨declr.identifier, hchk.2, hfd.tmp_mem hpd ?_⟩
      -- a foreign array that is checked has a direction
      rw [hasTmp, isPtr, Bool.true_and, Bool.or_eq_true, Bool.not_eq_true']
      by_cases hary : isForeignArray (.ptPtr ty attr) = true
      · refine .inr (decide_eq_true (((hfd.parsed _ hpd).wellFormed.array ?_).2 hchk.1))
        cases ty with
        | foreign => exact hary
        | _ => cases hary
      · exact .inl (Bool.eq_false_of_not_eq_true hary)

theorem late_pre (hfd : fd.Accepted M.env) {s₀ : State}
    (hd : Declared M fd.plist fd.locals s₀) :
    (∃ cloned, Late M fd fd.locals s₀ cloned [] (execAll M h fd.plist (preStmts fd) s₀).1) ∧
      QuietPart s₀ (execAll M h fd.plist (preStmts fd) s₀).1 ∧
      ((execAll M h fd.plist (preStmts fd) s₀).2 = none →
        SizedAll M fd (execAll M h fd.plist (preStmts fd) s₀).1) := by
  obtain ⟨hl, ⟨evs, hk, hquiet⟩, helems⟩ :=
    late_checks (h := h) (fun st hst => mem_checks hfd hst) hd.late
  rw [preStmts, execAll_append]
  split_ifs with hok
  · have hsized := hd.sizedAll.plain hk helems fun e he => by
      -- no parameter is copied by a check
      refine Option.eq_none_iff_forall_ne_some.mpr fun x hx => not_mem_nil (a := x) ?_
      exact hl.cloned e (by rw [hk.trace]; exact mem_append_right _ he) x hx
    obtain ⟨hl', hq', hsized'⟩ := late_clones (h := h) hfd (fun pd hpd htmp => hfd.tmp_mem hpd htmp)
      hl (fun x => by rw [helems, hd.elems]) hsized
    exact ⟨hl', QuietPart.trans ⟨evs, hk, hquiet⟩ hq', hsized'⟩
  · exact ⟨⟨[], hl⟩, ⟨evs, hk, hquiet⟩, fun h0 => absurd h0 hok⟩

variable {s s' : State}

theorem QuietPart.mem_iff (hq : QuietPart s s') (f : Field) (v : ℤ) :
    Event.readField f v ∈ s'.trace ↔ Event.readField f v ∈ s.trace := by
  obtain ⟨evs, hk, hquiet⟩ := hq
  rw [hk.trace, mem_append]
  constructor
  · rintro (hmem | hmem)
    · exact hmem
    · cases (hquiet _ hmem).1
  · exact .inl

theorem QuietPart.fields (hq : QuietPart s s') : fieldsRead s'.trace = fieldsRead s.trace := by
  obtain ⟨evs, hk, hquiet⟩ := hq
  rw [hk.trace, fieldsRead_append]
  have hnone : fieldsRead evs = [] := filterMap_eq_nil_iff.mpr fun e he => (hquiet e he).1
  rw [hnone, append_nil]

variable {args : List Passed}

theorem QuietPart.call_mem (hq : QuietPart s s') (hmem : Event.call args ∈ s'.trace) :
    Event.call args ∈ s.trace := by
  obtain ⟨evs, hk, hquiet⟩ := hq
  rw [hk.trace, mem_append] at hmem
  exact hmem.resolve_right fun hin => (hquiet _ hin).2 args rfl

variable {s₁ : State}

theorem QuietPart.not_call {a : List Stmt} {s₀ : State} (hq : QuietPart s₀ s₁)
    (hd : Declared M fd.plist a s₀) (args : List Passed) : Event.call args ∉ s₁.trace := by
  intro hmem
  obtain ⟨f, v, heq⟩ := hd.reads _ (hq.call_mem hmem)
  cases heq

/-- A run that gets to the call with the arguments `args`, which are read with the accesses `evs`. -/
structure Reaches (M : Machine) (h : Host) (fd : FuncDecl) (s₀ s₁ : State) (args : List Passed)
    (evs : List Event) : Prop where
  ok : (execAll M h fd.plist (preStmts fd) s₀).2 = none
  state : (execAll M h fd.plist (preStmts fd) s₀).1 = s₁
  called : ∃ s₂, Called (genTbridgeLocalVars fd.plist).1 s₁ s₂ fd.plist args evs
  back : ∃ s₃, Kept s₁ s₃ (evs ++ [.call args]) ∧ BackPart s₃ (runBridge M h fd).1

/-- A run ends before the call, or it gets to it. -/
theorem run_cases (h : Host) (hfd : fd.Accepted M.env) :
    ∃ s₀ s₁ cloned written, Declared M fd.plist fd.locals s₀ ∧
      s₁ = (execAll M h fd.plist (preStmts fd) s₀).1 ∧ QuietPart s₀ s₁ ∧
      Late M fd fd.locals s₀ cloned [] s₁ ∧
      Late M fd fd.locals s₀ cloned written (runBridge M h fd).1 ∧
      ((runBridge M h fd).1 = s₁ ∨ ∃ args evs, Reaches M h fd s₀ s₁ args evs) := by
  obtain ⟨s₀, hrun₀, hd⟩ := declared_locals M h hfd
  obtain ⟨⟨cloned, hl⟩, hq, -⟩ := late_pre (h := h) hfd hd
  have hsplit : genFuncTbridge fd = fd.locals ++ (preStmts fd ++
      (.call (fd.plist.map (mkParmNameTbridge fd.cache)) ::
        genParmPtrDirectionPost fd.plist)) := by
    simp only [genFuncTbridge, preStmts, List.append_assoc, singleton_append]
  have hrun : runBridge M h fd =
      if (execAll M h fd.plist (preStmts fd) s₀).2 = none then
        execAll M h fd.plist (.call (fd.plist.map
          (mkParmNameTbridge fd.cache)) :: genParmPtrDirectionPost fd.plist)
          (execAll M h fd.plist (preStmts fd) s₀).1
      else execAll M h fd.plist (preStmts fd) s₀ := by
    rw [runBridge, hsplit, execAll_append, hrun₀, if_pos rfl, execAll_append]
  refine ⟨s₀, (execAll M h fd.plist (preStmts fd) s₀).1, cloned, ?_⟩
  by_cases hok : (execAll M h fd.plist (preStmts fd) s₀).2 = none
  · rw [if_pos hok, execAll_cons, if_pos (by rfl)] at hrun
    obtain ⟨evs, hc⟩ := hfd.called (h := h) (List.Subset.refl _) hfd.nodup
      (execAll M h fd.plist (preStmts fd) s₀).1
    -- the arguments are read, and the function is called with them
    have hk : Kept (execAll M h fd.plist (preStmts fd) s₀).1
        (exec M h fd.plist (.call (fd.plist.map (mkParmNameTbridge fd.cache)))
          (execAll M h fd.plist (preStmts fd) s₀).1).1 _ := hc.kept.trans (kept_emit _ _)
    have hl₂ := hl.plain hk hc.inn (by
      intro e he
      rcases mem_append.mp he with he | he
      · obtain ⟨pd, -, v, rfl, -⟩ := hc.reads e he
        exact ⟨trivial, rfl, rfl, rfl⟩
      · obtain rfl := mem_singleton.mp he
        exact ⟨trivial, rfl, rfl, rfl⟩)
    obtain ⟨written, hl₃, hb⟩ := late_backs (h := h) hfd
      (fun pd hpd htmp => hfd.tmp_mem hpd htmp) hl₂
    rw [← hrun] at hl₃ hb
    exact ⟨written, hd, rfl, hq, hl, hl₃, Or.inr ⟨_, evs, hok, rfl, ⟨_, hc⟩, _, hk, hb⟩⟩
  · rw [if_neg hok] at hrun
    have hstate : (runBridge M h fd).1 = (execAll M h fd.plist (preStmts fd) s₀).1 := by rw [hrun]
    exact ⟨[], hd, rfl, hq, hl, hstate ▸ hl, Or.inl hstate⟩

theorem Reaches.args_eq {s₀ : State} {args' : List Passed} {evs : List Event}
    (hr : Reaches M h fd s₀ s₁ args evs) (hno : ∀ args, Event.call args ∉ s₁.trace)
    (hmem : Event.call args' ∈ (runBridge M h fd).1.trace) : args' = args := by
  obtain ⟨s₂, hc⟩ := hr.called
  obtain ⟨s₃, hk, hb⟩ := hr.back
  have hmem' := hb.quiet.call_mem hmem
  rw [hk.trace, mem_append, mem_append] at hmem'
  rcases hmem' with hin | hin | hin
  · exact absurd hin (hno args')
  · obtain ⟨pd, -, v, heq, -⟩ := hc.reads _ hin
    cases heq
  · exact Event.call.inj (mem_singleton.mp hin)

/-- The parts of every run. -/
theorem parts_of_run (hfd : fd.Accepted M.env) :
    ∃ s₀ evs cloned written, Parts M fd (runBridge M h fd).1.trace s₀ evs ∧
      Late M fd fd.locals s₀ cloned written (runBridge M h fd).1 := by
  obtain ⟨s₀, s₁, cloned, written, hd, -, hq, hl, hl', hcases⟩ := run_cases h hfd
  have hnocall := fun args => hq.not_call hd args
  rcases hcases with hend | ⟨args, evs, hr⟩
  · refine ⟨s₀, [], cloned, written, ⟨hd, ?_, fun f v => ?_, fun e he => absurd he not_mem_nil,
      fun _ => ⟨nodup_nil, fun args hmem => ?_⟩,
      fun _ pd _ _ v hv => absurd hv not_mem_nil⟩, hl'⟩
    · rw [hend, hq.fields]
      exact (append_nil _).symm
    · rw [hend, hq.mem_iff]
      exact ⟨.inl, fun hmem => hmem.resolve_right not_mem_nil⟩
    · rw [hend] at hmem
      exact absurd hmem (hnocall args)
  · obtain ⟨s₂, hc⟩ := hr.called
    obtain ⟨s₃, hk, hb⟩ := hr.back
    refine ⟨s₀, evs, cloned, written, ⟨hd, ?_, ?_, hc.reads, ?_, hc.null⟩, hl'⟩
    · rw [hb.quiet.fields, hk.trace, fieldsRead_append, fieldsRead_append, hq.fields]
      exact congrArg _ (append_nil _)
    · intro f v
      rw [hb.quiet.mem_iff, hk.trace, mem_append, mem_append, hq.mem_iff]
      constructor
      · rintro (hmem | hmem | hmem)
        · exact .inl hmem
        · exact .inr hmem
        · cases mem_singleton.mp hmem
      · rintro (hmem | hmem)
        · exact .inl hmem
        · exact .inr (.inl hmem)
    · intro hnull
      obtain ⟨hnodup, hhanded⟩ := hc.once hnull
      refine ⟨hnodup, fun args' hmem => ⟨s₁, hl.tmp, ?_⟩⟩
      rw [hr.args_eq hnocall hmem]
      exact hhanded

variable {tr : List Event} {s₀ : State} {evs : List Event}

/-- A local copy is the value that was read. -/
theorem Parts.tmp_mem (hp : Parts M fd tr s₀ evs) {x : String}
    (hx : Stmt.tmp x ∈ fd.locals) :
    Event.readField (.parm x) (s₀.tmp x) ∈ tr := by
  have hfield : Field.parm x ∈ fieldsRead s₀.trace := by
    rw [hp.declared.fields]
    exact mem_fields_parm.mpr hx
  obtain ⟨v, hv⟩ := mem_fieldsRead.mp hfield
  rw [hp.declared.parms x v hv]
  exact (hp.reads _ _).mpr (.inl hv)

/-- There is one read for each field if there is one for each field that the call reads. -/
theorem Parts.nodup (hp : Parts M fd tr s₀ evs) (hevs : (fieldsRead evs).Nodup) :
    (fieldsRead tr).Nodup := by
  rw [hp.fields]
  refine List.Nodup.append ?_ hevs ?_
  · rw [hp.declared.fields]
    exact hp.declared.nodup
  · intro f hf hf'
    obtain ⟨v, hv⟩ := mem_fieldsRead.mp hf'
    obtain ⟨pd, -, w, heq, htmp⟩ := hp.own _ hv
    obtain ⟨rfl, -⟩ := Event.readField.inj heq
    rw [hp.declared.fields] at hf
    exact htmp (mem_fields_parm.mp hf)

/-- A length of attributes, for the values that were read. -/
theorem Parts.lengthOf_eq (hp : Parts M fd tr s₀ evs) (hfd : fd.Accepted M.env)
    (hnodup : (fieldsRead tr).Nodup) {ty : AType} {attr : PtrAttr} {declr : Declarator}
    (hpd : (ParamType.ptPtr ty attr, declr) ∈ fd.plist) (hsize : attr.size ≠ emptyPtrSize) :
    s₀.len declr.identifier = lengthOf M fd.plist ty attr (firstRead tr) := by
  obtain ⟨hstr, hwstr, -, hchk⟩ := (hfd.parsed _ hpd).wellFormed.sized hsize
  have hary : attr.isary = false := Bool.eq_false_of_not_eq_true fun hary =>
    hsize ((hfd.parsed _ hpd).wellFormed.array hary).1
  have hlen := hfd.len_mem hpd hsize hchk hary hstr hwstr
  obtain ⟨heval, hnamed⟩ := hp.declared.lens _ _ hlen fun y hy => by cases hy
  rw [heval, LenExpr.eval, lengthOf, lengthOf, (lenValue_congr M.undef _ fun n hn => ?_).1]
  rw [valuesOf, valuesOf, firstRead_eq hnodup (hp.tmp_mem (hnamed n hn))]

/-- The arguments are the values that were read. -/
theorem Parts.args_eq (hp : Parts M fd tr s₀ evs) (hnodup : (fieldsRead tr).Nodup)
    (hs : s.tmp = s₀.tmp) {l : List PDecl}
    (hh : List.Forall₂ (Handed fd.locals s evs) l args) :
    args = l.map (passed (firstRead tr) s.elems) := by
  induction hh with
  | nil => rfl
  | cons hr _ ih =>
    rw [map_cons, ← ih, passed]
    rcases hr with ⟨hdir, rfl⟩ | ⟨hdir, v, rfl, hv⟩
    · rw [if_pos hdir]
    · rw [hdir, if_neg Bool.false_ne_true]
      rcases hv with hv | ⟨htmp, rfl⟩
      · rw [firstRead_eq hnodup ((hp.reads _ _).mpr (Or.inr hv))]
      · rw [hs, firstRead_eq hnodup (hp.tmp_mem htmp)]

/-- The range of a buffer. -/
def rangeOf (v : String → ℤ) (len : String → ℕ) (members backs : String → List (ℕ × ℕ)) :
    Buffer → ℕ × ℕ
  | .param x => (ptrOf (v x), len x)
  | .member x k => ((members x)[k]?).getD (0, 0)
  | .back x k => ((backs x)[k]?).getD (0, 0)
  | .block _ => (0, 0)

/-- An access after the declarations is one of the values that were read. -/
theorem Parts.fromSnapshot (hp : Parts M fd tr s₀ evs) (hnodup : (fieldsRead tr).Nodup)
    (hcall : ∀ args, Event.call args ∈ tr → ∃ s : State, s.tmp = s₀.tmp ∧
      List.Forall₂ (Handed fd.locals s evs) fd.plist args)
    {members backs : String → List (ℕ × ℕ)} {e : Event} (he : e ∈ tr)
    (hparam : ParamEvent fd.locals s₀ e)
    (hmember : ∀ x, OfMember x (members x) e) (hback : ∀ x, OfBack x (backs x) e) :
    FromSnapshot fd (firstRead tr) (rangeOf (firstRead tr) s₀.len members backs) e := by
  have hptr : ∀ x, Stmt.tmp x ∈ fd.locals → firstRead tr x = s₀.tmp x :=
    fun x hx => firstRead_eq hnodup (hp.tmp_mem hx)
  have hget : ∀ {l : List (ℕ × ℕ)} {k : ℕ} {y : ℕ × ℕ}, l[k]? = some y → (l[k]?).getD (0, 0) = y :=
    fun hk => by rw [hk, Option.getD_some]
  cases e with
  | readField f w =>
    cases f with
    | parm x => exact (firstRead_eq hnodup he).symm
    | strLen x =>
      rcases (hp.reads _ _).mp he with hmem | hmem
      · exact hp.declared.strs x w hmem
      · obtain ⟨pd, -, v, heq, -⟩ := hp.own _ hmem
        cases heq
  | check b p n =>
    cases b with
    | param x =>
      obtain ⟨htmp, rfl, rfl⟩ := hparam
      rw [FromSnapshot, rangeOf, hptr x htmp]
    | member x k => exact hget (hmember x rfl)
    | back x k => exact hget (hback x rfl)
    | block => exact hparam.elim
  | alloc b n =>
    cases b with
    | param x => exact hparam.symm
    | member | back | block => trivial
  | read b p n =>
    cases b with
    | param x =>
      obtain ⟨htmp, rfl, rfl⟩ := hparam
      rw [FromSnapshot, rangeOf, hptr x htmp]
    | member x k => exact hget (hmember x rfl)
    | back | block => exact hparam.elim
  | call args =>
    obtain ⟨s, hs, hh⟩ := hcall args he
    exact ⟨s.elems, hp.args_eq hnodup hs hh⟩
  | write b p n =>
    cases b with
    | param x =>
      obtain ⟨htmp, rfl, hle⟩ := hparam
      refine ⟨?_, hle⟩
      rw [rangeOf, hptr x htmp]
    | back x k =>
      obtain ⟨m, hk, hle⟩ := hback x rfl
      rw [FromSnapshot, rangeOf, hget hk]
      exact ⟨rfl, hle⟩
    | member | block => exact hparam.elim

/-- **Fetching once.**  Whatever the host does in the meantime, a run of a trusted bridge fetches once
if and only if it has not read another pointer than `NULL` for a `user_check` parameter of a foreign
array type, which it does for the call. -/
theorem fetched_once_iff (M : Machine) (h : Host) (hfd : fd.Accepted M.env) :
    FetchedOnce M fd (runBridge M h fd).1.trace ↔
      ∀ pd ∈ fd.plist, isForeignArray pd.1 = true → ptrHasDirection pd.1 = false →
        ∀ v, Event.readField (.parm pd.2.identifier) v ∈ (runBridge M h fd).1.trace → ptrOf v = 0 := by
  obtain ⟨s₀, evs, cloned, written, hp, hl⟩ := parts_of_run (h := h) hfd
  constructor
  · intro hfetch pd hpd hary hdir v hv
    have hrace : races pd = true := by
      rw [races, hary, hdir]
      rfl
    have hfields := hfetch.fields
    rw [hp.fields] at hfields
    refine hp.null hfields.of_append_right pd hpd hrace v ?_
    -- these fields are not read by a declaration
    refine ((hp.reads _ _).mp hv).resolve_left fun hmem => ?_
    have htmp : Stmt.tmp pd.2.identifier ∈ fd.locals := by
      rw [← mem_fields_parm, ← hp.declared.fields]
      exact mem_fieldsRead.mpr ⟨v, hmem⟩
    rcases hfd.arg_cases hpd with ⟨-, hno, -⟩ | ⟨-, hno, -⟩ | ⟨-, hno, -⟩ | ⟨-, -, hnot, -⟩
    · rw [hno] at hrace
      cases hrace
    · rw [hno] at hrace
      cases hrace
    · rw [hno] at hrace
      cases hrace
    · exact hnot htmp
  · intro hnull
    obtain ⟨hevs, hcall⟩ := hp.once (by
      intro pd hpd hrace v hv
      rw [races, Bool.and_eq_true, Bool.not_eq_true'] at hrace
      exact hnull pd hpd hrace.1 hrace.2 v ((hp.reads _ _).mpr (.inr hv)))
    have hnodup := hp.nodup hevs
    choose members hmembers using hl.members
    choose backs hbacks using hl.backs
    refine ⟨hnodup, hl.nodup, firstRead (runBridge M h fd).1.trace,
      rangeOf (firstRead (runBridge M h fd).1.trace) s₀.len members backs, ?_, fun x => rfl, ?_⟩
    · intro e he
      exact hp.fromSnapshot hnodup hcall he (hl.params e he) (fun x => hmembers x e he)
        (fun x => hbacks x e he)
    · intro ty attr declr hpd hsize
      exact hp.lengthOf_eq hfd hnodup hpd hsize

end Main

/-! ### A foreign array -/

/-- `void f([user_check, isary] foo_t a)` -/
def arrayDecl : FuncDecl where
  fname := "f"
  rtype := .void
  plist := [(.ptPtr (.foreign "foo_t") ⟨.ptrNoDirection, emptyPtrSize, false, true, false, false, false,
    false⟩, ⟨"a", []⟩)]

/-- A machine with pointers of 8 bytes and no structures; the enclave is the 4 KiB from 0x10000 on. -/
def plainMachine : Machine where
  env := ⟨fun _ => 8, fun _ => 8, fun _ => none, []⟩
  accepted _ h := absurd h not_mem_nil
  undef := 0
  encl := bufEnclave
  malloc _ := true
  mallocBlock _ := some 0x10000
  decode _ _ _ _ := 0
  after _ := []
  afterElems _ := []
  afterBlock _ := []

theorem arrayDecl_accepted : arrayDecl.Accepted plainMachine.env where
  parsed := by
    intro pd hpd
    obtain rfl := mem_singleton.mp hpd
    exact @Parsed.attributed ⟨.ptrNoDirection, emptyPtrSize, false, true, false, false, false, false⟩
      (.foreign "foo_t") _ _ rfl
  checked := by
    intro pd hpd
    obtain rfl := mem_singleton.mp hpd
    rfl
  nodup := nodup_singleton _
  ints := by
    intro ty attr declr hpd s hs
    cases mem_singleton.mp hpd
    rcases hs with hs | hs
    · cases hs
    · cases hs

/-- `void g([in, size = m, count = n] void* p, uint32_t n, uint32_t m)` -/
def bufferDecl : FuncDecl where
  fname := "g"
  rtype := .void
  plist := [(.ptPtr (.ptr .void) ⟨.ptrIn, ⟨some (.aString "m"), some (.aString "n")⟩, false, false, false,
    false, false, true⟩, ⟨"p", []⟩), (.ptVal .uint32, ⟨"n", []⟩), (.ptVal .uint32, ⟨"m", []⟩)]

theorem bufferDecl_accepted : bufferDecl.Accepted plainMachine.env where
  parsed := by
    intro pd hpd
    rcases mem_cons.mp hpd with rfl | hpd
    · exact @Parsed.attributed ⟨.ptrIn, ⟨some (.aString "m"), some (.aString "n")⟩, false, false, false,
        false, false, true⟩ (.ptr .void) _ _ rfl
    rcases mem_pair.mp hpd with rfl | rfl
    · exact .val (nofun) rfl
    · exact .val (nofun) rfl
  checked := by
    intro pd hpd
    rcases mem_cons.mp hpd with rfl | hpd
    · rfl
    rcases mem_pair.mp hpd with rfl | rfl
    · rfl
    · rfl
  nodup := by decide
  ints := by
    intro ty attr declr hpd s hs
    rcases mem_cons.mp hpd with heq | hpd
    · cases heq
      rcases hs with hs | hs
      · cases hs
        decide
      · cases hs
        decide
    · rcases mem_pair.mp hpd with heq | heq
      · cases heq
      · cases heq

/-- A host that gives another value at each read, and other bytes. -/
def changingHost : Host where
  field t f := if f = .parm "p" then 0x1000 + 0x1000 * t else t
  mem t _ := UInt8.ofNat t

/-- The first values are those of the whole run. -/
theorem fetched_once_changing :
    (runBridge plainMachine changingHost bufferDecl).1.trace =
        [.readField (.parm "p") 0x1000, .readField (.parm "m") 1, .readField (.parm "n") 2,
          .check (.param "p") 0x1000 2, .alloc (.param "p") 2, .read (.param "p") 0x1000 2,
          .call [.copy "p" [], .value 2, .value 1]] ∧
      FetchedOnce plainMachine bufferDecl (runBridge plainMachine changingHost bufferDecl).1.trace := by
  refine ⟨rfl, (fetched_once_iff plainMachine changingHost bufferDecl_accepted).mpr ?_⟩
  have hnone : ∀ pd ∈ bufferDecl.plist, isForeignArray pd.1 = false := by decide
  intro pd hpd hary
  rw [hnone pd hpd] at hary
  cases hary

/-- The host passes a pointer into its own memory, and puts one into the enclave in its place after
the comparison with `NULL`.  The trusted function gets the second one. -/
theorem array_fetched_twice :
    arrayDecl.Accepted plainMachine.env ∧
      (runBridge plainMachine
        ⟨fun t _ => if t = 0 then 0x1000 else 0x10000, fun _ _ => 0⟩ arrayDecl).1.trace
        = [.readField (.parm "a") 0x1000, .readField (.parm "a") 0x10000, .call [.value 0x10000]] ∧
      ¬FetchedOnce plainMachine arrayDecl (runBridge plainMachine
        ⟨fun t _ => if t = 0 then 0x1000 else 0x10000, fun _ _ => 0⟩ arrayDecl).1.trace := by
  refine ⟨arrayDecl_accepted, rfl, fun hfetch => ?_⟩
  have hnodup : [Field.parm "a", Field.parm "a"].Nodup := hfetch.fields
  exact absurd hnodup (by decide)

end Edger8r
