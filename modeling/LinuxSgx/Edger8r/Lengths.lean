/-
Lengths of marshalled buffers.

The length of a buffer is printed as a product of its attributes, in the C type of this product, and
the check against its overflow as a division of `SIZE_MAX`.  A run that gets to the trusted function
has allocated, checked and read this length for the values that the function is called with.  It is
the product of the numbers if and only if this is a value of the C type.

* `handedValue`, `handedStructs` — what the trusted function was called with;
* `LengthFacts` — what is known of a length that was checked;
* **`marshalled_length_iff`** — the lengths of parameters and of the members of structures;
* **`narrow_product`** — a product of two `uint32_t` that wraps around and passes its check.
-/
import LinuxSgx.Edger8r.Fetch

open CInt List

namespace Edger8r

/-- The argument for a parameter. -/
def handedFor (plist : List PDecl) (args : List Passed) (x : String) : Option Passed :=
  ((plist.zip args).find? fun y => y.1.2.identifier = x).map Prod.snd

/-- The number that was passed for a parameter. -/
def handedValue (plist : List PDecl) (args : List Passed) (x : String) : ℤ :=
  match handedFor plist args x with
  | some (.value v) => v
  | _ => 0

/-- The structures that were passed for a parameter. -/
def handedStructs (plist : List PDecl) (args : List Passed) (x : String) : List (String → ℤ) :=
  match handedFor plist args x with
  | some (.copy _ es) => es
  | _ => []

/-- The product of the attributes. -/
def product (elem : ℕ) (ps : PtrSize) (vals : String → Value) : ℤ :=
  countValue ps vals * (sizeValue elem ps vals).val

/-- The product is a value of its C type, and not negative. -/
def Representable (elem : ℕ) (ps : PtrSize) (vals : String → Value) : Prop :=
  0 ≤ product elem ps vals ∧ (lenType elem ps vals).Mem (product elem ps vals)

instance (elem : ℕ) (ps : PtrSize) (vals : String → Value) : Decidable (Representable elem ps vals) :=
  inferInstanceAs (Decidable (_ ∧ _))

/-- A length that has passed its check.  It is the product, whatever an undefined product is, if and
only if this is a value of the C type; and the check is enough for this if the type is `size_t` and
no attribute is negative. -/
structure LengthFacts (elem : ℕ) (ps : PtrSize) (vals : String → Value) : Prop where
  checked : checkLength elem ps vals = true
  exact_iff : (∀ undef, ((lenValue undef elem ps vals).toSize : ℤ) = product elem ps vals) ↔
    Representable elem ps vals
  of_sizeT : lenType elem ps vals = CInt.sizeT → 0 ≤ countValue ps vals →
    0 ≤ (sizeValue elem ps vals).val → Representable elem ps vals

theorem lengthFacts {elem : ℕ} {ps : PtrSize} {vals : String → Value}
    (hcheck : checkLength elem ps vals = true) : LengthFacts elem ps vals where
  checked := hcheck
  exact_iff := toSize_lenValue_eq_iff elem ps vals
  of_sizeT htype hcount hsize :=
    ⟨mul_nonneg hcount hsize, htype ▸ mem_of_checkLength htype hcheck hcount hsize⟩

theorem handedFor_eq {R : PDecl → Passed → Prop} {plist : List PDecl} {args : List Passed}
    (hR : List.Forall₂ R plist args) (hnodup : (plist.map fun pd => pd.2.identifier).Nodup)
    {pd : PDecl} (hpd : pd ∈ plist) : ∃ r, R pd r ∧ handedFor plist args pd.2.identifier = some r := by
  induction hR with
  | nil => cases hpd
  | @cons pd' r plist args hr _ ih =>
    obtain ⟨hne, hnodup⟩ := nodup_cons.mp hnodup
    rw [handedFor, zip_cons_cons, List.find?_cons]
    rcases mem_cons.mp hpd with rfl | hpd
    · exact ⟨r, hr, by rw [decide_eq_true rfl]; rfl⟩
    · have hother : pd'.2.identifier ≠ pd.2.identifier := fun heq =>
        hne (List.mem_map.mpr ⟨pd, hpd, heq.symm⟩)
      rw [decide_eq_false hother]
      exact ih hnodup hpd

section Lengths

variable {M : Machine} {h : Host} {fd : FuncDecl} {s₀ s s' : State} {cloned : List String}

/-! ### The checks of lengths -/

/-- Statements that change nothing have all succeeded if the run goes on. -/
theorem execAll_same {l : List Stmt} (hl : ∀ st ∈ l, (exec M h fd.plist st s).1 = s)
    (hok : (execAll M h fd.plist l s).2 = none) : ∀ st ∈ l, (exec M h fd.plist st s).2 = none := by
  induction l with
  | nil => exact forall_mem_nil _
  | cons st l ih =>
    obtain ⟨hst, hl⟩ := forall_mem_cons.mp hl
    rw [execAll_cons] at hok
    split_ifs at hok with hone
    · rw [hst] at hok
      exact forall_mem_cons.mpr ⟨hone, ih hl hok⟩
    · exact absurd hok hone

/-- The checks of lengths are passed if the run goes on. -/
theorem execAll_overflow
    (hok : (execAll M h fd.plist (genCheckTbridgeLengthOverflow fd.plist) s).2 = none) (ty : AType)
    (attr : PtrAttr) (declr : Declarator) (hpd : (ParamType.ptPtr ty attr, declr) ∈ fd.plist) :
    checkLength (derefSize M.env ty) attr.size (valuesOf M.env fd.plist s.tmp) = true := by
  by_cases hcount : attr.size.hasCount = true
  · have hst : Stmt.checkOverflow ty attr ∈ genCheckTbridgeLengthOverflow fd.plist :=
      mem_filterMap.mpr ⟨_, hpd, if_pos hcount⟩
    have hpassed := execAll_same (fun st hst => ?_) hok _ hst
    · by_contra hcheck
      rw [exec, if_neg hcheck] at hpassed
      cases hpassed
    · obtain ⟨⟨_ | ⟨ty', attr'⟩, declr'⟩, -, hgen⟩ := mem_filterMap.mp hst
      · cases hgen
      · obtain ⟨-, ⟨⟩⟩ := Option.ite_none_right_eq_some.mp hgen
        rfl
  · -- there is no check without a count
    have hnone : attr.size.count = none := Option.not_isSome_iff_eq_none.mp hcount
    rw [checkLength, hnone]

variable {ty : AType} {declr : Declarator} {attr : PtrAttr}

/-- The length and its check have the same size of an element. -/
theorem FuncDecl.Accepted.elemSize_eq (hfd : fd.Accepted M.env)
    (hpd : (ParamType.ptPtr ty attr, declr) ∈ fd.plist) (hsize : attr.size ≠ emptyPtrSize) :
    elemSize M.env ty attr = derefSize M.env ty := by
  have hdims : declr.isArray = false := Bool.eq_false_of_not_eq_true fun hary =>
    hsize (hfd.of_isArray hpd hary).1
  have hary : attr.isary = false := Bool.eq_false_of_not_eq_true fun hary =>
    hsize ((hfd.parsed _ hpd).wellFormed.array hary).1
  have hparsed := hfd.parsed _ hpd
  generalize hpd' : (ParamType.ptPtr ty attr, declr) = pd at hparsed
  cases hparsed with
  | val => cases hpd'
  | attributed hattr =>
    cases hpd'
    rw [attributedParamType, Checks.bind_eq_ok] at hattr
    obtain ⟨attr₁, h₁, hattr⟩ := hattr
    obtain ⟨rfl, -⟩ := wellFormed_of_checkParamPtrAttr h₁
    rename_i ty₀
    cases ty₀ with
    | ptr t =>
      split_ifs at hattr
      all_goals
        cases hattr
        rfl
    | foreign name =>
      simp only [hdims, Bool.or_false] at hattr
      split_ifs at hattr with _ _ _ _ hptr
      cases hattr
      rw [hary, Bool.or_false] at hptr
      rw [elemSize, derefSize, if_pos hptr]
    | _ =>
      simp only [hdims, Bool.false_eq_true, if_false] at hattr
      split_ifs at hattr
  | const hconst =>
    cases hpd'
    rw [constParamType, Checks.bind_eq_ok] at hconst
    obtain ⟨attr₁, -, hconst⟩ := hconst
    cases hconst
    rfl

/-! ### Runs that get to the call -/

variable {s₁ : State} {args : List Passed} {evs : List Event} {x : String} {e : Event}

/-- What was checked, allocated or read for a copy was so before the call. -/
theorem Reaches.mem_of_bytes (hr : Reaches M h fd s₀ s₁ args evs) {b : Buffer} {n : ℕ}
    (he : e ∈ (runBridge M h fd).1.trace) (hbytes : e.bytes? = some (b, n)) : e ∈ s₁.trace := by
  obtain ⟨s₂, hc⟩ := hr.called
  obtain ⟨s₃, hk, evs', hk', hback⟩ := hr.back
  rw [hk'.trace, hk.trace, mem_append, mem_append, mem_append] at he
  rcases he with (he | he | he) | he
  · exact he
  · obtain ⟨pd, -, v, rfl, -⟩ := hc.reads e he
    cases hbytes
  · cases mem_singleton.mp he
    cases hbytes
  · rw [(hback e he).2] at hbytes
    cases hbytes

/-- The overflow checks were passed for the local copies, and everything for members was as in the
structures that are passed. -/
theorem Reaches.checked (hr : Reaches M h fd s₀ s₁ args evs) (hfd : fd.Accepted M.env)
    (hd : Declared M fd.plist fd.locals s₀) :
    (∀ ty attr declr, (ParamType.ptPtr ty attr, declr) ∈ fd.plist →
      checkLength (derefSize M.env ty) attr.size (valuesOf M.env fd.plist s₀.tmp) = true) ∧
    SizedAll M fd s₁ := by
  have hok := hr.ok
  obtain ⟨-, -, hsized⟩ := late_pre (h := h) hfd hd
  rw [← hr.state]
  refine ⟨?_, hsized hok⟩
  rw [preStmts, List.append_assoc, execAll_append] at hok
  split_ifs at hok with ho
  · exact execAll_overflow ho
  · exact absurd hok ho

/-- An attribute has the value that the trusted function gets for it. -/
theorem Reaches.handedValue_eq (hr : Reaches M h fd s₀ s₁ args evs) (hfd : fd.Accepted M.env)
    (htmp : s₁.tmp = s₀.tmp) (hint : IntName M.env fd.plist x)
    (hx : Stmt.tmp x ∈ fd.locals) :
    handedValue fd.plist args x = s₀.tmp x := by
  obtain ⟨s₂, hc⟩ := hr.called
  rw [IntName, intTypeOf] at hint
  rcases hfind : fd.plist.find? (fun pd => pd.2.identifier = x) with _ | pd
  · rw [hfind] at hint
    cases hint
  · have hname : pd.2.identifier = x := by simpa using List.find?_some hfind
    have hpd := List.mem_of_find?_eq_some hfind
    rw [hfind] at hint
    rcases pd with ⟨pt, declr⟩
    cases pt with
    | ptPtr => cases hint
    | ptVal ty =>
      obtain ⟨r, hR, hfor⟩ := handedFor_eq hc.locals hfd.nodup hpd
      have hval := hR.2 rfl (by rw [hname]; exact hx)
      rw [handedValue, ← hname, hfor, hval, ← htmp]

theorem Reaches.handedStructs_eq (hr : Reaches M h fd s₀ s₁ args evs) (hfd : fd.Accepted M.env)
    (hpd : (ParamType.ptPtr ty attr, declr) ∈ fd.plist) (hdir : attr.direction ≠ .ptrNoDirection) :
    handedStructs fd.plist args declr.identifier = s₁.elems declr.identifier := by
  obtain ⟨s₂, hc⟩ := hr.called
  obtain ⟨r, hR, hfor⟩ := handedFor_eq hc.locals hfd.nodup hpd
  rw [handedStructs, hfor, hR.1 (decide_eq_true hdir)]

/-- **Marshalled lengths.**  If a run calls the trusted function, then what was allocated, checked and
read for a parameter with attributes is the printed length for the values that the function gets.
This is the product of the attributes if and only if it is a value of the C type.  The same holds for
the sized pointers of structures, for the structures that the function gets. -/
theorem marshalled_length_iff (M : Machine) (h : Host) (hfd : fd.Accepted M.env) {args : List Passed}
    (hcall : Event.call args ∈ (runBridge M h fd).1.trace) :
    (∀ ty attr declr, (ParamType.ptPtr ty attr, declr) ∈ fd.plist → attr.size ≠ emptyPtrSize →
      (∀ e ∈ (runBridge M h fd).1.trace, ∀ n, e.bytes? = some (.param declr.identifier, n) →
        n = lengthOf M fd.plist ty attr (handedValue fd.plist args)) ∧
      LengthFacts (elemSize M.env ty attr) attr.size
        (valuesOf M.env fd.plist (handedValue fd.plist args))) ∧
    ∀ ty attr declr, (ParamType.ptPtr ty attr, declr) ∈ fd.plist →
      attr.direction ≠ .ptrNoDirection → ∀ sd, deepStruct M ty = some sd →
      (∃ l, l.map Prod.snd = memberLens M sd (handedStructs fd.plist args declr.identifier) ∧
        (∀ e ∈ (runBridge M h fd).1.trace, ∀ k n, e.bytes? = some (.member declr.identifier k, n) →
          ∃ p, l[k]? = some (p, n)) ∧
        ∀ e ∈ (runBridge M h fd).1.trace, ∀ n, e.bytes? = some (.block declr.identifier, n) →
          n = blockSize attr.direction l) ∧
      ∀ e ∈ handedStructs fd.plist args declr.identifier, ∀ m ∈ sd.1.members,
        LengthFacts (elemSize M.env m.ty m.attr) m.attr.size (valuesOf M.env sd.1.smlist e) := by
  obtain ⟨s₀, s₁, cloned, written, hd, -, hq, hl, -, hcases⟩ := run_cases h hfd
  have hnocall := fun args => hq.not_call hd args
  rcases hcases with hend | ⟨args', evs, hr⟩
  · rw [hend] at hcall
    exact absurd hcall (hnocall args)
  obtain rfl := hr.args_eq hnocall hcall
  obtain ⟨hchecks, hsized⟩ := hr.checked hfd hd
  refine ⟨fun ty attr declr hpd hsize => ?_, fun ty attr declr hpd hdir sd hsd => ?_⟩
  · obtain ⟨hstr, hwstr, -, hchk⟩ := (hfd.parsed _ hpd).wellFormed.sized hsize
    have hary : attr.isary = false := Bool.eq_false_of_not_eq_true fun hary =>
      hsize ((hfd.parsed _ hpd).wellFormed.array hary).1
    obtain ⟨heval, hnamed⟩ := hd.lens _ _ (hfd.len_mem hpd hsize hchk hary hstr hwstr)
      nofun
    -- the values of the attributes are those of the local copies
    have hvals : ∀ s, attr.size.Names s → valuesOf M.env fd.plist s₀.tmp s =
        valuesOf M.env fd.plist (handedValue fd.plist args) s := by
      intro s hs
      rw [valuesOf, valuesOf, hr.handedValue_eq hfd hl.tmp (hfd.ints ty attr declr hpd s hs)
        (hnamed s hs)]
    obtain ⟨hlen, hcheck⟩ := lenValue_congr M.undef (elemSize M.env ty attr) hvals
    refine ⟨fun e he n hbytes => ?_, lengthFacts ?_⟩
    · have hparam := hl.params e (hr.mem_of_bytes he hbytes)
      have hn : n = s₀.len declr.identifier := by
        cases e with
        | readField | call | write => cases hbytes
        | check b =>
          cases b with
          | back => cases hbytes
          | param =>
            cases hbytes
            exact hparam.2.2
          | member | block => cases hbytes
        | alloc =>
          cases hbytes
          exact hparam
        | read =>
          cases hbytes
          exact hparam.2.2
      rw [hn, heval, LenExpr.eval, lengthOf, lengthOf, hlen]
    · rw [← hcheck, hfd.elemSize_eq hpd hsize]
      exact hchecks ty attr declr hpd
  · obtain ⟨l, hsz, hevents⟩ := hsized ty attr declr hpd
    rw [hr.handedStructs_eq hfd hpd hdir]
    obtain ⟨hlens, hok⟩ := hsz sd hsd
    refine ⟨⟨l, hlens, fun e he k n hbytes => ?_, fun e he n hbytes => ?_⟩, fun e he m hm => ?_⟩
    · have hmember := (hevents e (hr.mem_of_bytes he hbytes)).1
      have hparam := hl.params e (hr.mem_of_bytes he hbytes)
      cases e with
      | readField | call | write => cases hbytes
      | check b p =>
        cases b with
        | member =>
          cases hbytes
          exact ⟨p, hmember rfl⟩
        | param | back | block => cases hbytes
      | alloc =>
        cases hbytes
        exact hparam.elim
      | read b p =>
        cases hbytes
        exact ⟨p, hmember rfl⟩
    · have hblock := (hevents e (hr.mem_of_bytes he hbytes)).2
      have hparam := hl.params e (hr.mem_of_bytes he hbytes)
      cases e with
      | readField | call | write => cases hbytes
      | check b =>
        cases b with
        | block => exact hparam.elim
        | param | member | back => cases hbytes
      | alloc =>
        cases hbytes
        exact hblock rfl
      | read =>
        cases hbytes
        exact hparam.elim
    · exact lengthFacts (hok e he ⟨m, hm⟩ (List.mem_attach _ _))

end Lengths

/-! ### An array of structures -/

/-- `[in, count = 2]` -/
def inCountTwo : PtrAttr := ⟨.ptrIn, ⟨none, some (.aNumber 2)⟩, false, false, false, false, false, true⟩

/-- `void k([in, count = 2] struct buf* s)` -/
def structsDecl : FuncDecl where
  fname := "k"
  rtype := .void
  plist := [(.ptPtr (.ptr (.struct "buf")) inCountTwo, ⟨"s", []⟩)]

/-- The structure takes 16 bytes, a length and a pointer. -/
def structsMachine : Machine where
  env := ⟨fun | .struct _ => 16 | _ => 8, fun _ => 8, fun _ => none, [buf]⟩
  accepted sd hsd := by
    obtain rfl := mem_singleton.mp hsd
    exact ⟨buf_accepted.nodup, buf_accepted.ints⟩
  undef := 0
  encl := bufEnclave
  malloc _ := true
  mallocBlock _ := some 0x10100
  decode _ data i := bufValue (load64 data (16 * i)) (load64 data (16 * i + 8))
  after _ := []
  afterElems _ := []
  afterBlock _ := []

/-- Two structures at 0x1000, with 2 bytes at 0x2000 and 3 bytes at 0x3000. -/
def structsHost : Host where
  field _ _ := 0x1000
  mem _ p := if p = 0x1000 then 2 else if p = 0x1009 then 0x20 else if p = 0x1010 then 3
    else if p = 0x1019 then 0x30 else 0

theorem structsDecl_accepted : structsDecl.Accepted structsMachine.env where
  parsed := by
    intro pd hpd
    obtain rfl := mem_singleton.mp hpd
    exact @Parsed.attributed inCountTwo (.ptr (.struct "buf")) _ _ rfl
  checked := by
    intro pd hpd
    obtain rfl := mem_singleton.mp hpd
    rfl
  nodup := nodup_singleton _
  ints := by
    intro ty attr declr hpd s hs
    cases mem_singleton.mp hpd
    rcases hs with hs | hs
    · cases hs
    · cases hs

/-- The length of the array is 32, and those of the members are 2 and 3. -/
theorem marshalled_length_structs :
    ∃ args, Event.call args ∈ (runBridge structsMachine structsHost structsDecl).1.trace ∧
      (∀ e ∈ (runBridge structsMachine structsHost structsDecl).1.trace, ∀ n,
        e.bytes? = some (.param "s", n) → n = 32) ∧
      (∀ e ∈ (runBridge structsMachine structsHost structsDecl).1.trace, ∀ k n,
        e.bytes? = some (.member "s" k, n) → [2, 3][k]? = some n) := by
  have hrun : ∃ args, (runBridge structsMachine structsHost structsDecl).1.trace[9]? =
        some (.call args) ∧
      memberLens structsMachine ⟨buf, mem_singleton_self buf⟩
        (handedStructs structsDecl.plist args "s") = [2, 3] := ⟨_, rfl, rfl⟩
  obtain ⟨args, hcall, hlens⟩ := hrun
  obtain ⟨hparams, hstructs⟩ := marshalled_length_iff structsMachine structsHost structsDecl_accepted
    (mem_of_getElem? hcall)
  refine ⟨args, mem_of_getElem? hcall, fun e he n hn => ?_, fun e he k n hn => ?_⟩
  · -- the count is a number, so no values are needed
    have hvalues : lengthOf structsMachine structsDecl.plist (.ptr (.struct "buf")) inCountTwo
        (handedValue structsDecl.plist args) = lengthOf structsMachine structsDecl.plist
          (.ptr (.struct "buf")) inCountTwo fun _ => 0 := rfl
    rw [(hparams _ _ _ mem_cons_self (by decide)).1 e he n hn, hvalues]
    decide
  · obtain ⟨⟨l, hl, hmembers, -⟩, -⟩ :=
      hstructs _ _ _ mem_cons_self nofun ⟨buf, mem_singleton_self buf⟩ rfl
    obtain ⟨p, hp⟩ := hmembers e he k n hn
    rw [← hlens, ← hl, List.getElem?_map, hp]
    rfl

/-! ### A buffer with two attributes -/

/-- A buffer at 0x1000. -/
def bufferHost (n m : ℤ) : Host where
  field _ f := if f = .parm "n" then n else if f = .parm "m" then m else 0x1000
  mem _ _ := 0

/-- With the count 0x80000001 and the size 2 the check is passed, and two bytes are allocated, checked
and read; the product is 0x100000002. -/
theorem narrow_product :
    (runBridge plainMachine (bufferHost 0x80000001 2) bufferDecl).1.trace =
      [.readField (.parm "p") 0x1000, .readField (.parm "m") 2, .readField (.parm "n") 0x80000001,
        .check (.param "p") 0x1000 2, .alloc (.param "p") 2, .read (.param "p") 0x1000 2,
        .call [.copy "p" [], .value 0x80000001, .value 2]] ∧
      product 8 ⟨some (.aString "m"), some (.aString "n")⟩ (valuesOf plainMachine.env bufferDecl.plist
        (handedValue bufferDecl.plist [.copy "p" [], .value 0x80000001, .value 2])) = 0x100000002 :=
  ⟨rfl, by decide⟩

end Edger8r
