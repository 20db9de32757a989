/-
Structures with sized pointers (`CodeGen.ml`).

A structure of an EDL file is deep copied if one of its members is a pointer with `size` or `count`.
These attributes name other members, which are integers; a value of the structure in the memory of
the enclave is a number for each of its members.

* `StructDef.members`, `StructDef.Accepted` — the sized pointers, and structures that compile;
* `StructDef.layout` — their pointers and lengths;
* **`deep_copy_exact_iff`** — when the copy back of an `[in, out]` array of structures is exact;
* **`out_of_step`** — a `NULL` with a length, and a pointer that is taken from the wrong place.
-/
import LinuxSgx.Edger8r.DeepCopy

open CInt FlatFile List

namespace Edger8r

/-- A pointer with `size` or `count`. -/
structure Member where
  name : String
  ty : AType
  attr : PtrAttr
deriving DecidableEq, Repr

/-- The sized pointer that a member is. -/
def sizedMember : PDecl → Option Member
  | (.ptVal _, _) => none
  | (.ptPtr ty attr, declr) =>
    if attr.size ≠ emptyPtrSize then some ⟨declr.identifier, ty, attr⟩ else none

/-- The members that `invoke_if_struct` goes through. -/
def StructDef.members (sd : StructDef) : List Member := sd.smlist.filterMap sizedMember

/-- The name is the value of one of the attributes. -/
def PtrSize.Names (ps : PtrSize) (s : String) : Prop :=
  ps.size = some (.aString s) ∨ ps.count = some (.aString s)

/-- The integer type of a declaration with a name. -/
def intTypeOf (env : CEnv) (l : List PDecl) (s : String) : Option IntType :=
  (l.find? fun pd => pd.2.identifier = s).bind fun pd =>
    match pd.1 with
    | .ptVal ty => env.intType ty
    | .ptPtr _ _ => none

/-- A structure whose printed code compiles: its members have different names, and the attributes
name members of integer types. -/
structure StructDef.Accepted (env : CEnv) (sd : StructDef) : Prop where
  nodup : (sd.smlist.map fun pd => pd.2.identifier).Nodup
  ints : ∀ m ∈ sd.members, ∀ s, m.attr.size.Names s → (intTypeOf env sd.smlist s).isSome = true

/-- The values of integers in a structure or among parameters. -/
def valuesOf (env : CEnv) (l : List PDecl) (e : String → ℤ) (s : String) : Value :=
  .of ((intTypeOf env l s).getD CInt.int) (e s)

/-- The check that a length is a multiple of the size of the type, where it is printed. -/
def multipleOk (env : CEnv) (ty : AType) (n : ℕ) : Bool :=
  match ty with
  | .ptr .void | .ptr (.foreign _) | .foreign _ | .ptr (.struct _) => true
  | _ => n % derefSize env ty = 0

variable {vals vals' : String → Value}

theorem attrValue_congr {a : AttrValue} (h : ∀ s, a = .aString s → vals s = vals' s) :
    attrValue vals a = attrValue vals' a := by
  cases a with
  | aString s => exact h s rfl
  | aNumber n => rfl

theorem sizeValue_congr {ps : PtrSize} (elem : ℕ) (h : ∀ s, ps.Names s → vals s = vals' s) :
    sizeValue elem ps vals = sizeValue elem ps vals' := by
  rcases hsize : ps.size with _ | a
  · simp only [sizeValue, hsize]
  · simp only [sizeValue, hsize]
    exact attrValue_congr fun s ha => h s (.inl (ha ▸ hsize))

/-- A length depends on the members that the attributes name. -/
theorem lenValue_congr {ps : PtrSize} (undef : ℤ) (elem : ℕ)
    (h : ∀ s, ps.Names s → vals s = vals' s) :
    lenValue undef elem ps vals = lenValue undef elem ps vals' ∧
      checkLength elem ps vals = checkLength elem ps vals' := by
  have hsize := sizeValue_congr elem h
  rcases hcount : ps.count with _ | a
  · simp only [lenValue, checkLength, hcount, hsize, and_self]
  · have ha : attrValue vals a = attrValue vals' a :=
      attrValue_congr fun s hs => h s (.inr (hs ▸ hcount))
    simp only [lenValue, checkLength, hcount, hsize, ha, and_self]

theorem toSize_lt (a : Value) : a.toSize < 2 ^ 64 := by
  have h := cast_toSize a
  have hlt := Int.emod_lt_of_pos a.val (show (0 : ℤ) < 2 ^ 64 by decide)
  omega

variable {env : CEnv} {sd : StructDef}

variable {m : Member}

theorem StructDef.mem_members (h : m ∈ sd.members) :
    ∃ declr, (ParamType.ptPtr m.ty m.attr, declr) ∈ sd.smlist ∧ declr.identifier = m.name := by
  obtain ⟨⟨pt, declr⟩, hmem, heq⟩ := mem_filterMap.mp h
  cases pt with
  | ptVal ty => cases heq
  | ptPtr ty attr =>
    rw [sizedMember] at heq
    split_ifs at heq
    cases heq
    exact ⟨declr, hmem, rfl⟩

variable {m' : Member}

/-- The name of an integer member is not that of a pointer. -/
theorem StructDef.Accepted.name_ne (h : sd.Accepted env) (hm : m ∈ sd.members)
    (hm' : m' ∈ sd.members) {s : String} (hs : m'.attr.size.Names s) : m.name ≠ s := by
  rintro rfl
  have hint := h.ints m' hm' _ hs
  obtain ⟨declr, hmem, hname⟩ := sd.mem_members hm
  rw [intTypeOf] at hint
  rcases hfind : sd.smlist.find? (fun pd => pd.2.identifier = m.name) with _ | pd
  · rw [hfind] at hint
    cases hint
  · have hfound : pd.2.identifier = m.name := by simpa using find?_some hfind
    have hpd : pd = (ParamType.ptPtr m.ty m.attr, declr) :=
      inj_on_of_nodup_map h.nodup (mem_of_find?_eq_some hfind) hmem
        (hfound.trans hname.symm)
    rw [hfind, hpd] at hint
    cases hint

theorem StructDef.Accepted.member_ext (h : sd.Accepted env) (hm : m ∈ sd.members)
    (hm' : m' ∈ sd.members) (hname : m.name = m'.name) : m = m' := by
  obtain ⟨declr, hmem, hd⟩ := sd.mem_members hm
  obtain ⟨declr', hmem', hd'⟩ := sd.mem_members hm'
  have heq := inj_on_of_nodup_map h.nodup hmem hmem' (by
    show declr.identifier = declr'.identifier
    rw [hd, hd', hname])
  obtain ⟨hpt, -⟩ := Prod.mk.inj heq
  obtain ⟨hty, hattr⟩ := ParamType.ptPtr.inj hpt
  rcases m with ⟨name, ty, attr⟩
  rcases m' with ⟨name', ty', attr'⟩
  obtain ⟨rfl, rfl, rfl⟩ : name = name' ∧ ty = ty' ∧ attr = attr' := ⟨hname, hty, hattr⟩
  rfl

/-- Pointers and lengths of the sized members. -/
def StructDef.layout (env : CEnv) (undef : ℤ) (sd : StructDef) (h : sd.Accepted env) :
    Layout (String → ℤ) { m : Member // m ∈ sd.members } where
  ptr e m := (Value.of CInt.sizeT (e m.1.name)).toSize
  setPtr e m p := Function.update e m.1.name p
  len e m :=
    (lenValue undef (elemSize env m.1.ty m.1.attr) m.1.attr.size (valuesOf env sd.smlist e)).toSize
  lenOk e m := checkLength (elemSize env m.1.ty m.1.attr) m.1.attr.size (valuesOf env sd.smlist e)
  multOk m n := multipleOk env m.1.ty n
  ptr_lt _ _ := toSize_lt _
  len_lt _ _ := toSize_lt _
  ptr_setPtr_of_ne e m p m' hne := by
    rw [Function.update_of_ne fun hname => hne (Subtype.ext (h.member_ext m.2 m'.2 hname.symm))]
  len_setPtr e m p m' := by
    rw [(lenValue_congr undef _ fun s hs => ?_).1]
    rw [valuesOf, valuesOf, Function.update_of_ne (h.name_ne m.2 m'.2 hs).symm]
  lenOk_setPtr e m p m' := by
    refine (lenValue_congr undef _ fun s hs => ?_).2
    rw [valuesOf, valuesOf, Function.update_of_ne (h.name_ne m.2 m'.2 hs).symm]

theorem StructDef.Accepted.nodup_members (h : sd.Accepted env) : sd.members.Nodup := by
  have hnames := pairwise_map.mp h.nodup
  refine List.Pairwise.filterMap sizedMember (fun pd pd' hne m hm m' hm' heq => hne ?_) hnames
  have hname : ∀ pd : PDecl, ∀ m ∈ sizedMember pd, pd.2.identifier = m.name := by
    rintro ⟨_ | ⟨ty, attr⟩, declr⟩ m hm
    · cases hm
    · rw [sizedMember] at hm
      split_ifs at hm
      · cases hm
        rfl
      · cases hm
  rw [hname pd m hm, hname pd' m' hm', heq]

/-- **Deep copies.**  An `[in, out]` array of structures is copied into a block of the size that was
added up, and after a trusted function that may have changed the structures and the buffers, but not
the pairs in the block, it is copied back.  This is exact if and only if no member but the last was
`NULL` with a length, and the trusted function has left every member in order. -/
theorem deep_copy_exact_iff {undef : ℤ} (hsd : sd.Accepted env) {encl : Enclave}
    {mem : ℕ → ℕ → UInt8} {base size : ℕ} {es esIn es' : List (String → ℤ)} {c c' : Cursor}
    {block : List UInt8}
    (hsize : calculateElems (sd.layout env undef hsd) encl .ptrInOut sd.members.attach es 0 = .ok size)
    (hpos : c.pos = 0) (hentries : c.entries = []) (hblock : c.block.length = size)
    (hcopy : copyElems (sd.layout env undef hsd) .ptrInOut mem base sd.members.attach es c =
      .ok (esIn, c'))
    (hlen : es.length = es'.length)
    (hkept : ∀ x ∈ c'.entries, slice block x.offset 16 = slice c'.block x.offset 16) :
    Exact (sd.layout env undef hsd) encl sd.members.attach size es es'
        (backElems (sd.layout env undef hsd) encl block sd.members.attach es' ⟨0, none, []⟩) ↔
      (∀ x ∈ (pairs (sd.layout env undef hsd) sd.members.attach es).dropLast, x.1 = 0 → x.2 = 0) ∧
      ∀ x ∈ es.zip es', ∀ m ∈ sd.members.attach, BackOk (sd.layout env undef hsd) encl x.2 m
        ((sd.layout env undef hsd).ptr x.1 m) ((sd.layout env undef hsd).len x.1 m) :=
  backElems_exact_iff (nodup_attach.mpr hsd.nodup_members) hsize hpos hentries hblock hcopy hlen
    hkept

/-! ### A structure with a buffer -/

/-- `struct buf { size_t n; [size = n] void* p; }` -/
def buf : StructDef where
  sname := "buf"
  smlist :=
    [(.ptVal .sizeT, ⟨"n", []⟩),
      (.ptPtr (.ptr .void) ⟨.ptrNoDirection, ⟨some (.aString "n"), none⟩, false, false, false, false,
        false, true⟩, ⟨"p", []⟩)]

def bufEnv : CEnv := ⟨fun _ => 8, fun _ => 8, fun _ => none, [buf]⟩

theorem buf_accepted : buf.Accepted bufEnv where
  nodup := by decide
  ints := by
    intro m hm s hs
    obtain rfl := mem_singleton.mp hm
    rcases hs with hs | hs
    · cases hs
      decide
    · cases hs

/-- The value of a structure with a length and a pointer. -/
def bufValue (n p : ℤ) (s : String) : ℤ := if s = "n" then n else p

/-- The enclave is the 4 KiB from 0x10000 on. -/
def bufEnclave : Enclave where
  outside p n := p + n ≤ 0x10000 || 0x11000 ≤ p
  within p n := 0x10000 ≤ p && p + n ≤ 0x11000

/-- Two structures with buffers of 8 and 4 bytes. -/
def twoBuffers : List (String → ℤ) := [bufValue 8 0x1000, bufValue 4 0x2000]

/-- What a trusted function makes of them that shortens the second buffer. -/
def shortened : List (String → ℤ) := [bufValue 8 0x10010, bufValue 2 0x10028]

theorem deep_copy_exact_two :
    ∃ esIn c', copyElems (buf.layout bufEnv 0 buf_accepted) .ptrInOut (fun _ _ => 7) 0x10000
        buf.members.attach twoBuffers ⟨replicate 44 0, 0, 0, []⟩ = .ok (esIn, c') ∧
      esIn.map (fun e => e "p") = [0x10010, 0x10028] ∧
      Exact (buf.layout bufEnv 0 buf_accepted) bufEnclave buf.members.attach 44 twoBuffers shortened
        (backElems (buf.layout bufEnv 0 buf_accepted) bufEnclave c'.block buf.members.attach shortened
          ⟨0, none, []⟩) := by
  have hsize : calculateElems (buf.layout bufEnv 0 buf_accepted) bufEnclave .ptrInOut
      buf.members.attach twoBuffers 0 = .ok 44 := by rfl
  have hcopy : ∃ esIn c', copyElems (buf.layout bufEnv 0 buf_accepted) .ptrInOut (fun _ _ => 7) 0x10000
      buf.members.attach twoBuffers ⟨replicate 44 0, 0, 0, []⟩ = .ok (esIn, c') ∧
      esIn.map (fun e => e "p") = [0x10010, 0x10028] := ⟨_, _, rfl, rfl⟩
  obtain ⟨esIn, c', hcopy, hptrs⟩ := hcopy
  have hlen : twoBuffers.length = shortened.length := rfl
  refine ⟨esIn, c', hcopy, hptrs, ?_⟩
  refine (deep_copy_exact_iff buf_accepted hsize rfl rfl length_replicate hcopy hlen
    (fun x _ => rfl)).mpr ⟨by decide, ?_⟩
  intro x hx m hm
  obtain rfl := mem_singleton.mp hm
  rcases mem_pair.mp hx with rfl | rfl
  · exact ⟨rfl, fun _ _ => by decide⟩
  · exact ⟨rfl, fun _ _ => by decide⟩

/-- Two structures; the first has `NULL` and the length 8, the second a buffer of 8 bytes at
0x1000.  On the way back the cursor skips 8 bytes that are not there: the second pointer is taken
from the place of its length, the buffer is written to the address 8, and this is the pointer that
the host gets. -/
theorem out_of_step :
    ∃ esIn c' r, calculateElems (buf.layout bufEnv 0 buf_accepted) bufEnclave .ptrInOut
        buf.members.attach [bufValue 8 0, bufValue 8 0x1000] 0 = .ok 40 ∧
      copyElems (buf.layout bufEnv 0 buf_accepted) .ptrInOut
        (fun t _ => if t = 0 then 8 else 0) 0x10000 buf.members.attach
        [bufValue 8 0, bufValue 8 0x1000] ⟨replicate 40 0, 0, 0, []⟩ = .ok (esIn, c') ∧
      c'.entries = [⟨0, 0, 8⟩, ⟨16, 0x1000, 8⟩] ∧
      backElems (buf.layout bufEnv 0 buf_accepted) bufEnclave c'.block buf.members.attach esIn
        ⟨0, none, []⟩ = r ∧
      r.2.log = [⟨⟨0, 0, 8⟩, 0, 0⟩, ⟨⟨24, 8, 8⟩, 0x10020, 8⟩] ∧
      r.1.map (fun e => e "p") = [0, 8] := by
  refine ⟨_, _, _, by rfl, rfl, rfl, rfl, ?_, ?_⟩
  · decide
  · decide

end Edger8r
