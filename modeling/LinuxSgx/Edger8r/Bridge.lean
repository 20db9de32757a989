/-
Trusted bridges (`gen_func_tbridge` of `CodeGen.ml`).

The bridge of an ECALL reads the parameters from a marshalling structure in the memory of the host.
The code generator decides for every parameter which local variables there are, what is checked,
what is copied and what is passed to the trusted function.  Here it generates a list of statements,
one constructor for each form of C that is printed, and these are run while the host changes the
marshalling structure and its buffers between any two reads.

* `checkPtrAttr`, `FuncDecl.Accepted` — declarations that are accepted and compile;
* `Stmt`, `genFuncTbridge` — the generator;
* `Host`, `Machine`, `exec`, `runBridge` — what the statements do, with a trace of all accesses.
-/
import LinuxSgx.Edger8r.Structs

open CInt FlatFile

namespace Edger8r

/-! ### Declarations -/

def PtrSize.hasSize (ps : PtrSize) : Bool := ps.size.isSome

def PtrSize.hasCount (ps : PtrSize) : Bool := ps.count.isSome

def checkConst (fname : String) (attr : PtrAttr) (identifier : String) : Except String Unit :=
  if attr.rdonly then
    match attr.direction with
    | .ptrOut | .ptrInOut =>
      .error ("`" ++ fname ++ "': `" ++ identifier ++ "' is readonly - cannot be used with `out'")
    | _ => .ok ()
  else .ok ()

def checkVoidPtrSize (fname : String) (attr : PtrAttr) (identifier : String) : Except String Unit :=
  if attr.chkptr && !attr.size.hasSize then
    .error ("`" ++ fname ++ "': void pointer `" ++ identifier ++ "' - buffer size unknown")
  else .ok ()

def checkStringPtrSize (fname : String) (ty : AType) (attr : PtrAttr) (identifier : String) :
    Except String Unit :=
  if attr.isstr then
    match ty with
    | .ptr (.char _) => .ok ()
    | _ => .error ("`" ++ fname ++ "': invalid 'string' attribute - `" ++ identifier ++
        "' is not char pointer.")
  else if ty ≠ .ptr .wchar && attr.iswstr then
    .error ("`" ++ fname ++ "': invalid 'wstring' attribute - `" ++ identifier ++
      "' is not wchar_t pointer.")
  else .ok ()

def checkArrayDims (fname : String) (attr : PtrAttr) (declr : Declarator) : Except String Unit :=
  let refuse (name : String) : Except String Unit :=
    .error ("`" ++ fname ++ "': invalid '" ++ name ++ "' attribute - `" ++ declr.identifier ++
      "' is explicitly declared array.")
  if declr.isArray then
    if attr.size.hasSize then refuse "size"
    else if attr.size.hasCount then refuse "count"
    else if attr.isary then refuse "isary"
    else .ok ()
  else .ok ()

def checkPointerArray (fname : String) (ty : AType) (attr : PtrAttr) (declr : Declarator) :
    Except String Unit :=
  let isPointer := match ty with | .ptr _ => true | _ => attr.isptr
  if (declr.isArray || attr.isary) && isPointer then
    .error ("`" ++ fname ++ "': Pointer array not allowed - `" ++ declr.identifier ++
      "' is a pointer array.")
  else .ok ()

/-- The first check of a pointer: there is another one for `void*`. -/
def checkVoidOrArray (fname : String) (ty : AType) (attr : PtrAttr) (declr : Declarator) :
    Except String Unit :=
  if ty = .ptr .void then checkVoidPtrSize fname attr declr.identifier
  else checkPointerArray fname ty attr declr

/-- The check of `check_ptr_attr` on a parameter. -/
def checkPtrAttr (fname : String) : PDecl → Except String Unit
  | (.ptVal _, _) => .ok ()
  | (.ptPtr ty attr, declr) => do
    checkVoidOrArray fname ty attr declr
    checkConst fname attr declr.identifier
    checkStringPtrSize fname ty attr declr.identifier
    checkArrayDims fname attr declr

/-- An ECALL whose declaration is accepted and whose bridge compiles: the names of the parameters
are different, and the attributes name parameters of integer types. -/
structure FuncDecl.Accepted (env : CEnv) (fd : FuncDecl) : Prop where
  parsed : ∀ pd ∈ fd.plist, Parsed pd
  checked : ∀ pd ∈ fd.plist, checkPtrAttr fd.fname pd = .ok ()
  nodup : (fd.plist.map fun pd => pd.2.identifier).Nodup
  ints : ∀ ty attr declr, (ParamType.ptPtr ty attr, declr) ∈ fd.plist → ∀ s, attr.size.Names s →
    (intTypeOf env fd.plist s).isSome = true

/-! ### Statements -/

/-- The right-hand side of `size_t _len_x = …`. -/
inductive LenExpr where
  | sizeof (ty : AType)
  /-- `ms->ms_x_len` -/
  | strLen (x : String)
  /-- the product of the attributes -/
  | attrs (ty : AType) (attr : PtrAttr)
deriving DecidableEq, Repr

/-- An argument of the trusted function. -/
inductive Arg where
  /-- `ms->ms_x` -/
  | field (x : String)
  /-- `_tmp_x` -/
  | tmp (x : String)
  /-- `_in_x` -/
  | inn (x : String)
  /-- `(a != NULL) ? (*a) : NULL` -/
  | deref (a : Arg)
deriving DecidableEq, Repr

inductive Stmt where
  /-- `T _tmp_x = ms->ms_x` -/
  | tmp (x : String)
  /-- `size_t _len_x = …` -/
  | len (x : String) (e : LenExpr)
  /-- `T _in_x = NULL` -/
  | inPtr (x : String)
  /-- `if (size != 0 && (size_t)count > (SIZE_MAX / size)) return SGX_ERROR_INVALID_PARAMETER` -/
  | checkOverflow (ty : AType) (attr : PtrAttr)
  /-- `CHECK_UNIQUE_POINTER(_tmp_x, _len_x)` -/
  | checkPtr (x : String)
  /-- the code of `clone_in_ptr`; `ary` says that the declarator has dimensions -/
  | clone (x : String) (ty : AType) (attr : PtrAttr) (ary : Bool)
  | call (args : List Arg)
  /-- the code of `copy_and_free` -/
  | writeBack (x : String) (ty : AType) (attr : PtrAttr)
deriving DecidableEq, Repr

/-! ### The generator -/

/-- A local copy of a parameter that is the value of an attribute, unless there is one in the
cache. -/
def genTempVar (cache : List String) : Option AttrValue → List Stmt × List String
  | some (.aString s) => if s ∈ cache then ([], cache) else ([.tmp s], s :: cache)
  | _ => ([], cache)

def genTmpSize (cache : List String) (attr : PtrAttr) : List Stmt × List String :=
  let sizes := genTempVar cache attr.size.size
  let counts := genTempVar sizes.2 attr.size.count
  (sizes.1 ++ counts.1, counts.2)

/-- `gen_ptr_size` for a trusted bridge: the name of a local copy is never that of the parameter. -/
def genPtrSize (ty : AType) (attr : PtrAttr) (x : String) : LenExpr :=
  if attr.isary then .sizeof ty
  else if attr.isstr || attr.iswstr then .strLen x
  else .attrs ty attr

def doGenLocalVar (cache : List String) (ty : AType) (attr : PtrAttr) (x : String) :
    List Stmt × List String :=
  let sizes := if attr.chkptr then genTmpSize cache attr else ([], cache)
  let len := if attr.chkptr then [Stmt.len x (genPtrSize ty attr x)] else []
  let inPtr := if attr.direction = .ptrNoDirection then [] else [Stmt.inPtr x]
  (.tmp x :: (sizes.1 ++ len ++ inPtr), sizes.2)

def genLocalVarForForeignArray (ty : AType) (attr : PtrAttr) (x : String) : List Stmt :=
  match attr.direction with
  | .ptrNoDirection => []
  | _ => [.tmp x, .len x (.sizeof ty), .inPtr x]

def genLocalVar (cache : List String) : PDecl → List Stmt × List String
  | (.ptVal _, _) => ([], cache)
  | (.ptPtr ty attr, declr) =>
    if isForeignArray (.ptPtr ty attr) then
      (genLocalVarForForeignArray ty attr declr.identifier, cache)
    else doGenLocalVar cache ty attr declr.identifier

def genLocalVars (cache : List String) : List PDecl → List Stmt × List String
  | [] => ([], cache)
  | pd :: l =>
    let first := genLocalVar cache pd
    let rest := genLocalVars first.2 l
    (first.1 ++ rest.1, rest.2)

/-- The local variables, and the cache after them. -/
def genTbridgeLocalVars (plist : List PDecl) : List Stmt × List String :=
  genLocalVars [] (plist.map convArrayToPtr)

def genCheckTbridgeLengthOverflow (plist : List PDecl) : List Stmt :=
  plist.filterMap fun pd =>
    match pd.1 with
    | .ptVal _ => none
    | .ptPtr ty attr => if attr.size.hasCount then some (.checkOverflow ty attr) else none

def genCheckTbridgePtrParms (plist : List PDecl) : List Stmt :=
  (plist.map convArrayToPtr).filterMap fun pd =>
    match pd.1 with
    | .ptVal _ => none
    | .ptPtr _ attr => if attr.chkptr then some (.checkPtr pd.2.identifier) else none

def genParmPtrDirectionPre (plist : List PDecl) : List Stmt :=
  plist.filterMap fun pd =>
    match pd.1 with
    | .ptVal _ => none
    | .ptPtr ty attr =>
      if attr.direction = .ptrNoDirection then none
      else some (.clone pd.2.identifier ty attr pd.2.isArray)

def genParmPtrDirectionPost (plist : List PDecl) : List Stmt :=
  plist.filterMap fun pd =>
    match pd.1 with
    | .ptVal _ => none
    | .ptPtr ty attr =>
      match attr.direction with
      | .ptrInOut | .ptrOut => some (.writeBack pd.2.identifier ty attr)
      | _ => none

def mkParmNameExt (pt : ParamType) (x : String) : Arg :=
  match pt with
  | .ptVal _ => .field x
  | .ptPtr _ attr => if attr.direction = .ptrNoDirection then .field x else .inn x

def tbridgeMkParmNameExt (cache : List String) (pt : ParamType) (x : String) : Arg :=
  if x ∈ cache ∨ (isPtr pt ∧ ¬isForeignArray pt) then
    if ptrHasDirection pt then .inn x else .tmp x
  else mkParmNameExt pt x

def addForeignArrayPtrref (pt : ParamType) (a : Arg) : Arg :=
  if isForeignArray pt then .deref a else a

def mkParmNameTbridge (cache : List String) (pd : PDecl) : Arg :=
  addForeignArrayPtrref pd.1 (tbridgeMkParmNameExt cache pd.1 pd.2.identifier)

def genFuncTbridge (fd : FuncDecl) : List Stmt :=
  let locals := genTbridgeLocalVars fd.plist
  locals.1 ++ genCheckTbridgeLengthOverflow fd.plist ++ genCheckTbridgePtrParms fd.plist ++
    genParmPtrDirectionPre fd.plist ++ [.call (fd.plist.map (mkParmNameTbridge locals.2))] ++
    genParmPtrDirectionPost fd.plist

/-! ### Running a bridge -/

/-- A field of the marshalling structure: a parameter, or the length of a string. -/
inductive Field where
  | parm (x : String)
  | strLen (x : String)
deriving DecidableEq, Repr

/-- The buffer of a parameter; the buffer of a sized pointer in an array of structures, numbered in
the order of the loops, on the way in and on the way back; and the block for these. -/
inductive Buffer where
  | param (x : String)
  | member (x : String) (k : ℕ)
  | back (x : String) (k : ℕ)
  | block (x : String)
deriving DecidableEq, Repr

/-- What the trusted function gets: a number, or a pointer to the copy of a buffer, with the
structures in it if it is deep copied. -/
inductive Passed where
  | value (v : ℤ)
  | copy (x : String) (es : List (String → ℤ))

inductive Event where
  | readField (f : Field) (v : ℤ)
  | check (b : Buffer) (p n : ℕ)
  | alloc (b : Buffer) (n : ℕ)
  | read (b : Buffer) (p n : ℕ)
  | call (args : List Passed)
  | write (b : Buffer) (p n : ℕ)

/-- The memory of the host, which is another one at each time of a read. -/
structure Host where
  field : ℕ → Field → ℤ
  mem : ℕ → ℕ → UInt8

/-- The compiler, the enclave, and what the allocator and the trusted function do in a run. -/
structure Machine where
  env : CEnv
  accepted : ∀ sd ∈ env.structs, sd.Accepted env
  /-- the value of a product that C does not define -/
  undef : ℤ
  encl : Enclave
  /-- `malloc` succeeds for `_in_x` -/
  malloc : String → Bool
  /-- the address of the block for the members of `x` -/
  mallocBlock : String → Option ℕ
  /-- the structure with an index in an array of structures -/
  decode : StructDef → List UInt8 → ℕ → String → ℤ
  /-- what the trusted function leaves in `_in_x` -/
  after : String → List UInt8
  afterElems : String → List (String → ℤ)
  afterBlock : String → List UInt8

/-- The local variables, and a trace of the accesses. -/
structure State where
  /-- how many bytes and fields of the host were read -/
  time : ℕ
  tmp : String → ℤ
  len : String → ℕ
  /-- `_in_x` is not `NULL` -/
  inn : String → Bool
  /-- the structures in `_in_x`, if it is deep copied -/
  elems : String → List (String → ℤ)
  status : Option Status
  trace : List Event

def State.init : State := ⟨0, fun _ => 0, fun _ => 0, fun _ => false, fun _ => [], none, []⟩

def State.emit (s : State) (l : List Event) : State := { s with trace := s.trace ++ l }

/-- A number as a pointer. -/
def ptrOf (v : ℤ) : ℕ := (Value.of CInt.sizeT v).toSize

variable (M : Machine) (h : Host) (plist : List PDecl)

/-- A read of a field of the marshalling structure. -/
def readField (f : Field) (s : State) : ℤ × State :=
  (h.field s.time f, { s.emit [.readField f (h.field s.time f)] with time := s.time + 1 })

/-- The length of a buffer for the values of the local variables. -/
def lengthOf (ty : AType) (attr : PtrAttr) (tmp : String → ℤ) : ℕ :=
  (lenValue M.undef (elemSize M.env ty attr) attr.size (valuesOf M.env plist tmp)).toSize

/-- The value of a length that is not that of a string. -/
def LenExpr.eval (tmp : String → ℤ) : LenExpr → ℕ
  | .sizeof ty => M.env.sizeof ty
  | .strLen _ => 0
  | .attrs ty attr => lengthOf M plist ty attr tmp

/-- The structure of a deep copy. -/
def deepStruct (ty : AType) : Option { sd // sd ∈ M.env.structs } :=
  match ty with
  | .ptr (.struct name) =>
    (M.env.structs.attach.find? fun sd => sd.1.sname = name).filter fun sd => sd.1.members ≠ []
  | _ => none

/-- `sizeof(*_tmp_x)` -/
def targetSize (ty : AType) (ary : Bool) : ℕ :=
  if ary then M.env.sizeof ty else derefSize M.env ty

/-- The check that is printed by `check_size` is passed. -/
def checkSize (ty : AType) (attr : PtrAttr) (ary : Bool) (n : ℕ) : Bool :=
  if attr.isstr then true
  else if attr.iswstr then n % M.env.sizeof .wchar = 0
  else
    match ty with
    | .ptr .void | .ptr (.foreign _) | .foreign _ => true
    | .ptr (.struct name) =>
      (deepStruct M (.ptr (.struct name))).isNone || n % targetSize M (.ptr (.struct name)) ary = 0
    | ty => n % targetSize M ty ary = 0

/-- The buffers of members that are not empty. -/
def memberEvents (event : Buffer → ℕ → ℕ → Event) (x : String) (l : List (ℕ × ℕ)) : List Event :=
  (l.zipIdx.filter fun y => y.1.1 ≠ 0 ∧ y.1.2 ≠ 0).map fun y => event (.member x y.2) y.1.1 y.1.2

/-- The layout of the structures of a deep copy. -/
def layoutOf (sd : { sd // sd ∈ M.env.structs }) :
    Layout (String → ℤ) { m : Member // m ∈ sd.1.members } :=
  sd.1.layout M.env M.undef (M.accepted sd.1 sd.2)

/-- The first two loops of a deep copy of the structures `es`. -/
def deepCopyIn (x : String) (dir : PtrDirection) (sd : { sd // sd ∈ M.env.structs })
    (es : List (String → ℤ)) (s : State) : State × Option Status :=
  let l := pairs (layoutOf M sd) sd.1.members.attach es
  match calculateElems (layoutOf M sd) M.encl dir sd.1.members.attach es 0 with
  | .error e => (s, some e)
  | .ok size =>
    let s := s.emit (memberEvents .check x l ++ [.alloc (.block x) size])
    match M.mallocBlock x with
    | none => (s, some .outOfMemory)
    | some base =>
      match copyElems (layoutOf M sd) dir h.mem base sd.1.members.attach es
        ⟨List.replicate size 0, 0, s.time, []⟩ with
      | .error e => (s.emit (memberEvents .read x l), some e)
      | .ok (esIn, c) =>
        ({ s.emit (memberEvents .read x l) with
            time := c.time, elems := Function.update s.elems x esIn }, none)

/-- The character of a wide string at an index is 0. -/
def wideZero (w : ℕ) (data : List UInt8) (i : ℕ) : Bool := (slice data (w * i) w).all (· = 0)

/-- The copy of a string, which is terminated at its end, is not terminated before. -/
def stringOk (attr : PtrAttr) (n : ℕ) (data : List UInt8) : Bool :=
  if attr.isstr then (data.take (n - 1)).all (· ≠ 0)
  else if attr.iswstr then
    (List.range (n / M.env.sizeof .wchar - 1)).all fun i => !wideZero (M.env.sizeof .wchar) data i
  else true

/-- The structures in the copy of a buffer. -/
def structsIn (sd : StructDef) (n : ℕ) (data : List UInt8) : List (String → ℤ) :=
  (List.range (n / M.env.sizeof (.struct sd.sname))).map (M.decode sd data)

/-- The code of `clone_in_ptr` for a buffer that is not empty. -/
def cloneBuffer (x : String) (ty : AType) (attr : PtrAttr) (s : State) : State × Option Status :=
  let p := ptrOf (s.tmp x)
  let n := s.len x
  let inn := Function.update s.inn x true
  match attr.direction with
  | .ptrOut => ({ s.emit [.alloc (.param x) n] with inn := inn }, none)
  | dir =>
    let data := fetch h.mem s.time p n
    let s := { s.emit [.alloc (.param x) n, .read (.param x) p n] with time := s.time + n, inn := inn }
    match deepStruct M ty with
    | some sd => deepCopyIn M h x dir sd (structsIn M sd.1 n data) s
    | none => (s, if stringOk M attr n data then none else some .unexpected)

/-- The code of `clone_in_ptr`. -/
def cloneInPtr (x : String) (ty : AType) (attr : PtrAttr) (ary : Bool) (s : State) :
    State × Option Status :=
  if ptrOf (s.tmp x) = 0 ∨ s.len x = 0 then (s, none)
  else if checkSize M ty attr ary (s.len x) = false then
    (s, some (if attr.iswstr then .unexpected else .invalidParameter))
  else if M.malloc x = false then (s.emit [.alloc (.param x) (s.len x)], some .outOfMemory)
  else cloneBuffer M h x ty attr s

/-- `NULL` -/
def Passed.isNull (s : State) : Passed → Bool
  | .value v => ptrOf v = 0
  | .copy x _ => !s.inn x

def evalArg : Arg → State → Passed × State
  | .field x, s => (.value (readField h (.parm x) s).1, (readField h (.parm x) s).2)
  | .tmp x, s => (.value (s.tmp x), s)
  | .inn x, s => (.copy x (s.elems x), s)
  | .deref a, s =>
    let r := evalArg a s
    if r.1.isNull r.2 then r else evalArg a r.2

def evalArgs : List Arg → State → List Passed × State
  | [], s => ([], s)
  | a :: l, s =>
    let r := evalArg h a s
    let rest := evalArgs l r.2
    (r.1 :: rest.1, rest.2)

/-- The copies to pointers of structures; they are checked against the enclave. -/
def backEvents (x : String) (log : List Returned) : List Event :=
  (log.zipIdx.filter fun y => y.1.count ≠ 0).flatMap fun y =>
    [.check (.back x y.2) y.1.pair.ptr y.1.pair.len, .write (.back x y.2) y.1.pair.ptr y.1.count]

/-- The third loop of a deep copy. -/
def deepCopyBack (x : String) (dir : PtrDirection) (ty : AType) (s : State) : State :=
  match dir, deepStruct M ty with
  | .ptrInOut, some sd =>
    let r := (backElems (layoutOf M sd) M.encl (M.afterBlock x) sd.1.members.attach (M.afterElems x)
      ⟨0, s.status, []⟩).2
    { s.emit (backEvents x r.log) with status := r.status }
  | _, _ => s

/-- How much of a buffer is copied back: a string is terminated at its end and copied up to its
first 0. -/
def backLength (attr : PtrAttr) (n : ℕ) (data : List UInt8) : ℕ :=
  if attr.isstr then (data.take (n - 1)).findIdx (· = 0) + 1
  else if attr.iswstr then
    ((List.range (n / M.env.sizeof .wchar - 1)).findIdx (wideZero (M.env.sizeof .wchar) data) + 1) *
      M.env.sizeof .wchar
  else n

/-- The code of `copy_and_free`. -/
def copyBack (x : String) (ty : AType) (attr : PtrAttr) (s : State) : State :=
  if s.inn x then
    (deepCopyBack M x attr.direction ty s).emit
      [.write (.param x) (ptrOf (s.tmp x)) (backLength M attr (s.len x) (M.after x))]
  else s

/-- A statement; the second result is the status that it leaves the bridge with. -/
def exec : Stmt → State → State × Option Status
  | .tmp x, s =>
    let r := readField h (.parm x) s
    ({ r.2 with tmp := Function.update s.tmp x r.1 }, none)
  | .len x (.strLen y), s =>
    let r := readField h (.strLen y) s
    ({ r.2 with len := Function.update s.len x (ptrOf r.1) }, none)
  | .len x e, s => ({ s with len := Function.update s.len x (e.eval M plist s.tmp) }, none)
  | .inPtr x, s => ({ s with inn := Function.update s.inn x false }, none)
  | .checkOverflow ty attr, s =>
    (s, if checkLength (derefSize M.env ty) attr.size (valuesOf M.env plist s.tmp) then none
      else some .invalidParameter)
  | .checkPtr x, s =>
    if ptrOf (s.tmp x) = 0 then (s, none)
    else
      (s.emit [.check (.param x) (ptrOf (s.tmp x)) (s.len x)],
        if M.encl.outside (ptrOf (s.tmp x)) (s.len x) then none else some .invalidParameter)
  | .clone x ty attr ary, s => cloneInPtr M h x ty attr ary s
  | .call args, s =>
    let r := evalArgs h args s
    (r.2.emit [.call r.1], none)
  | .writeBack x ty attr, s => (copyBack M x ty attr s, none)

def execAll : List Stmt → State → State × Option Status
  | [], s => (s, none)
  | st :: l, s =>
    match exec M h plist st s with
    | (s, none) => execAll l s
    | (s, some e) => (s, some e)

/-- The bridge of an ECALL. -/
def runBridge (fd : FuncDecl) : State × Option Status :=
  execAll M h fd.plist (genFuncTbridge fd) State.init

end Edger8r
