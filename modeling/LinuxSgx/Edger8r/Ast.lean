/-
Declarations of edger8r, and the sizes it prints (`Ast.ml`, `Parser.mly`, `CodeGen.ml`).

The code generator prints C; the length of a buffer is printed as a product and the check against
its overflow as a division, by different functions.  Here both are values of the C expressions that
are printed, for the values of the parameters or of the members of a structure that they name.

* `AType`, `PtrAttr`, `ParamType`, `FuncDecl`, `StructDef` — the syntax tree;
* `checkParamPtrAttr`, `convArrayToPtr` — what the parser accepts, and arrays as pointers;
* `CEnv` — what the C compiler knows about the types;
* `lenValue`, `checkLength` — the length of a buffer and its check;
* **`toSize_lenValue_eq_iff`** — when the length is the product of the attributes.
-/
import Mathlib.Data.List.Basic
import LinuxSgx.Lib.CInt

open CInt

namespace Edger8r

/-! ### The syntax tree -/

inductive Signedness where
  | signed
  | unsigned
deriving DecidableEq, Repr

inductive Shortness where
  | iShort
  | iLong
  | iNone
deriving DecidableEq, Repr

inductive AType where
  | char (sn : Signedness)
  | long (sn : Signedness)
  | llong (sn : Signedness)
  | int (sn : Signedness) (sh : Shortness)
  | float
  | double
  | ldouble
  | int8
  | int16
  | int32
  | int64
  | uint8
  | uint16
  | uint32
  | uint64
  | void
  | wchar
  | sizeT
  | struct (name : String)
  | union (name : String)
  | enum (name : String)
  | foreign (name : String)
  | ptr (ty : AType)
deriving DecidableEq, Repr

/-- The type as it is printed. -/
def getTystr : AType → String
  | .char .signed => "char"
  | .char .unsigned => "unsigned char"
  | .long .signed => "long"
  | .long .unsigned => "unsigned long"
  | .llong .signed => "long long"
  | .llong .unsigned => "unsigned long long"
  | .int sn sh =>
    (if sn = .unsigned then "unsigned " else "") ++
      (match sh with | .iShort => "short " | .iLong => "long " | .iNone => "") ++ "int"
  | .float => "float"
  | .double => "double"
  | .ldouble => "long double"
  | .int8 => "int8_t"
  | .int16 => "int16_t"
  | .int32 => "int32_t"
  | .int64 => "int64_t"
  | .uint8 => "uint8_t"
  | .uint16 => "uint16_t"
  | .uint32 => "uint32_t"
  | .uint64 => "uint64_t"
  | .void => "void"
  | .sizeT => "size_t"
  | .wchar => "wchar_t"
  | .struct name => "struct " ++ name
  | .union name => "union " ++ name
  | .enum name => "enum " ++ name
  | .foreign name => name
  | .ptr ty => getTystr ty ++ "*"

inductive PtrDirection where
  | ptrIn
  | ptrOut
  | ptrInOut
  | ptrNoDirection
deriving DecidableEq, Repr

/-- The value of `size` or `count`. -/
inductive AttrValue where
  | aString (s : String)
  | aNumber (n : ℤ)
deriving DecidableEq, Repr

structure PtrSize where
  size : Option AttrValue
  count : Option AttrValue
deriving DecidableEq, Repr

def emptyPtrSize : PtrSize := ⟨none, none⟩

structure PtrAttr where
  direction : PtrDirection
  size : PtrSize
  isptr : Bool
  isary : Bool
  isstr : Bool
  iswstr : Bool
  rdonly : Bool
  /-- false for `user_check` -/
  chkptr : Bool
deriving DecidableEq, Repr

inductive ParamType where
  | ptVal (ty : AType)
  | ptPtr (ty : AType) (attr : PtrAttr)
deriving DecidableEq, Repr

structure Declarator where
  identifier : String
  arrayDims : List ℤ
deriving DecidableEq, Repr

abbrev PDecl := ParamType × Declarator

structure StructDef where
  sname : String
  smlist : List PDecl
deriving DecidableEq, Repr

structure FuncDecl where
  fname : String
  rtype : AType
  plist : List PDecl
deriving DecidableEq, Repr

def Declarator.isArray (declr : Declarator) : Bool := declr.arrayDims ≠ []

def isForeignArray : ParamType → Bool
  | .ptPtr (.foreign _) attr => attr.isary
  | _ => false

def ptrHasDirection : ParamType → Bool
  | .ptVal _ => false
  | .ptPtr _ attr => attr.direction ≠ .ptrNoDirection

def isPtr : ParamType → Bool
  | .ptVal _ => false
  | .ptPtr _ _ => true

/-- `int array[10][20]` is `[count = 200] int* array`. -/
def convArrayToPtr : PDecl → PDecl
  | (.ptVal ty, declr) => (.ptVal ty, declr)
  | (.ptPtr ty attr, declr) =>
    if declr.isArray then
      (.ptPtr (.ptr ty) { attr with size := ⟨none, some (.aNumber (declr.arrayDims.foldl (· * ·) 1))⟩ },
        { declr with arrayDims := [] })
    else (.ptPtr ty attr, declr)

@[simp] theorem convArrayToPtr_identifier (pd : PDecl) :
    (convArrayToPtr pd).2.identifier = pd.2.identifier := by
  rcases pd with ⟨_ | ⟨ty, attr⟩, declr⟩
  · rfl
  · simp only [convArrayToPtr]
    split <;> rfl

/-! ### The checks of the parser -/

def hasStrAttr (attr : PtrAttr) : Except String Bool :=
  if attr.isstr && attr.iswstr then .error "`string' and `wstring' are mutual exclusive"
  else .ok (attr.isstr || attr.iswstr)

def checkInvalidPtrSize (attr : PtrAttr) : Except String PtrAttr := do
  if attr.size ≠ emptyPtrSize && (← hasStrAttr attr) then
    throw "size attributes are mutual exclusive with (w)string attribute"
  else if (attr.size ≠ emptyPtrSize || (← hasStrAttr attr)) &&
      attr.direction = .ptrNoDirection then
    throw "size/string attributes must be used with pointer direction"
  else return attr

def checkPtrDir (attr : PtrAttr) : Except String PtrAttr := do
  if attr.direction ≠ .ptrNoDirection && attr.chkptr = false then
    throw "pointer direction and `user_check' are mutual exclusive"
  else if attr.direction = .ptrNoDirection && attr.chkptr then
    throw "pointer/array should have direction attribute or `user_check'"
  else if attr.direction = .ptrOut && (← hasStrAttr attr) then
    throw "string/wstring should be used with an `in' attribute"
  else return attr

def checkInvalidAryAttr (attr : PtrAttr) : Except String PtrAttr := do
  if attr.size ≠ emptyPtrSize then
    throw "Pointer size attributes cannot be used with foreign array"
  else if attr.isptr = false then
    if attr.chkptr && attr.direction = .ptrNoDirection then
      throw "array must have direction attribute or `user_check'"
    else return attr
  else if ← hasStrAttr attr then
    throw "`isary' cannot be used with `string/wstring' together"
  else throw "`isary' cannot be used with `isptr' together"

/-- The checks of `get_param_ptr_attr` on the attributes of a parameter. -/
def checkParamPtrAttr (attr : PtrAttr) : Except String PtrAttr :=
  if attr.isary then checkInvalidAryAttr attr
  else checkInvalidPtrSize attr >>= checkPtrDir

def AType.isForeign : AType → Bool
  | .ptr ty => ty.isForeign
  | .foreign _ => true
  | _ => false

def AType.isBareForeign : AType → Bool
  | .foreign _ => true
  | _ => false

/-- The semantic action of `param_type` for a type with a block of attributes; `isAry` says whether
the identifier is followed by dimensions. -/
def attributedParamType (attr : PtrAttr) (ty : AType) (isAry : Bool) : Except String ParamType := do
  let attr ← checkParamPtrAttr attr
  if attr.isptr && !ty.isBareForeign then
    throw ("'isptr', attributes are only for user defined type, not for `" ++ getTystr ty ++ "'.")
  else if attr.isary && !ty.isBareForeign then
    throw ("'isary', attributes are only for user defined type, not for `" ++ getTystr ty ++ "'.")
  else if attr.rdonly && !ty.isForeign then
    throw ("'readonly', attributes are only for user defined type, not for `" ++ getTystr ty ++ "'.")
  else if attr.rdonly && !attr.isptr then
    throw "'readonly' attribute is only used with 'isptr' attribute."
  else
    match ty with
    | .ptr _ => return .ptPtr ty attr
    | .foreign s =>
      if attr.isptr || attr.isary || isAry then return .ptPtr ty attr
      else throw ("`" ++ s ++ "' is considered plain type but decorated with pointer attributes")
    | _ =>
      if isAry then return .ptPtr ty attr
      else throw ("unexpected pointer attributes for `" ++ getTystr ty ++ "'")

/-- The semantic action of `param_type` for `const` and a pointer. -/
def constParamType (attr : PtrAttr) (ty : AType) : Except String ParamType := do
  let attr ← checkParamPtrAttr attr
  return .ptPtr (.ptr ty) { attr with rdonly := true }

/-- A parameter as the parser builds it.  A type without attributes is one that is passed by value,
since pointers and arrays need a direction or `user_check`. -/
inductive Parsed : PDecl → Prop where
  | val {ty : AType} {declr : Declarator} (h : ∀ t, ty ≠ .ptr t) (hary : declr.isArray = false) :
    Parsed (.ptVal ty, declr)
  | attributed {attr : PtrAttr} {ty : AType} {declr : Declarator} {pt : ParamType}
    (h : attributedParamType attr ty declr.isArray = .ok pt) : Parsed (pt, declr)
  | const {attr : PtrAttr} {ty : AType} {declr : Declarator} {pt : ParamType}
    (h : constParamType attr ty = .ok pt) : Parsed (pt, declr)

/-! ### Sizes -/

/-- What the C compiler knows about the types of an EDL file. -/
structure CEnv where
  sizeof : AType → ℕ
  /-- `sizeof(*p)` for a pointer `p` of a foreign type -/
  pointee : String → ℕ
  /-- the integer types among the foreign ones -/
  typedefs : String → Option IntType
  /-- the structures of the EDL file -/
  structs : List StructDef

/-- The integer type that a type is. -/
def CEnv.intType (env : CEnv) : AType → Option IntType
  | .char .signed => some ⟨true, .w8⟩
  | .char .unsigned => some ⟨false, .w8⟩
  | .long .signed => some ⟨true, .w64⟩
  | .long .unsigned => some ⟨false, .w64⟩
  | .llong .signed => some ⟨true, .w64⟩
  | .llong .unsigned => some ⟨false, .w64⟩
  | .int sn .iShort => some ⟨sn = .signed, .w16⟩
  | .int sn .iLong => some ⟨sn = .signed, .w64⟩
  | .int sn .iNone => some ⟨sn = .signed, .w32⟩
  | .int8 => some ⟨true, .w8⟩
  | .int16 => some ⟨true, .w16⟩
  | .int32 => some ⟨true, .w32⟩
  | .int64 => some ⟨true, .w64⟩
  | .uint8 => some ⟨false, .w8⟩
  | .uint16 => some ⟨false, .w16⟩
  | .uint32 => some ⟨false, .w32⟩
  | .uint64 => some ⟨false, .w64⟩
  | .wchar => some ⟨true, .w32⟩
  | .sizeT => some CInt.sizeT
  | .enum _ => some ⟨false, .w32⟩
  | .foreign name => env.typedefs name
  | _ => none

/-- The value of an attribute, for the values of the names. -/
def attrValue (vals : String → Value) : AttrValue → Value
  | .aString s => vals s
  | .aNumber n => .lit n

/-- The size of an element where there is no attribute `size`, for the length. -/
def elemSize (env : CEnv) (ty : AType) (attr : PtrAttr) : ℕ :=
  match ty with
  | .ptr ty => env.sizeof ty
  | .foreign s => if attr.isptr then env.pointee s else env.sizeof ty
  | _ => env.sizeof ty

/-- The size of an element where there is no attribute `size`, in the check of a parameter. -/
def derefSize (env : CEnv) : AType → ℕ
  | .ptr ty => env.sizeof ty
  | .foreign s => env.pointee s
  | _ => 0

/-- `size_str` -/
def sizeValue (elem : ℕ) (ps : PtrSize) (vals : String → Value) : Value :=
  match ps.size with
  | some a => attrValue vals a
  | none => .of CInt.sizeT elem

/-- The length that `do_ps_attribute` prints. -/
def lenValue (undef : ℤ) (elem : ℕ) (ps : PtrSize) (vals : String → Value) : Value :=
  match ps.count with
  | none => sizeValue elem ps vals
  | some a => .mul undef (attrValue vals a) (sizeValue elem ps vals)

/-- The check that `gen_check_overflow` prints is passed. -/
def checkLength (elem : ℕ) (ps : PtrSize) (vals : String → Value) : Bool :=
  match ps.count with
  | none => true
  | some a =>
    let size := sizeValue elem ps vals
    !(size.val ≠ 0 && (2 ^ 64 - 1) / size.toSize < (attrValue vals a).toSize)

/-- The number of elements, 1 if there is no attribute `count`. -/
def countValue (ps : PtrSize) (vals : String → Value) : ℤ :=
  match ps.count with
  | none => 1
  | some a => (attrValue vals a).val

/-- The C type of the length. -/
def lenType (elem : ℕ) (ps : PtrSize) (vals : String → Value) : IntType :=
  match ps.count with
  | none => (sizeValue elem ps vals).type
  | some a => usual (attrValue vals a).type (sizeValue elem ps vals).type

/-- **Lengths.**  The length is the product of the attributes, whatever an undefined product is, if
and only if this product is not negative and a value of the C type of the length. -/
theorem toSize_lenValue_eq_iff (elem : ℕ) (ps : PtrSize) (vals : String → Value) :
    (∀ undef, ((lenValue undef elem ps vals).toSize : ℤ) =
      countValue ps vals * (sizeValue elem ps vals).val) ↔
    0 ≤ countValue ps vals * (sizeValue elem ps vals).val ∧
      (lenType elem ps vals).Mem (countValue ps vals * (sizeValue elem ps vals).val) := by
  rcases hcount : ps.count with _ | a
  · simp only [lenValue, countValue, lenType, hcount, one_mul]
    rw [Value.toSize_eq_iff]
    exact ⟨fun h => ⟨h 0, (sizeValue elem ps vals).mem⟩, fun h _ => h.1⟩
  · simp only [lenValue, countValue, lenType, hcount]
    exact toSize_mul_eq_iff _ _

/-- The check is enough for a length of the type `size_t`. -/
theorem mem_of_checkLength {elem : ℕ} {ps : PtrSize} {vals : String → Value}
    (htype : lenType elem ps vals = CInt.sizeT) (hcheck : checkLength elem ps vals = true)
    (hcount : 0 ≤ countValue ps vals) (hsize : 0 ≤ (sizeValue elem ps vals).val) :
    CInt.sizeT.Mem (countValue ps vals * (sizeValue elem ps vals).val) := by
  rcases hps : ps.count with _ | a
  · rw [← htype]
    simp only [lenType, countValue, hps, one_mul]
    exact (sizeValue elem ps vals).mem
  · simp only [checkLength, countValue, hps] at hcheck hcount ⊢
    have hc := (Value.toSize_eq_iff (attrValue vals a)).mpr hcount
    have hs := (Value.toSize_eq_iff (sizeValue elem ps vals)).mpr hsize
    refine ⟨mul_nonneg hcount hsize, ?_⟩
    show (attrValue vals a).val * (sizeValue elem ps vals).val < 0 + 2 ^ 64
    by_cases hzero : (sizeValue elem ps vals).val = 0
    · rw [hzero, mul_zero]
      decide
    · simp only [hzero, ne_eq, not_false_eq_true, decide_true, Bool.true_and, Bool.not_eq_true',
        decide_eq_false_iff_not, not_lt] at hcheck
      have hpos : 0 < (sizeValue elem ps vals).toSize := by omega
      have hle := (Nat.le_div_iff_mul_le hpos).mp hcheck
      rw [← hc, ← hs]
      exact_mod_cast (show _ < 2 ^ 64 by omega)

end Edger8r
