/-
The parser for the ELF files of enclaves (`elfparser.cpp`).

The file lies in memory, and the parser follows the offsets in it without a look at its size, but for
those of the segments.  So what it reads is given by the memory from the start of the file on;
offsets are taken modulo 2^64, as addresses are.

* `Memory` — that memory, with the headers in it;
* `validateSegment`, `parseDyn`, … — the checks of the parser;
* `runParser` — all of them, with the segments and the dynamic table as the result.

The names of symbols are not stored here, and the metadata and the segment of thread data are only
checked; nothing below depends on them.
-/
import Mathlib.Algebra.Group.Nat.Defs
import Mathlib.Data.Nat.Basic
import Mathlib.Logic.Function.Basic

namespace Elf

abbrev Memory := UInt64 → UInt8

/-- `Elf64_Phdr`. -/
structure Phdr where
  type : ℕ
  flags : ℕ
  offset : UInt64
  vaddr : UInt64
  filesz : UInt64
  memsz : UInt64
  align : UInt64
  deriving DecidableEq

/-- `Elf64_Shdr`. -/
structure Shdr where
  name : UInt64
  addr : UInt64
  offset : UInt64
  size : UInt64
  addralign : UInt64
  entsize : UInt64

/-- `Elf64_Dyn`. -/
structure Dyn where
  tag : UInt64
  val : UInt64
  deriving DecidableEq

/-- `Elf64_Rela`. -/
structure Rela where
  offset : UInt64
  info : UInt64
  addend : UInt64
  deriving DecidableEq

/-- `ELF64_R_TYPE`. -/
def Rela.type (r : Rela) : ℕ := r.info.toNat % 2 ^ 32

abbrev DynInfo := ℕ → Dyn

def ptLoad : ℕ := 1
def ptDynamic : ℕ := 2
def ptTls : ℕ := 7

/-- `DT_NUM`, `DT_ADDRNUM`, `DT_ADDRRNGLO` and `DT_ADDRRNGHI`. -/
def dtNum : ℕ := 25
def dtAddrNum : ℕ := 11
def dtAddrRngLo : ℕ := 0x6ffffe00
def dtAddrRngHi : ℕ := 0x6ffffeff

/-- `ROUND_TO`. -/
def roundTo (x align : UInt64) : UInt64 := (x + (align - 1)) &&& ~~~(align - 1)

namespace Memory

variable (m : Memory)

/-- A number of `n` bytes. -/
def le : ℕ → UInt64 → ℕ
  | 0, _ => 0
  | n + 1, a => (m a).toNat + 256 * le n (a + 1)

def u64 (a : UInt64) : UInt64 := UInt64.ofNat (m.le 8 a)

def phdr (a : UInt64) : Phdr :=
  ⟨m.le 4 a, m.le 4 (a + 4), m.u64 (a + 8), m.u64 (a + 16), m.u64 (a + 32), m.u64 (a + 40),
    m.u64 (a + 48)⟩

def shdr (a : UInt64) : Shdr :=
  ⟨UInt64.ofNat (m.le 4 a), m.u64 (a + 16), m.u64 (a + 24), m.u64 (a + 32), m.u64 (a + 48),
    m.u64 (a + 56)⟩

def dyn (a : UInt64) : Dyn := ⟨m.u64 a, m.u64 (a + 8)⟩

def rela (a : UInt64) : Rela := ⟨m.u64 a, m.u64 (a + 8), m.u64 (a + 16)⟩

/-- An array of `n` structures. -/
def array {α : Type} (read : UInt64 → α) (start size : UInt64) (n : ℕ) : List α :=
  (List.range n).map fun i => read (start + size * UInt64.ofNat i)

/-- The program headers, from `e_phoff` on. -/
def phdrs : List Phdr := array m.phdr (m.u64 32) 56 (m.le 2 56)

/-- The section headers, from `e_shoff` on. -/
def shdrs : List Shdr := array m.shdr (m.u64 40) 64 (m.le 2 60)

/-- `strcmp(a, s) == 0`. -/
def strcmp (s : List Char) (a : UInt64) : Bool :=
  (s.map Char.toNat ++ [0]).zipIdx.all fun c => (m (a + UInt64.ofNat c.2)).toNat = c.1

def sectionByName (name : List Char) : Option Shdr :=
  let shstrtab := (m.shdr (m.u64 40 + 64 * UInt64.ofNat (m.le 2 62))).offset
  m.shdrs.find? fun sh => m.strcmp name (shstrtab + sh.name)

def sectionByAddr (addr : UInt64) : Option Shdr := m.shdrs.find? fun sh => sh.addr = addr

/-- `get_section_raw_data`. -/
def sectionRawData (addr : UInt64) : Option UInt64 := (m.sectionByAddr addr).map Shdr.offset

end Memory

/-! ### The checks -/

section Checks

variable (m : Memory)

def validateElfHeader : Bool :=
  m.le 4 0 = 0x464C457F ∧ m 4 = 2 ∧ m 5 = 1 ∧ m 6 = 1 ∧ m.le 2 16 = 3 ∧ m.le 2 54 = 56

/-- `get_bin_fmt`; the only format is `BF_ELF64`. -/
def getBinFmt : Bool := m.le 2 18 = 62

/-- What is compared for a segment: its first and its last address. -/
def Phdr.loadSeg (p : Phdr) : UInt64 × UInt64 := (p.vaddr, roundTo (p.vaddr + p.memsz) p.align - 1)

def isOverlap (p q : UInt64 × UInt64) : Bool := p.1 ≤ q.2 ∧ q.1 ≤ p.2

/-- `validate_segment`, with the segments seen so far. -/
def validateSegment (len : UInt64) : List Phdr → List Phdr → Bool
  | [], _ => true
  | p :: ps, seen =>
    if len < p.offset + p.filesz then false
    else if p.type = ptLoad then
      if p.align % 4096 ≠ 0 then false
      else if seen.any fun q => isOverlap p.loadSeg q.loadSeg then false
      else validateSegment len ps (seen ++ [p])
    else validateSegment len ps seen

/-- The index of `dyn_info` at which an entry is stored. -/
def dynIndex (tag : UInt64) : Option ℕ :=
  if tag.toNat < dtNum then some tag.toNat
  else if dtAddrRngLo < tag.toNat ∧ tag.toNat ≤ dtAddrRngHi then
    some (dtAddrRngHi - tag.toNat + dtNum)
  else none

/-- The loop of `parse_dyn`, with the addresses of the entries it reads; there is no result if it does
not end within the fuel or stores an entry behind the array. -/
def parseDynLoop : ℕ → UInt64 → DynInfo → Option (DynInfo × List UInt64)
  | 0, _, _ => none
  | n + 1, a, info =>
    let entry := m.dyn a
    if entry.tag = 0 then some (info, [a])
    else
      match dynIndex entry.tag with
      | none => (parseDynLoop n (a + 16) info).map fun r => (r.1, a :: r.2)
      | some i =>
        if i < dtNum + dtAddrNum then
          (parseDynLoop n (a + 16) (Function.update info i entry)).map fun r => (r.1, a :: r.2)
        else none

/-- `parse_dyn`: the table, unless there is none, and what was read. -/
def parseDyn (fuel : ℕ) : Option (Option DynInfo × List UInt64) :=
  match m.phdrs.find? fun p => p.type = ptDynamic with
  | none => some (none, [])
  | some p =>
    (parseDynLoop m fuel p.offset fun _ => ⟨0, 0⟩).map fun r =>
      (if (m.dyn p.offset).tag = 0 then none else some r.1, r.2)

/-- `check_symbol_table`: no symbol but a weak one is undefined. -/
def checkSymbolTable (info : DynInfo) : Bool :=
  match m.sectionByAddr (info 6).val with
  | none => false
  | some sh =>
    if sh.entsize = 0 then false
    else
      let n := (sh.size / sh.entsize).toNat % 2 ^ 32
      (List.range n).all fun idx =>
        let sym := sh.offset + 24 * UInt64.ofNat idx
        -- the names are read, which there have to be
        idx = 0 ∨ m.le 4 sym = 0 ∨ (m.sectionRawData (info 5).val).isSome ∧
          ¬(m.le 2 (sym + 6) = 0 ∧ (m (sym + 4)).toNat / 16 ≠ 2)

/-- `do_validate_reltab`, with the types of `R_X86_64_*` that are supported. -/
def doValidateReltab (reltab : Option UInt64) (n : ℕ) : Bool :=
  match reltab with
  | none => n = 0
  | some a => (Memory.array m.rela a 24 n).all fun r => r.type ∈ [8, 6, 7, 1, 0, 16, 17, 18]

def validateReltabs (info : DynInfo) : Bool :=
  (info 17).val = 0 ∧
    doValidateReltab m (m.sectionRawData (info 7).val) ((info 8).val.toNat % 2 ^ 32 / 24) ∧
    doValidateReltab m (m.sectionRawData (info 23).val) ((info 2).val.toNat % 2 ^ 32 / 24)

/-- `get_meta_property`. -/
def getMetaProperty : Bool :=
  match m.sectionByName ['.', 'n', 'o', 't', 'e', '.', 's', 'g', 'x', 'm', 'e', 't', 'a'] with
  | none => false
  | some sh =>
    sh.size = roundTo (UInt64.ofNat (12 + m.le 4 sh.offset + m.le 4 (sh.offset + 4))) sh.addralign ∧
      m.le 4 sh.offset = 13 ∧
      m.strcmp ['s', 'g', 'x', '_', 'm', 'e', 't', 'a', 'd', 'a', 't', 'a'] (sh.offset + 12)

/-- `build_regular_sections`: the segments to load, all of them accessible in some way. -/
def buildRegularSections : Option (List Phdr) :=
  if getMetaProperty m ∧ ∀ p ∈ m.phdrs, p.type = ptLoad ∨ p.type = ptTls → p.flags % 8 ≠ 0 then
    some (m.phdrs.filter fun p => p.type = ptLoad)
  else none

/-- What the parser knows of an enclave afterwards. -/
structure Parsed where
  dynInfo : DynInfo
  sections : List Phdr

/-- `run_parser`. -/
def runParser (fuel : ℕ) (len : UInt64) : Option Parsed := do
  guard (64 ≤ len ∧ validateElfHeader m ∧ getBinFmt m)
  guard (validateSegment len m.phdrs [])
  let (dyn, _) ← parseDyn m fuel
  let info ← dyn
  guard (checkSymbolTable m info ∧ validateReltabs m info)
  guard (m.sectionByName ['.', 'c', 't', 'o', 'r', 's']).isNone
  let sections ← buildRegularSections m
  some ⟨info, sections⟩

end Checks

/-- A memory with the given fields, each at its address and with its size. -/
def fields (l : List (UInt64 × ℕ × ℕ)) : Memory := fun a =>
  match l.find? fun f => (a - f.1).toNat < f.2.1 with
  | none => 0
  | some f => UInt8.ofNat (f.2.2 / 256 ^ (a - f.1).toNat)

/-- The fields of a small enclave, but for the `n` program headers, which start at 0x400, and the
entries of the dynamic table, which starts at 0x300. -/
def smallEnclave (n : ℕ) : List (UInt64 × ℕ × ℕ) :=
  [(0, 7, 0x010102464C457F), (16, 2, 3), (18, 2, 62), (32, 8, 0x400), (40, 8, 0x100), (54, 2, 56),
    (56, 2, n), (60, 2, 1),
    -- the section, which is that of the metadata and of the symbols
    (0x100, 4, 0x20), (0x118, 8, 0x200), (0x120, 8, 25), (0x130, 8, 1), (0x138, 8, 25),
    (0x200, 4, 13), (0x20C, 12, 0x617461646174656D5F786773),
    (0x220, 13, 0x6174656D7867732E65746F6E2E)]

/-- The fields of a program header. -/
def phdrFields (i : ℕ) (p : Phdr) : List (UInt64 × ℕ × ℕ) :=
  let a := 0x400 + 56 * UInt64.ofNat i
  [(a, 4, p.type), (a + 4, 4, p.flags), (a + 8, 8, p.offset.toNat), (a + 16, 8, p.vaddr.toNat),
    (a + 32, 8, p.filesz.toNat), (a + 40, 8, p.memsz.toNat), (a + 48, 8, p.align.toNat)]

/-- A small enclave with a dynamic table of one entry and one segment to load. -/
def oneSegment (p : Phdr) : Memory :=
  fields (smallEnclave 2 ++ phdrFields 0 ⟨ptDynamic, 4, 0x300, 0, 32, 32, 8⟩ ++ phdrFields 1 p ++
    [(0x300, 8, 22)])

/-- A small enclave with two segments of a page, and two pages between them. -/
def twoSegments : Memory :=
  fields (smallEnclave 3 ++ phdrFields 0 ⟨ptDynamic, 4, 0x300, 0, 32, 32, 8⟩ ++
    phdrFields 1 ⟨ptLoad, 5, 0, 0, 0x1000, 0x1000, 0x1000⟩ ++
    phdrFields 2 ⟨ptLoad, 6, 0, 0x3000, 0x1000, 0x1000, 0x1000⟩ ++ [(0x300, 8, 22)])

end Elf
