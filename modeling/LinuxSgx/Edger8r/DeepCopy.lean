/-
Deep copies of structures in trusted bridges (`CodeGen.ml`).

For a parameter that is an array of structures with sized pointers, three loops are printed: one adds
up what is needed, one copies the buffers into a block and puts pointers into it into the structures,
and after the call one copies them back.  For `[in, out]` the second loop writes pointer and length
of every member into the block, in front of the buffer, and the third one reads them.

* `Layout` — pointers and lengths of the members of a structure;
* `calculateElems`, `copyElems`, `backElems` — the three loops;
* `place` — where pointers and lengths are, for the room that is left for a buffer;
* **`backElems_exact_iff`** — the third loop finds everything where the second one has put it, and
  goes through to its end, if and only if no `NULL` has a length (the last member apart) and the
  trusted function has left every member in order.
-/
import LinuxSgx.Lib.Checks
import LinuxSgx.Lib.FlatFile
import LinuxSgx.Edger8r.Ast

open CInt Checks FlatFile List

namespace Edger8r

/-- `sgx_status_t`, as far as bridges return it; success is the result `ok`. -/
inductive Status where
  | invalidParameter
  | outOfMemory
  | unexpected
deriving DecidableEq, Repr

/-- `sgx_is_outside_enclave` and `sgx_is_within_enclave`. -/
structure Enclave where
  outside : ℕ → ℕ → Bool
  within : ℕ → ℕ → Bool

/-- The sized pointers of a structure: `E` are its values and `M` its members. -/
structure Layout (E M : Type) where
  ptr : E → M → ℕ
  setPtr : E → M → ℕ → E
  len : E → M → ℕ
  /-- the overflow check of the length -/
  lenOk : E → M → Bool
  /-- the length is a multiple of the size of the type -/
  multOk : M → ℕ → Bool
  ptr_lt : ∀ e m, ptr e m < 2 ^ 64
  len_lt : ∀ e m, len e m < 2 ^ 64
  ptr_setPtr_of_ne : ∀ e m p m', m ≠ m' → ptr (setPtr e m p) m' = ptr e m'
  len_setPtr : ∀ e m p m', len (setPtr e m p) m' = len e m'
  lenOk_setPtr : ∀ e m p m', lenOk (setPtr e m p) m' = lenOk e m'

section Walks

variable {E M : Type} (L : Layout E M) (encl : Enclave) (dir : PtrDirection)

/-! ### Sizing -/

/-- `ADD_ASSIGN_OVERFLOW` -/
def addAssign (a b : ℕ) : Except Status ℕ :=
  if (a + b) % 2 ^ 64 < b then .error .invalidParameter else .ok ((a + b) % 2 ^ 64)

/-- The bytes of a pointer and a length, which are kept for `[in, out]`. -/
def headerSize : PtrDirection → ℕ
  | .ptrInOut => 16
  | _ => 0

/-- The first lines of `gen_struct_ptr_direction_pre_calculate`. -/
def addHeader (size : ℕ) : Except Status ℕ :=
  if dir = .ptrInOut then addAssign size (8 + 8) else .ok size

/-- The code of `gen_struct_ptr_direction_pre_calculate`. -/
def calculateMember (e : E) (m : M) (size : ℕ) : Except Status ℕ := do
  let size ← addHeader dir size
  require (L.lenOk e m = true) .invalidParameter
  if L.ptr e m ≠ 0 ∧ L.len e m ≠ 0 then
    require (encl.outside (L.ptr e m) (L.len e m) = true) .invalidParameter
    require (L.multOk m (L.len e m) = true) .invalidParameter
    addAssign size (L.len e m)
  else pure size

def calculateMembers (e : E) : List M → ℕ → Except Status ℕ
  | [], size => .ok size
  | m :: ms, size => do
    let size ← calculateMember L encl dir e m size
    calculateMembers e ms size

def calculateElems (ms : List M) : List E → ℕ → Except Status ℕ
  | [], size => .ok size
  | e :: es, size => do
    let size ← calculateMembers L encl dir e ms size
    calculateElems ms es size

/-! ### Copying in -/

/-- A `size_t` in memory. -/
def le64 (n : ℕ) : List UInt8 := (List.range 8).map fun i => UInt8.ofNat (n / 256 ^ i)

/-- The `size_t` at an address. -/
def load64 (b : List UInt8) (p : ℕ) : ℕ := (slice b p 8).foldr (fun x n => x.toNat + 256 * n) 0

/-- A pair of a pointer and a length in the block, with its offset. -/
structure Entry where
  offset : ℕ
  ptr : ℕ
  len : ℕ
deriving DecidableEq, Repr

/-- The block, the cursor `__tmp__in_s` in it, how many bytes of the host were read, and what was
put into the block, which is not in the code. -/
structure Cursor where
  block : List UInt8
  pos : ℕ
  time : ℕ
  entries : List Entry

/-- `n` bytes of the host, which may change its memory between any two of them. -/
def fetch (mem : ℕ → ℕ → UInt8) (time p n : ℕ) : List UInt8 :=
  (List.range n).map fun i => mem (time + i) (p + i)

/-- Pointer and length are written for `[in, out]`. -/
def putHeader (p n : ℕ) (c : Cursor) : Cursor :=
  if dir = .ptrInOut then
    { c with
      block := overwrite (overwrite c.block c.pos (le64 p)) (c.pos + 8) (le64 n)
      pos := c.pos + 8 + 8
      entries := c.entries ++ [⟨c.pos, p, n⟩] }
  else { c with entries := c.entries ++ [⟨c.pos, p, n⟩] }

/-- The code of `gen_struct_ptr_direction_pre_copy`; `base` is the address of the block. -/
def copyMember (mem : ℕ → ℕ → UInt8) (base : ℕ) (e : E) (m : M) (c : Cursor) :
    Except Status (E × Cursor) := do
  let p := L.ptr e m
  let n := L.len e m
  let c := putHeader dir p n c
  if p ≠ 0 ∧ n ≠ 0 then
    require (L.multOk m n = true) .unexpected
    return (L.setPtr e m (base + c.pos),
      { c with
        block := overwrite c.block c.pos (fetch mem c.time p n)
        pos := c.pos + n
        time := c.time + n })
  else return (L.setPtr e m 0, c)

def copyMembers (mem : ℕ → ℕ → UInt8) (base : ℕ) :
    List M → E → Cursor → Except Status (E × Cursor)
  | [], e, c => .ok (e, c)
  | m :: ms, e, c => do
    let (e, c) ← copyMember L dir mem base e m c
    copyMembers mem base ms e c

def copyElems (mem : ℕ → ℕ → UInt8) (base : ℕ) (ms : List M) :
    List E → Cursor → Except Status (List E × Cursor)
  | [], c => .ok ([], c)
  | e :: es, c => do
    let (e, c) ← copyMembers L dir mem base ms e c
    let (es, c) ← copyElems mem base ms es c
    return (e :: es, c)

/-! ### Copying back -/

/-- What was done for a member: the pair that was read from the block, and the `count` bytes at
`source` that were copied to the pointer. -/
structure Returned where
  pair : Entry
  source : ℕ
  count : ℕ
deriving DecidableEq, Repr

def Returned.copied (x : Returned) : ℕ × ℕ := (x.source, x.count)

/-- The cursor of the third loop; `status` is `none` as long as there was no error.  The log is not
in the code. -/
structure Back where
  pos : ℕ
  status : Option Status
  log : List Returned
deriving DecidableEq, Repr

/-- The code of `gen_struct_ptr_direction_post` for `[in, out]`; after an error the loop ends. -/
def backMember (block : List UInt8) (e : E) (m : M) (s : Back) : E × Back :=
  if s.status.isSome then (e, s)
  else
    let p := load64 block s.pos
    let n := load64 block (s.pos + 8)
    let failed (error : Status) : Back :=
      ⟨s.pos + 8 + 8, some error, s.log ++ [⟨⟨s.pos, p, n⟩, L.ptr e m, 0⟩]⟩
    if L.lenOk e m = false then (e, failed .invalidParameter)
    else if L.ptr e m ≠ 0 ∧ L.len e m ≠ 0 then
      if n < L.len e m ∨ L.multOk m n = false then (e, failed .invalidParameter)
      else if encl.within (L.ptr e m) (L.len e m) = false ∨ encl.outside p n = false then
        (e, failed .invalidParameter)
      -- `memcpy_s` refuses `NULL`
      else if p = 0 then (e, failed .unexpected)
      else (L.setPtr e m p,
        ⟨s.pos + 8 + 8 + n, none, s.log ++ [⟨⟨s.pos, p, n⟩, L.ptr e m, L.len e m⟩]⟩)
    else (L.setPtr e m p,
      ⟨s.pos + 8 + 8 + n, none, s.log ++ [⟨⟨s.pos, p, n⟩, L.ptr e m, 0⟩]⟩)

def backMembers (block : List UInt8) : List M → E → Back → E × Back
  | [], e, s => (e, s)
  | m :: ms, e, s =>
    let r := backMember L encl block e m s
    backMembers block ms r.1 r.2

def backElems (block : List UInt8) (ms : List M) : List E → Back → List E × Back
  | [], s => ([], s)
  | e :: es, s =>
    let r := backMembers L encl block ms e s
    let rest := backElems block ms es r.2
    (r.1 :: rest.1, rest.2)

/-! ### Numbers in the block -/

theorem foldr_bytes (n k : ℕ) :
    ((List.range k).map fun i => UInt8.ofNat (n / 256 ^ i)).foldr (fun x n => x.toNat + 256 * n) 0 =
      n % 256 ^ k := by
  induction k generalizing n with
  | zero =>
    rw [pow_zero, Nat.mod_one]
    rfl
  | succ k ih =>
    have hrest : ((List.range k).map (fun i => UInt8.ofNat (n / 256 ^ (i + 1)))).foldr
        (fun x n => x.toNat + 256 * n) 0 = n / 256 % 256 ^ k := by
      rw [← ih (n / 256)]
      congr 2
      funext i
      rw [pow_succ', Nat.div_div_eq_div_mul]
    rw [range_succ_eq_map, map_cons, List.map_map, foldr_cons]
    rw [show ((fun i => UInt8.ofNat (n / 256 ^ i)) ∘ Nat.succ) =
      fun i => UInt8.ofNat (n / 256 ^ (i + 1)) from rfl, hrest, pow_zero, Nat.div_one, pow_succ',
      Nat.mod_mul, UInt8.toNat_ofNat']

variable {n p : ℕ} {b : List UInt8}

theorem load64_of_slice (hn : n < 2 ^ 64) (h : slice b p 8 = le64 n) : load64 b p = n := by
  rw [load64, h, le64, foldr_bytes, Nat.mod_eq_of_lt (by norm_num; exact hn)]

theorem length_le64 (n : ℕ) : (le64 n).length = 8 := by
  rw [le64, length_map, length_range]

theorem length_fetch (mem : ℕ → ℕ → UInt8) (t p n : ℕ) : (fetch mem t p n).length = n := by
  rw [fetch, length_map, length_range]

variable {d : List UInt8} {q : ℕ}

theorem slice_overwrite_before (hq : q ≤ b.length) (h : p + n ≤ q) :
    slice (overwrite b q d) p n = slice b p n := by
  refine ext_getElem? fun i => ?_
  simp only [slice, List.getElem?_take, List.getElem?_drop]
  split
  · rw [getElem?_overwrite hq, if_pos (by omega)]
  · rfl

theorem slice_overwrite_self (hq : q ≤ b.length) : slice (overwrite b q d) q d.length = d := by
  refine ext_getElem? fun i => ?_
  simp only [slice, List.getElem?_take, List.getElem?_drop]
  split
  · rename_i hi
    rw [getElem?_overwrite hq, if_neg (by omega), if_pos (by omega), Nat.add_sub_cancel_left]
  · rw [List.getElem?_eq_none (by omega)]

theorem length_overwrite_within (h : q + d.length ≤ b.length) :
    (overwrite b q d).length = b.length := by
  rw [overwrite, length_append, length_append, length_take, length_drop]
  omega

/-! ### Places in the block -/

/-- The room for the buffer of a member: there is none for `NULL`. -/
def need (p n : ℕ) : ℕ := if p ≠ 0 ∧ n ≠ 0 then n else 0

/-- The room of a block. -/
def total (f : ℕ → ℕ → ℕ) (l : List (ℕ × ℕ)) : ℕ := (l.map fun x => 16 + f x.1 x.2).sum

/-- Pairs of pointers and lengths from an offset on, if `f` is the room for the buffer behind them. -/
def place (f : ℕ → ℕ → ℕ) : ℕ → List (ℕ × ℕ) → List Entry
  | _, [] => []
  | c, x :: l => ⟨c, x.1, x.2⟩ :: place f (c + (16 + f x.1 x.2)) l

/-- The pointers and lengths of all members, in order. -/
def pairs (ms : List M) (es : List E) : List (ℕ × ℕ) :=
  es.flatMap fun e => ms.map fun m => (L.ptr e m, L.len e m)

theorem total_cons (f : ℕ → ℕ → ℕ) (x : ℕ × ℕ) (l : List (ℕ × ℕ)) :
    total f (x :: l) = 16 + f x.1 x.2 + total f l := by
  rw [total, total, map_cons, sum_cons]

theorem total_append (f : ℕ → ℕ → ℕ) (l l' : List (ℕ × ℕ)) :
    total f (l ++ l') = total f l + total f l' := by
  rw [total, total, total, map_append, List.sum_append]

theorem place_append (f : ℕ → ℕ → ℕ) (c : ℕ) (l l' : List (ℕ × ℕ)) :
    place f c (l ++ l') = place f c l ++ place f (c + total f l) l' := by
  induction l generalizing c with
  | nil => rfl
  | cons x l ih =>
    rw [List.cons_append, place, place, ih, total_cons, List.cons_append, Nat.add_assoc,
      Nat.add_assoc]

theorem map_place (f : ℕ → ℕ → ℕ) (c : ℕ) (l : List (ℕ × ℕ)) :
    (place f c l).map (fun x => (x.ptr, x.len)) = l := by
  induction l generalizing c with
  | nil => rfl
  | cons x l ih => rw [place, map_cons, ih]

variable {l : List (ℕ × ℕ)}

/-- Two rooms lead to the same places if and only if they agree but for the last pair. -/
theorem place_eq_iff {f g : ℕ → ℕ → ℕ} {c : ℕ} :
    place f c l = place g c l ↔ ∀ x ∈ l.dropLast, f x.1 x.2 = g x.1 x.2 := by
  induction l generalizing c with
  | nil => simp [place]
  | cons x l ih =>
    rw [place, place]
    cases l with
    | nil => simp [place]
    | cons y l =>
      rw [dropLast_cons_cons, forall_mem_cons]
      constructor
      · intro h
        have htail := (List.cons.inj h).2
        have hoffset := congrArg Entry.offset (List.cons.inj (by simpa only [place] using htail)).1
        have hx : f x.1 x.2 = g x.1 x.2 := by
          simp only at hoffset
          omega
        rw [hx] at htail
        exact ⟨hx, ih.mp htail⟩
      · rintro ⟨hx, hrest⟩
        rw [hx, ih.mpr hrest]

theorem mem_place {f : ℕ → ℕ → ℕ} {c : ℕ} {x : Entry} (h : x ∈ place f c l) :
    c ≤ x.offset ∧ x.offset + (16 + f x.ptr x.len) ≤ c + total f l ∧ (x.ptr, x.len) ∈ l := by
  induction l generalizing c with
  | nil => cases h
  | cons y l ih =>
    rw [total_cons]
    rcases mem_cons.mp h with rfl | h
    · exact ⟨le_rfl, by simp only; omega, mem_cons_self⟩
    · obtain ⟨h₁, h₂, h₃⟩ := ih h
      exact ⟨by omega, by omega, mem_cons_of_mem _ h₃⟩

/-! ### What the loops do -/

variable {L encl dir} {e e' : E} {m : M} {ms : List M} {es es' : List E}

variable {a r : ℕ}

theorem addAssign_eq_ok {b : ℕ} (hb : b < 2 ^ 64) (ha : a < 2 ^ 64) (h : addAssign a b = .ok r) :
    r = a + b ∧ r < 2 ^ 64 := by
  rw [addAssign] at h
  split_ifs at h with hlt
  cases h
  omega

theorem addHeader_eq_ok (ha : a < 2 ^ 64) (h : addHeader dir a = .ok r) :
    r = a + headerSize dir ∧ r < 2 ^ 64 := by
  cases dir with
  | ptrInOut => exact addAssign_eq_ok (by decide) ha h
  | ptrIn | ptrOut | ptrNoDirection =>
    cases h
    exact ⟨rfl, ha⟩

/-- The members that are copied are outside of the enclave. -/
def Checked (L : Layout E M) (encl : Enclave) (e : E) (m : M) : Prop :=
  L.ptr e m ≠ 0 → L.len e m ≠ 0 →
    encl.outside (L.ptr e m) (L.len e m) = true ∧ L.multOk m (L.len e m) = true

variable {size size' : ℕ}

theorem calculateMember_spec (hlt : size < 2 ^ 64)
    (h : calculateMember L encl dir e m size = .ok size') :
    size' = size + (headerSize dir + need (L.ptr e m) (L.len e m)) ∧ size' < 2 ^ 64 ∧
      L.lenOk e m = true ∧ Checked L encl e m := by
  rw [calculateMember, bind_eq_ok] at h
  obtain ⟨t, ht, h⟩ := h
  obtain ⟨rfl, hlt'⟩ := addHeader_eq_ok hlt ht
  rw [require_bind] at h
  obtain ⟨hok, h⟩ := h
  rw [need]
  split_ifs at h ⊢ with hcopy
  · rw [require_bind, require_bind] at h
    obtain ⟨hout, hmult, h⟩ := h
    obtain ⟨rfl, hr⟩ := addAssign_eq_ok (L.len_lt e m) hlt' h
    exact ⟨Nat.add_assoc _ _ _, hr, hok, fun _ _ => ⟨hout, hmult⟩⟩
  · cases h
    exact ⟨rfl, hlt', hok, fun hp hn => absurd ⟨hp, hn⟩ hcopy⟩

/-- The room for the members of a structure. -/
def roomOf (L : Layout E M) (dir : PtrDirection) (ms : List M) (e : E) : ℕ :=
  (ms.map fun m => headerSize dir + need (L.ptr e m) (L.len e m)).sum

theorem calculateMembers_spec (hlt : size < 2 ^ 64)
    (h : calculateMembers L encl dir e ms size = .ok size') :
    size' = size + roomOf L dir ms e ∧ size' < 2 ^ 64 ∧
      ∀ m ∈ ms, L.lenOk e m = true ∧ Checked L encl e m := by
  induction ms generalizing size with
  | nil =>
    cases h
    exact ⟨rfl, hlt, nofun⟩
  | cons m ms ih =>
    rw [calculateMembers, bind_eq_ok] at h
    obtain ⟨t, ht, h⟩ := h
    obtain ⟨rfl, hlt', hm⟩ := calculateMember_spec hlt ht
    obtain ⟨rfl, hlt'', hms⟩ := ih hlt' h
    refine ⟨?_, hlt'', forall_mem_cons.mpr ⟨hm, hms⟩⟩
    rw [roomOf, roomOf, map_cons, sum_cons, Nat.add_assoc]

theorem calculateElems_spec (hlt : size < 2 ^ 64)
    (h : calculateElems L encl dir ms es size = .ok size') :
    size' = size + (es.map (roomOf L dir ms)).sum ∧ size' < 2 ^ 64 ∧
      ∀ e ∈ es, ∀ m ∈ ms, L.lenOk e m = true ∧ Checked L encl e m := by
  induction es generalizing size with
  | nil =>
    cases h
    exact ⟨rfl, hlt, nofun⟩
  | cons e es ih =>
    rw [calculateElems, bind_eq_ok] at h
    obtain ⟨t, ht, h⟩ := h
    obtain ⟨rfl, hlt', he⟩ := calculateMembers_spec hlt ht
    obtain ⟨rfl, hlt'', hes⟩ := ih hlt' h
    refine ⟨?_, hlt'', forall_mem_cons.mpr ⟨he, hes⟩⟩
    rw [map_cons, sum_cons, Nat.add_assoc]

/-- The room that the first loop adds up is that of all pairs. -/
theorem sum_roomOf (L : Layout E M) (dir : PtrDirection) (ms : List M) (es : List E) :
    (es.map (roomOf L dir ms)).sum =
      ((pairs L ms es).map fun x => headerSize dir + need x.1 x.2).sum := by
  induction es with
  | nil => rfl
  | cons e es ih =>
    rw [map_cons, sum_cons, ih, pairs, pairs, flatMap_cons, map_append,
      List.sum_append]
    congr 1
    rw [roomOf, List.map_map]
    rfl

/-- A copy of some pairs, from one place of the cursor to another. -/
structure Copied (c c' : Cursor) (l : List (ℕ × ℕ)) : Prop where
  pos_eq : c'.pos = c.pos + total need l
  entries_eq : c'.entries = c.entries ++ place need c.pos l
  length_eq : c.pos + total need l ≤ c.block.length → c'.block.length = c.block.length
  before : c.pos + total need l ≤ c.block.length → ∀ p n, p + n ≤ c.pos →
    slice c'.block p n = slice c.block p n
  stored : c.pos + total need l ≤ c.block.length → ∀ x ∈ place need c.pos l,
    slice c'.block x.offset 8 = le64 x.ptr ∧ slice c'.block (x.offset + 8) 8 = le64 x.len

theorem Copied.nil (c : Cursor) : Copied c c [] where
  pos_eq := rfl
  entries_eq := (append_nil _).symm
  length_eq _ := rfl
  before _ _ _ _ := rfl
  stored _ _ h := absurd h not_mem_nil

variable {l' : List (ℕ × ℕ)}

theorem Copied.append {c c' c'' : Cursor} (h : Copied c c' l) (h' : Copied c' c'' l') :
    Copied c c'' (l ++ l') := by
  have hpos := h.pos_eq
  refine ⟨?_, ?_, fun hroom => ?_, fun hroom => ?_, fun hroom => ?_⟩
  · rw [h'.pos_eq, hpos, total_append, Nat.add_assoc]
  · rw [h'.entries_eq, h.entries_eq, place_append, hpos, List.append_assoc]
  all_goals
    rw [total_append] at hroom
    have hlen := h.length_eq (by omega)
    have hroom' : c'.pos + total need l' ≤ c'.block.length := by omega
  · rw [h'.length_eq hroom', hlen]
  · intro p n hp
    rw [h'.before hroom' p n (by omega), h.before (by omega) p n hp]
  · intro x hx
    rw [place_append, mem_append] at hx
    rcases hx with hx | hx
    · have hplace := mem_place hx
      obtain ⟨h₁, h₂⟩ := h.stored (by omega) x hx
      rw [h'.before hroom' _ _ (by omega), h'.before hroom' _ _ (by omega)]
      exact ⟨h₁, h₂⟩
    · exact h'.stored hroom' x (by rwa [hpos])

theorem putHeader_stored {c : Cursor} (h : c.pos + 16 ≤ c.block.length) :
    (putHeader .ptrInOut p n c).block.length = c.block.length ∧
    (∀ q k, q + k ≤ c.pos →
      slice (putHeader .ptrInOut p n c).block q k = slice c.block q k) ∧
    slice (putHeader .ptrInOut p n c).block c.pos 8 = le64 p ∧
    slice (putHeader .ptrInOut p n c).block (c.pos + 8) 8 = le64 n := by
  have hp := length_le64 p
  have hn := length_le64 n
  have hlen : (overwrite c.block c.pos (le64 p)).length = c.block.length :=
    length_overwrite_within (by omega)
  have hself := slice_overwrite_self (b := c.block) (d := le64 p) (q := c.pos) (by omega)
  have hself' := slice_overwrite_self (b := overwrite c.block c.pos (le64 p)) (d := le64 n)
    (q := c.pos + 8) (by omega)
  rw [hp] at hself
  rw [putHeader, if_pos rfl]
  refine ⟨?_, fun q k hq => ?_, ?_, hself'⟩
  · rw [length_overwrite_within (by omega), hlen]
  · rw [slice_overwrite_before (by omega) (by omega), slice_overwrite_before (by omega) hq]
  · rw [slice_overwrite_before (by omega) (by omega), hself]

theorem putHeader_pos (p n : ℕ) (c : Cursor) :
    (putHeader .ptrInOut p n c).pos = c.pos + 16 ∧
    (putHeader .ptrInOut p n c).entries = c.entries ++ [⟨c.pos, p, n⟩] := by
  exact ⟨rfl, rfl⟩

variable {mem : ℕ → ℕ → UInt8} {base : ℕ} {c c' : Cursor}

theorem copyMember_spec (h : copyMember L .ptrInOut mem base e m c = .ok (e', c')) :
    Copied c c' [(L.ptr e m, L.len e m)] ∧ ∃ q, e' = L.setPtr e m q := by
  obtain ⟨hpos, hentries⟩ := putHeader_pos (L.ptr e m) (L.len e m) c
  have htotal : total need [(L.ptr e m, L.len e m)] = 16 + need (L.ptr e m) (L.len e m) := by
    rfl
  rw [copyMember] at h
  split_ifs at h with hcopy
  · rw [require_bind] at h
    obtain ⟨-, h⟩ := h
    cases h
    have hneed : need (L.ptr e m) (L.len e m) = L.len e m := if_pos hcopy
    refine ⟨⟨?_, ?_, fun hroom => ?_, fun hroom => ?_, fun hroom => ?_⟩, _, rfl⟩
    · rw [htotal, hneed]
      simp only [hpos]
      omega
    · exact hentries
    all_goals
      obtain ⟨hlen, hbefore, hptr, hlen'⟩ :=
        putHeader_stored (p := L.ptr e m) (n := L.len e m) (show c.pos + 16 ≤ c.block.length by omega)
      have hfetch := length_fetch mem (putHeader .ptrInOut (L.ptr e m) (L.len e m) c).time (L.ptr e m)
        (L.len e m)
    · rw [length_overwrite_within (by omega), hlen]
    · intro p n hp
      rw [slice_overwrite_before (by omega) (by omega), hbefore p n hp]
    · intro x hx
      obtain rfl := mem_singleton.mp hx
      rw [slice_overwrite_before (by omega) (by simp only; omega),
        slice_overwrite_before (by omega) (by simp only; omega)]
      exact ⟨hptr, hlen'⟩
  · cases h
    have hneed : need (L.ptr e m) (L.len e m) = 0 := if_neg hcopy
    refine ⟨⟨?_, hentries, fun hroom => ?_, fun hroom => ?_, fun hroom => ?_⟩, _, rfl⟩
    · rw [htotal, hneed, hpos]
    all_goals
      obtain ⟨hlen, hbefore, hptr, hlen'⟩ :=
        putHeader_stored (p := L.ptr e m) (n := L.len e m) (show c.pos + 16 ≤ c.block.length by omega)
    · exact hlen
    · exact hbefore
    · intro x hx
      obtain rfl := mem_singleton.mp hx
      exact ⟨hptr, hlen'⟩

/-- The pairs of the other members do not change with a pointer. -/
theorem map_setPtr (hm : m ∉ ms) :
    (ms.map fun m' => (L.ptr (L.setPtr e m q) m', L.len (L.setPtr e m q) m')) =
      ms.map fun m' => (L.ptr e m', L.len e m') := by
  refine map_congr_left fun m' hm' => ?_
  rw [L.ptr_setPtr_of_ne e m q m' (fun heq => hm (heq ▸ hm')), L.len_setPtr]

theorem copyMembers_copied (hms : ms.Nodup)
    (h : copyMembers L .ptrInOut mem base ms e c = .ok (e', c')) :
    Copied c c' (ms.map fun m => (L.ptr e m, L.len e m)) := by
  induction ms generalizing e c with
  | nil =>
    cases h
    exact Copied.nil _
  | cons m ms ih =>
    obtain ⟨hm, hnodup⟩ := nodup_cons.mp hms
    rw [copyMembers, bind_eq_ok] at h
    obtain ⟨⟨e₁, c₁⟩, h₁, h⟩ := h
    obtain ⟨hcopied, q, rfl⟩ := copyMember_spec h₁
    have hrest := ih hnodup h
    rw [map_setPtr hm] at hrest
    exact hcopied.append hrest

theorem copyElems_copied (hms : ms.Nodup)
    (h : copyElems L .ptrInOut mem base ms es c = .ok (es', c')) : Copied c c' (pairs L ms es) := by
  induction es generalizing es' c with
  | nil =>
    cases h
    exact Copied.nil _
  | cons e es ih =>
    rw [copyElems, bind_eq_ok] at h
    obtain ⟨⟨e₁, c₁⟩, h₁, h⟩ := h
    rw [bind_eq_ok] at h
    obtain ⟨⟨es₂, c₂⟩, h₂, h⟩ := h
    cases h
    exact (copyMembers_copied hms h₁).append (ih h₂)

theorem copyMember_setPtr (h : copyMember L dir mem base e m c = .ok (e', c')) :
    ∃ q, e' = L.setPtr e m q := by
  rw [copyMember] at h
  split_ifs at h
  · rw [require_bind] at h
    obtain ⟨-, h⟩ := h
    cases h
    exact ⟨_, rfl⟩
  · cases h
    exact ⟨_, rfl⟩

/-- A copy does not change the lengths of a structure. -/
theorem copyMembers_same (h : copyMembers L dir mem base ms e c = .ok (e', c')) (m : M) :
    L.len e' m = L.len e m ∧ L.lenOk e' m = L.lenOk e m := by
  induction ms generalizing e c with
  | nil =>
    cases h
    exact ⟨rfl, rfl⟩
  | cons m' ms ih =>
    rw [copyMembers, bind_eq_ok] at h
    obtain ⟨⟨e₁, c₁⟩, h₁, h⟩ := h
    obtain ⟨q, rfl⟩ := copyMember_setPtr h₁
    obtain ⟨hlen, hok⟩ := ih h
    rw [hlen, hok]
    exact ⟨L.len_setPtr _ _ _ _, L.lenOk_setPtr _ _ _ _⟩

theorem copyElems_same (h : copyElems L dir mem base ms es c = .ok (es', c')) :
    List.Forall₂ (fun e e' => ∀ m, L.len e' m = L.len e m ∧ L.lenOk e' m = L.lenOk e m) es es' := by
  induction es generalizing es' c with
  | nil =>
    cases h
    exact .nil
  | cons e es ih =>
    rw [copyElems, bind_eq_ok] at h
    obtain ⟨⟨e₁, c₁⟩, h₁, h⟩ := h
    rw [bind_eq_ok] at h
    obtain ⟨⟨es₂, c₂⟩, h₂, h⟩ := h
    cases h
    exact .cons (copyMembers_same h₁) (ih h₂)

/-! ### What is found on the way back -/

/-- The trusted function has left a member in order, for the pointer and the length of the host: it is
empty, or not longer than the buffer of the host. -/
def BackOk (L : Layout E M) (encl : Enclave) (e : E) (m : M) (p n : ℕ) : Prop :=
  L.lenOk e m = true ∧
    (L.ptr e m ≠ 0 → L.len e m ≠ 0 →
      L.len e m ≤ n ∧ L.multOk m n = true ∧ encl.within (L.ptr e m) (L.len e m) = true ∧
        encl.outside p n = true ∧ p ≠ 0)

theorem backOk_setPtr {m' : M} (hne : m ≠ m') :
    BackOk L encl (L.setPtr e m q) m' p n ↔ BackOk L encl e m' p n := by
  rw [BackOk, BackOk, L.ptr_setPtr_of_ne e m q m' hne, L.len_setPtr, L.lenOk_setPtr]

variable {block : List UInt8} {s : Back}

theorem backMember_of_backOk (hs : s.status = none)
    (hok : BackOk L encl e m (load64 block s.pos) (load64 block (s.pos + 8))) :
    backMember L encl block e m s =
      (L.setPtr e m (load64 block s.pos),
        ⟨s.pos + (16 + load64 block (s.pos + 8)), none,
          s.log ++ [⟨⟨s.pos, load64 block s.pos, load64 block (s.pos + 8)⟩, L.ptr e m,
            need (L.ptr e m) (L.len e m)⟩]⟩) := by
  obtain ⟨hlen, hcopy⟩ := hok
  have hpos : s.pos + 8 + 8 + load64 block (s.pos + 8) = s.pos + (16 + load64 block (s.pos + 8)) := by
    omega
  rw [backMember, if_neg (by rw [hs]; decide), if_neg (by rw [hlen]; decide), need]
  by_cases hpn : L.ptr e m ≠ 0 ∧ L.len e m ≠ 0
  · obtain ⟨hle, hmult, hwithin, hout, hp⟩ := hcopy hpn.1 hpn.2
    have hfits : ¬(load64 block (s.pos + 8) < L.len e m ∨
        L.multOk m (load64 block (s.pos + 8)) = false) := by
      rw [hmult]
      simpa using hle
    have hranges : ¬(encl.within (L.ptr e m) (L.len e m) = false ∨
        encl.outside (load64 block s.pos) (load64 block (s.pos + 8)) = false) := by
      rw [hwithin, hout]
      decide
    rw [if_pos hpn, if_pos hpn, if_neg hfits, if_neg hranges, if_neg hp, hpos]
  · rw [if_neg hpn, if_neg hpn, hpos]

theorem backOk_of_backMember (h : (backMember L encl block e m s).2.status = none) :
    s.status = none ∧ BackOk L encl e m (load64 block s.pos) (load64 block (s.pos + 8)) := by
  rw [backMember] at h
  by_cases hs : s.status.isSome = true
  · rw [if_pos hs] at h
    rw [h] at hs
    cases hs
  rw [if_neg hs] at h
  by_cases hlen : L.lenOk e m = false
  · rw [if_pos hlen] at h
    cases h
  rw [if_neg hlen] at h
  refine ⟨Option.not_isSome_iff_eq_none.mp hs, eq_true_of_ne_false hlen, fun hp hn => ?_⟩
  rw [if_pos ⟨hp, hn⟩] at h
  split_ifs at h with hfits hranges hzero
  rw [not_or] at hfits hranges
  exact ⟨not_lt.mp hfits.1, eq_true_of_ne_false hfits.2, eq_true_of_ne_false hranges.1,
    eq_true_of_ne_false hranges.2, hzero⟩

/-- The structure with the pointers of the host. -/
def restore (L : Layout E M) (ms : List M) (e e' : E) : E :=
  ms.foldl (fun x m => L.setPtr x m (L.ptr e m)) e'

/-- The block has the pairs of a list from an offset on, with no room but their lengths between
them. -/
def Found (block : List UInt8) (c : ℕ) (l : List (ℕ × ℕ)) : Prop :=
  ∀ x ∈ place (fun _ n => n) c l, load64 block x.offset = x.ptr ∧ load64 block (x.offset + 8) = x.len

/-- Pairs that are found lead to the end of the loop, with the pointers of the host put back. -/
theorem backMembers_of_found (hms : ms.Nodup) (hs : s.status = none)
    (hfound : Found block s.pos (ms.map fun m => (L.ptr e m, L.len e m)))
    (hok : ∀ m ∈ ms, BackOk L encl e' m (L.ptr e m) (L.len e m)) :
    (backMembers L encl block ms e' s).1 = restore L ms e e' ∧
    (backMembers L encl block ms e' s).2.status = none ∧
    (backMembers L encl block ms e' s).2.pos =
      s.pos + total (fun _ n => n) (ms.map fun m => (L.ptr e m, L.len e m)) ∧
    (backMembers L encl block ms e' s).2.log.map Returned.pair =
      s.log.map Returned.pair ++ place (fun _ n => n) s.pos (ms.map fun m => (L.ptr e m, L.len e m)) ∧
    (backMembers L encl block ms e' s).2.log.map Returned.copied =
      s.log.map Returned.copied ++ ms.map fun m => (L.ptr e' m, need (L.ptr e' m) (L.len e' m)) := by
  induction ms generalizing e' s with
  | nil => exact ⟨rfl, hs, rfl, (append_nil _).symm, (append_nil _).symm⟩
  | cons m ms ih =>
    obtain ⟨hm, hnodup⟩ := nodup_cons.mp hms
    obtain ⟨hp, hn⟩ := hfound _ mem_cons_self
    have hback : BackOk L encl e' m (load64 block s.pos) (load64 block (s.pos + 8)) := by
      rw [hp, hn]
      exact hok m mem_cons_self
    have hstep := backMember_of_backOk hs hback
    rw [hp, hn] at hstep
    rw [backMembers, hstep]
    have hrest : ∀ m' ∈ ms, BackOk L encl (L.setPtr e' m (L.ptr e m)) m' (L.ptr e m') (L.len e m') :=
      fun m' hm' => (backOk_setPtr fun heq : m = m' => hm (heq ▸ hm')).mpr
        (hok m' (mem_cons_of_mem _ hm'))
    obtain ⟨h₁, h₂, h₃, h₄, h₅⟩ := ih
      (s := ⟨s.pos + (16 + L.len e m), none,
        s.log ++ [⟨⟨s.pos, L.ptr e m, L.len e m⟩, L.ptr e' m, need (L.ptr e' m) (L.len e' m)⟩]⟩)
      hnodup rfl (fun x hx => hfound x (mem_cons_of_mem _ hx)) hrest
    refine ⟨h₁, h₂, ?_, ?_, ?_⟩
    · rw [h₃, map_cons, total_cons]
      simp only
      omega
    · rw [h₄, map_append, List.append_assoc]
      rfl
    · -- the pointer that was put back is not one of the other members
      have hothers : ∀ m' ∈ ms, (L.ptr (L.setPtr e' m (L.ptr e m)) m',
          need (L.ptr (L.setPtr e' m (L.ptr e m)) m') (L.len (L.setPtr e' m (L.ptr e m)) m')) =
            (L.ptr e' m', need (L.ptr e' m') (L.len e' m')) := by
        intro m' hm'
        have hne : m ≠ m' := fun heq => hm (heq ▸ hm')
        rw [L.ptr_setPtr_of_ne _ _ _ _ hne, L.len_setPtr]
      rw [h₅, map_append, List.append_assoc, map_congr_left hothers]
      rfl

theorem found_append {c : ℕ} (h : Found block c (l ++ l')) :
    Found block c l ∧ Found block (c + total (fun _ n => n) l) l' := by
  rw [Found, place_append] at h
  exact ⟨fun x hx => h x (mem_append_left _ hx), fun x hx => h x (mem_append_right _ hx)⟩

theorem backElems_of_found (hms : ms.Nodup) (hs : s.status = none) (hlen : es.length = es'.length)
    (hfound : Found block s.pos (pairs L ms es))
    (hok : ∀ x ∈ es.zip es', ∀ m ∈ ms, BackOk L encl x.2 m (L.ptr x.1 m) (L.len x.1 m)) :
    (backElems L encl block ms es' s).1 = List.zipWith (restore L ms) es es' ∧
    (backElems L encl block ms es' s).2.status = none ∧
    (backElems L encl block ms es' s).2.log.map Returned.pair =
      s.log.map Returned.pair ++ place (fun _ n => n) s.pos (pairs L ms es) ∧
    (backElems L encl block ms es' s).2.log.map Returned.copied =
      s.log.map Returned.copied ++ (pairs L ms es').map fun x => (x.1, need x.1 x.2) := by
  induction es generalizing es' s with
  | nil =>
    obtain rfl := length_eq_zero_iff.mp hlen.symm
    exact ⟨rfl, hs, (append_nil _).symm, (append_nil _).symm⟩
  | cons e es ih =>
    rcases es' with _ | ⟨e', es'⟩
    · cases hlen
    obtain ⟨hfirst, hrest⟩ := found_append hfound
    have hmembers : ∀ m ∈ ms, BackOk L encl e' m (L.ptr e m) (L.len e m) :=
      hok (e, e') mem_cons_self
    obtain ⟨h₁, h₂, h₃, h₄, hcopied⟩ := backMembers_of_found hms hs hfirst hmembers
    obtain ⟨h₅, h₆, h₇, hcopied'⟩ := ih h₂ (Nat.succ.inj hlen) (h₃ ▸ hrest)
      (fun x hx => hok x (mem_cons_of_mem _ hx))
    rw [backElems]
    refine ⟨?_, h₆, ?_, ?_⟩
    · rw [h₁, h₅]
      rfl
    · rw [h₇, h₄, h₃, List.append_assoc, ← place_append]
      rfl
    · have hpairs : pairs L ms (e' :: es') =
          (ms.map fun m => (L.ptr e' m, L.len e' m)) ++ pairs L ms es' := rfl
      rw [hcopied', hcopied, hpairs, List.append_assoc, map_append, List.map_map]
      rfl

/-- A loop that goes through to its end has read pairs with no room but their lengths between
them. -/
theorem found_of_backMembers (hms : ms.Nodup)
    (h : (backMembers L encl block ms e' s).2.status = none) :
    s.status = none ∧ ∃ l, List.Forall₂ (fun m x => BackOk L encl e' m x.1 x.2) ms l ∧
      (backMembers L encl block ms e' s).2.pos = s.pos + total (fun _ n => n) l ∧
      (backMembers L encl block ms e' s).2.log.map Returned.pair =
        s.log.map Returned.pair ++ place (fun _ n => n) s.pos l := by
  induction ms generalizing e' s with
  | nil => exact ⟨h, [], .nil, rfl, (append_nil _).symm⟩
  | cons m ms ih =>
    obtain ⟨hm, hnodup⟩ := nodup_cons.mp hms
    rw [backMembers] at h ⊢
    obtain ⟨hstatus, l, hl, hpos, hlog⟩ := ih hnodup h
    obtain ⟨hs, hok⟩ := backOk_of_backMember hstatus
    refine ⟨hs, (load64 block s.pos, load64 block (s.pos + 8)) :: l, ?_, ?_, ?_⟩
    · refine .cons hok ?_
      rw [backMember_of_backOk hs hok] at hl
      refine (forall₂_iff_get.mpr ⟨hl.length_eq, fun i h₁ h₂ => ?_⟩)
      refine (backOk_setPtr fun heq => hm ?_).mp (hl.get h₁ h₂)
      rw [heq]
      exact List.get_mem _ _
    · rw [hpos, backMember_of_backOk hs hok, total_cons, Nat.add_assoc]
    · rw [hlog, backMember_of_backOk hs hok, map_append, List.append_assoc]
      rfl

/-- The members of all structures are in order for a list of pairs. -/
def AllBackOk (L : Layout E M) (encl : Enclave) (ms : List M) : List E → List (ℕ × ℕ) → Prop
  | [], l => l = []
  | e :: es, l => ∃ l₁ l₂, l = l₁ ++ l₂ ∧
      List.Forall₂ (fun m x => BackOk L encl e m x.1 x.2) ms l₁ ∧ AllBackOk L encl ms es l₂

theorem found_of_backElems (hms : ms.Nodup)
    (h : (backElems L encl block ms es' s).2.status = none) :
    s.status = none ∧ ∃ l, AllBackOk L encl ms es' l ∧
      (backElems L encl block ms es' s).2.log.map Returned.pair =
        s.log.map Returned.pair ++ place (fun _ n => n) s.pos l := by
  induction es' generalizing s with
  | nil => exact ⟨h, [], rfl, (append_nil _).symm⟩
  | cons e' es' ih =>
    rw [backElems] at h ⊢
    obtain ⟨hstatus, l₂, hall, hlog₂⟩ := ih h
    obtain ⟨hs, l₁, hok, hpos, hlog₁⟩ := found_of_backMembers hms hstatus
    refine ⟨hs, l₁ ++ l₂, ⟨l₁, l₂, rfl, hok, hall⟩, ?_⟩
    rw [hlog₂, hlog₁, hpos, place_append, List.append_assoc]

theorem AllBackOk.zip (h : AllBackOk L encl ms es' (pairs L ms es)) (hlen : es.length = es'.length) :
    ∀ x ∈ es.zip es', ∀ m ∈ ms, BackOk L encl x.2 m (L.ptr x.1 m) (L.len x.1 m) := by
  induction es generalizing es' with
  | nil => exact nofun
  | cons e es ih =>
    rcases es' with _ | ⟨e', es'⟩
    · cases hlen
    obtain ⟨l₁, l₂, heq, hok, hall⟩ := h
    have hsplit := append_inj heq (by rw [length_map, hok.length_eq])
    obtain ⟨rfl, rfl⟩ := hsplit
    intro x hx
    rcases mem_cons.mp hx with rfl | hx
    · rw [forall₂_map_right_iff, forall₂_same] at hok
      exact hok
    · exact ih hall (Nat.succ.inj hlen) x hx

/-- What was copied so far was not longer than the length, inside of the enclave, and went
outside. -/
def WritesOk (encl : Enclave) (log : List Returned) : Prop :=
  ∀ x ∈ log, x.count ≤ x.pair.len ∧ (x.count ≠ 0 →
    encl.within x.source x.count = true ∧ encl.outside x.pair.ptr x.pair.len = true)

theorem writesOk_concat {log : List Returned} {x : Returned} (h : WritesOk encl log)
    (hx : x.count ≤ x.pair.len ∧ (x.count ≠ 0 →
      encl.within x.source x.count = true ∧ encl.outside x.pair.ptr x.pair.len = true)) :
    WritesOk encl (log ++ [x]) := by
  intro y hy
  rcases mem_append.mp hy with hy | hy
  · exact h y hy
  · rw [mem_singleton.mp hy]
    exact hx

theorem writesOk_backMember (h : WritesOk encl s.log) :
    WritesOk encl (backMember L encl block e m s).2.log := by
  have hnone : ∀ p n, WritesOk encl (s.log ++ [⟨⟨s.pos, p, n⟩, L.ptr e m, 0⟩]) := fun p n =>
    writesOk_concat h ⟨Nat.zero_le _, fun hne => absurd rfl hne⟩
  simp only [backMember]
  split_ifs with hs hlen hpn hfits hranges hzero
  · exact h
  · exact hnone _ _
  · exact hnone _ _
  · exact hnone _ _
  · exact hnone _ _
  · rw [not_or] at hfits hranges
    exact writesOk_concat h ⟨not_lt.mp hfits.1,
      fun _ => ⟨eq_true_of_ne_false hranges.1, eq_true_of_ne_false hranges.2⟩⟩
  · exact hnone _ _

theorem writesOk_backMembers (h : WritesOk encl s.log) :
    WritesOk encl (backMembers L encl block ms e s).2.log := by
  induction ms generalizing e s with
  | nil => exact h
  | cons m ms ih => exact ih (writesOk_backMember h)

theorem writesOk_backElems (h : WritesOk encl s.log) :
    WritesOk encl (backElems L encl block ms es s).2.log := by
  induction es generalizing s with
  | nil => exact h
  | cons e es ih => exact ih (writesOk_backMembers h)

/-- The third loop goes through to its end; for every member, in order, it reads the pair that was
stored for it, inside of the block, and copies the buffer that the trusted function has left in the
member; it writes to this pointer only, and not more than this length; and the structures that are
copied out have the pointers of the host. -/
structure Exact (L : Layout E M) (encl : Enclave) (ms : List M) (size : ℕ) (es es' : List E)
    (r : List E × Back) : Prop where
  ends : r.2.status = none
  reads : r.2.log.map Returned.pair = place need 0 (pairs L ms es)
  copies : r.2.log.map Returned.copied = (pairs L ms es').map fun x => (x.1, need x.1 x.2)
  inside : ∀ x ∈ r.2.log, x.pair.offset + (16 + need x.pair.ptr x.pair.len) ≤ size
  writes : WritesOk encl r.2.log
  pointers : r.1 = List.zipWith (restore L ms) es es'

theorem need_eq_iff : need p n = n ↔ (p = 0 → n = 0) := by
  rw [need]
  split_ifs with h
  · exact ⟨fun _ hp => absurd hp h.1, fun _ => rfl⟩
  · constructor
    · exact fun hn _ => hn.symm
    · intro himp
      by_contra hne
      exact h ⟨fun hp => hne (himp hp).symm, fun hn => hne hn.symm⟩

/-- What was copied in is found again, if there are no lengths without a buffer. -/
theorem found_of_copied {c' : Cursor} (hcopied : Copied c c' l)
    (hroom : c.pos + total need l ≤ c.block.length) (hlt : ∀ x ∈ l, x.1 < 2 ^ 64 ∧ x.2 < 2 ^ 64)
    (hkept : ∀ x ∈ place need c.pos l, slice block x.offset 16 = slice c'.block x.offset 16)
    (hnull : ∀ x ∈ l.dropLast, x.1 = 0 → x.2 = 0) : Found block c.pos l := by
  have hplace : place need c.pos l = place (fun _ n => n) c.pos l :=
    place_eq_iff.mpr fun x hx => need_eq_iff.mpr (hnull x hx)
  intro x hx
  rw [← hplace] at hx
  obtain ⟨hp, hn⟩ := hcopied.stored hroom x hx
  have hboth := hkept x hx
  rw [slice_add _ _ 8 8, slice_add _ _ 8 8] at hboth
  have hleft : (slice block x.offset 8).length = (slice c'.block x.offset 8).length := by
    have hlen := congrArg List.length hboth
    rw [hp, hn] at hlen
    rw [hp]
    simp only [length_append, length_le64, length_slice] at hlen ⊢
    omega
  have hsplit := append_inj hboth hleft
  obtain ⟨hptr, hlen⟩ := hlt _ (mem_place hx).2.2
  exact ⟨load64_of_slice hptr (hsplit.1.trans hp), load64_of_slice hlen (hsplit.2.trans hn)⟩

theorem pairs_lt (L : Layout E M) : ∀ x ∈ pairs L ms es, x.1 < 2 ^ 64 ∧ x.2 < 2 ^ 64 := by
  intro x hx
  obtain ⟨e, -, hx⟩ := mem_flatMap.mp hx
  obtain ⟨m, -, rfl⟩ := List.mem_map.mp hx
  exact ⟨L.ptr_lt e m, L.len_lt e m⟩

/-- **Copying back.**  After a copy into a block of the size that was added up, and after a trusted
function that did not write to the pairs in the block, copying back is exact if and only if no
`NULL` had a length (the last member apart) and every member was left in order. -/
theorem backElems_exact_iff (hms : ms.Nodup)
    (hsize : calculateElems L encl .ptrInOut ms es 0 = .ok size) {esIn : List E} (hpos : c.pos = 0)
    (hentries : c.entries = []) (hblock : c.block.length = size)
    (hcopy : copyElems L .ptrInOut mem base ms es c = .ok (esIn, c'))
    (hlen : es.length = es'.length)
    (hkept : ∀ x ∈ c'.entries, slice block x.offset 16 = slice c'.block x.offset 16) :
    Exact L encl ms size es es' (backElems L encl block ms es' ⟨0, none, []⟩) ↔
      (∀ x ∈ (pairs L ms es).dropLast, x.1 = 0 → x.2 = 0) ∧
      ∀ x ∈ es.zip es', ∀ m ∈ ms, BackOk L encl x.2 m (L.ptr x.1 m) (L.len x.1 m) := by
  have htotal : size = total need (pairs L ms es) := by
    rw [(calculateElems_spec (by decide) hsize).1, sum_roomOf, Nat.zero_add]
    rfl
  have hcopied := copyElems_copied hms hcopy
  have hplace : c'.entries = place need 0 (pairs L ms es) := by
    rw [hcopied.entries_eq, hentries, hpos, nil_append]
  constructor
  · intro h
    -- equal places mean that each length but the last is the room that was left for it
    obtain ⟨-, l, hall, hlog⟩ := found_of_backElems hms h.ends
    have heq : place (fun _ n => n) 0 l = place need 0 (pairs L ms es) := by
      rw [← h.reads, hlog]
      rfl
    have hl : l = pairs L ms es := by
      rw [← map_place (fun _ n => n) 0 l, heq, map_place]
    subst hl
    exact ⟨fun x hx => need_eq_iff.mp (place_eq_iff.mp heq.symm x hx), hall.zip hlen⟩
  · rintro ⟨hnull, hok⟩
    have hstays : ∀ x ∈ place need c.pos (pairs L ms es),
        slice block x.offset 16 = slice c'.block x.offset 16 := by
      rw [hpos, ← hplace]
      exact hkept
    have hfound := found_of_copied hcopied (by rw [hpos, hblock, htotal, Nat.zero_add])
      (pairs_lt L) hstays hnull
    rw [hpos] at hfound
    obtain ⟨hptrs, hends, hlog, hcopies⟩ := backElems_of_found (s := ⟨0, none, []⟩) hms rfl hlen hfound hok
    have hreads : (backElems L encl block ms es' ⟨0, none, []⟩).2.log.map Returned.pair =
        place need 0 (pairs L ms es) := by
      rw [hlog]
      exact place_eq_iff.mpr fun x hx => (need_eq_iff.mpr (hnull x hx)).symm
    refine ⟨hends, hreads, hcopies, fun x hx => ?_, writesOk_backElems nofun, hptrs⟩
    have hmem := List.mem_map_of_mem (f := Returned.pair) hx
    rw [hreads] at hmem
    rw [htotal, ← Nat.zero_add (total need (pairs L ms es))]
    exact (mem_place hmem).2.1

end Walks

end Edger8r
