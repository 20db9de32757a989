/-
Adding and trimming pages (`trts_add_trim.cpp`, `trts_util.cpp`).

A request names an address and a number of pages.  `check_dynamic_range` looks for a
region of the layout that it lies in: the dynamic part of the heap or of the reserved
memory, the stack of the utility thread, or an entry of a dynamic thread.  All sums and
shifts are in 64 bits.

Every page operation asks the processor or the host for its outcome (`Epc.answer`) and is
recorded.  An EACCEPT that is refused ends the enclave by `abort`, as does one of an
address that is not a page.  The assertions on the results of the OCALLs are not part of
a release build.

* `Region` — the regions, as ranges of numbers;
* **`spec_run`** — what a request does;
* **`served_iff`** — a request that succeeds did what was asked for, provided that the
  number of bytes fits into 64 bits.
-/
import LinuxSgx.Loader.Metadata
import LinuxSgx.Trts.Range

namespace Trts

open Prog Loader List

/-! ### The layout -/

section Layout

def layoutIdHeapMin : UInt16 := 1
def layoutIdHeapMax : UInt16 := 3
def layoutIdStackMax : UInt16 := 7
def layoutIdStackDynMin : UInt16 := 18
def layoutIdThreadGroupDyn : UInt16 := 0x1000 ||| 19

def pageDirGrowDown : UInt16 := 0x40

def siFlagPending : UInt64 := 0x8
def siFlagModified : UInt64 := 0x10
def siFlagTrim : UInt64 := 0x400

/-- What the runtime knows about its own layout. -/
structure GlobalData where
  /-- `&__ImageBase` -/
  imageBase : UInt64
  edmmSupported : Bool
  heapOffset : UInt64
  heapSize : UInt64
  rsrvMemBase : UInt64
  rsrvMemSize : UInt64
  rsrvMemMinSize : UInt64
  layoutTable : List Layout
deriving DecidableEq, Repr

/-- An entry and a group have their identifiers in the same place. -/
def layoutId : Layout → UInt16
  | .entry e => e.id
  | .group g => g.id

def getDynamicLayoutById (g : GlobalData) (id : UInt16) : Option Layout :=
  g.layoutTable.find? fun l => layoutId l = id

def getHeapBase (g : GlobalData) : UInt64 := g.imageBase + g.heapOffset

def getHeapSize (g : GlobalData) : UInt64 :=
  if g.edmmSupported then
    g.layoutTable.foldl (fun size l =>
      match l with
      | .entry e => if e.id = layoutIdHeapMax then size + e.bytes else size
      | .group _ => size) g.heapSize
  else g.heapSize

def getHeapMinSize (g : GlobalData) : UInt64 :=
  match getDynamicLayoutById g layoutIdHeapMin with
  | some (.entry e) => e.bytes
  | _ => 0

/-- `dynamic_flags_attributes` -/
structure FlagsAttributes where
  siFlags : UInt64
  attributes : UInt16
deriving DecidableEq, Repr

/-- The comparison that all the checks make. -/
def liesIn (addr pageCount start size : UInt64) : Bool :=
  addr ≥ start ∧ addr + (pageCount <<< pageShift) ≤ start + size

def checkHeapDynRange (g : GlobalData) (addr pageCount : UInt64) : Option FlagsAttributes :=
  let start := getHeapBase g + getHeapMinSize g
  let size := getHeapSize g - getHeapMinSize g
  if liesIn addr pageCount start size then some ⟨siFlagsRw, pageAttrPostAdd⟩ else none

def checkRsrvDynRange (g : GlobalData) (addr pageCount : UInt64) : Option FlagsAttributes :=
  let start := g.rsrvMemBase + g.rsrvMemMinSize
  let size := g.rsrvMemSize - g.rsrvMemMinSize
  if liesIn addr pageCount start size then some ⟨siFlagsRw, pageAttrPostAdd⟩ else none

def checkDynamicEntryRange (g : GlobalData) (addr pageCount : UInt64) (entryId : UInt16)
    (entryOffset : UInt64) : Option FlagsAttributes :=
  if entryId < layoutIdHeapMin ∨ entryId > layoutIdStackDynMin then none
  else
    match getDynamicLayoutById g entryId with
    | some (.entry e) =>
      if liesIn addr pageCount (g.imageBase + e.rva + entryOffset) e.bytes then
        some ⟨e.siFlags, e.attributes⟩
      else none
    | _ => none

def checkUtilityThreadDynamicStack (g : GlobalData) (addr pageCount : UInt64) :
    Option FlagsAttributes :=
  checkDynamicEntryRange g addr pageCount layoutIdStackMax 0

/-- The identifiers from `LAYOUT_ID_TCS_DYN` to `LAYOUT_ID_STACK_DYN_MIN`. -/
def threadIds : List UInt16 := [14, 15, 16, 17, 18]

/-- Where the copies of the dynamic threads are, as multiples of the step. -/
def threadOffsets (g : GlobalData) : List UInt64 :=
  match getDynamicLayoutById g layoutIdThreadGroupDyn with
  | some (.group grp) =>
    (List.range (grp.loadTimes + 1).toNat).map fun i => UInt64.ofNat i * grp.loadStep
  | _ => [0]

def checkDynamicThread (g : GlobalData) (addr pageCount : UInt64) :
    Option (FlagsAttributes × UInt64) :=
  threadIds.findSome? fun id =>
    (threadOffsets g).findSome? fun offset =>
      (checkDynamicEntryRange g addr pageCount id offset).map fun fa => (fa, offset)

/-- `SIZE_MAX` -/
def sizeMax : UInt64 := 0xFFFFFFFFFFFFFFFF

/-- The flags and attributes of the region; the offset is only set for a thread. -/
def checkDynamicRange (g : GlobalData) (addr pageCount : UInt64) :
    Option (FlagsAttributes × Option UInt64) :=
  if addr > sizeMax - (pageCount <<< pageShift) then none
  else
    ((checkHeapDynRange g addr pageCount).map fun fa => (fa, none)) <|>
    ((checkUtilityThreadDynamicStack g addr pageCount).map fun fa => (fa, none)) <|>
    ((checkRsrvDynRange g addr pageCount).map fun fa => (fa, none)) <|>
    ((checkDynamicThread g addr pageCount).map fun p => (p.1, some p.2))

end Layout

/-! ### Page operations -/

section Operations

inductive Event
  | eaccept (flags page : UInt64)
  /-- `trim_range_ocall` -/
  | trimRange (fromAddr toAddr : UInt64)
  /-- `trim_range_commit_ocall` -/
  | trimCommit (page : UInt64)
deriving DecidableEq, Repr

/-- The outcome of each operation, and the operations so far. -/
structure Epc where
  answer : ℕ → Int
  clock : ℕ
  events : List Event

def ask (ev : Event) : Prog Epc Int := do
  let s ← get
  set { s with clock := s.clock + 1, events := s.events ++ [ev] }
  return s.answer s.clock

/-- False is `abort`. -/
def doEaccept (flags page : UInt64) : Prog Epc Bool := do
  if page.toNat % 4096 ≠ 0 then return false
  else return (← ask (.eaccept flags page)) = 0

/-- The loop of `sgx_accept_forward`. -/
def acceptForward (flags hi : UInt64) : ℕ → UInt64 → Prog Epc Bool
  | 0, _ => failure
  | fuel + 1, addr => do
    if addr < hi then
      if ← doEaccept flags addr then acceptForward flags hi fuel (addr + 4096) else return false
    else return true

/-- The loop of `sgx_accept_backward`. -/
def acceptBackward (flags lo : UInt64) : ℕ → UInt64 → Prog Epc Bool
  | 0, _ => failure
  | fuel + 1, addr => do
    if lo < addr then
      if ← doEaccept flags (addr - 4096) then acceptBackward flags lo fuel (addr - 4096)
      else return false
    else return true

/-- More pages than there are addresses; a loop that needs more does not end. -/
def pageFuel : ℕ := 2 ^ 52 + 1

def sgxAcceptForward (flags lo hi : UInt64) : Prog Epc Bool := acceptForward flags hi pageFuel lo

def sgxAcceptBackward (flags lo hi : UInt64) : Prog Epc Bool := acceptBackward flags lo pageFuel hi

/-- The last loop of `trim_EPC_pages`, with the result of the last call. -/
def commitTrims (hi : UInt64) : ℕ → UInt64 → Int → Prog Epc Int
  | 0, _, _ => failure
  | fuel + 1, addr, rc => do
    if addr < hi then
      let rc ← ask (.trimCommit addr)
      commitTrims hi fuel (addr + 4096) rc
    else return rc

/-- `none` is `abort`. -/
def applyEpcPages (g : GlobalData) (addr pageCount : UInt64) : Prog Epc (Option Int) := do
  if addr = 0 then return some (-1)
  else
    match checkDynamicRange g addr pageCount with
    | none => return some (-1)
    | some (fa, _) =>
      let stop := addr + (pageCount <<< pageShift)
      let accepted ←
        if fa.attributes &&& pageDirGrowDown ≠ 0 then
          sgxAcceptForward (siFlagsRw ||| siFlagPending) addr stop
        else sgxAcceptBackward (siFlagsRw ||| siFlagPending) addr stop
      return if accepted then some 0 else none

def applyPagesWithinException (g : GlobalData) (addr pageCount : UInt64) :
    Prog Epc (Option Int) := do
  if addr = 0 then return some (-1)
  else
    match checkDynamicRange g addr pageCount with
    | none => return some (-1)
    | some _ =>
      let stop := addr + (pageCount <<< pageShift)
      let accepted ← sgxAcceptForward (siFlagsRw ||| siFlagPending) addr stop
      return if accepted then some 0 else none

def trimEpcPages (g : GlobalData) (addr pageCount : UInt64) : Prog Epc (Option Int) := do
  if addr = 0 then return some (-1)
  else
    match checkDynamicRange g addr pageCount with
    | none => return some (-1)
    | some _ =>
      let stop := addr + (pageCount <<< pageShift)
      let _ ← ask (.trimRange addr stop)
      if ← sgxAcceptForward (siFlagTrim ||| siFlagModified) addr stop then
        return some (← commitTrims stop pageFuel addr 0)
      else return none

end Operations

/-! ### Regions -/

section Regions

variable {g : GlobalData} {addr pageCount start size : UInt64}

/-- The regions that pages may be added to, as ranges of numbers. -/
inductive Region (g : GlobalData) : ℕ → ℕ → Prop
  | heap : Region g (getHeapBase g + getHeapMinSize g).toNat
      (getHeapBase g + getHeapMinSize g + (getHeapSize g - getHeapMinSize g)).toNat
  | rsrv : Region g (g.rsrvMemBase + g.rsrvMemMinSize).toNat
      (g.rsrvMemBase + g.rsrvMemMinSize + (g.rsrvMemSize - g.rsrvMemMinSize)).toNat
  | utilityStack (e : LayoutEntry)
      (he : getDynamicLayoutById g layoutIdStackMax = some (.entry e)) :
      Region g (g.imageBase + e.rva + 0).toNat (g.imageBase + e.rva + 0 + e.bytes).toNat
  | thread (id : UInt16) (e : LayoutEntry) (offset : UInt64) (hid : id ∈ threadIds)
      (he : getDynamicLayoutById g id = some (.entry e)) (hoff : offset ∈ threadOffsets g) :
      Region g (g.imageBase + e.rva + offset).toNat (g.imageBase + e.rva + offset + e.bytes).toNat

theorem Region.hi_lt {lo hi : ℕ} (h : Region g lo hi) : hi < 2 ^ 64 := by
  cases h <;> exact UInt64.toNat_lt _

theorem toNat_shift (pageCount : UInt64) :
    (pageCount <<< pageShift).toNat = pageCount.toNat * 4096 % 2 ^ 64 := by
  have hshift : pageShift.toNat % 64 = 12 := rfl
  rw [UInt64.toNat_shiftLeft, Nat.shiftLeft_eq, hshift]

/-- The number of bytes that the request is for, as the runtime computes it. -/
def requestBytes (pageCount : UInt64) : ℕ := pageCount.toNat * 4096 % 2 ^ 64

/-- The end of the request does not wrap around. -/
theorem toNat_stop (h : ¬addr > sizeMax - (pageCount <<< pageShift)) :
    (addr + (pageCount <<< pageShift)).toNat = addr.toNat + requestBytes pageCount ∧
      addr.toNat + requestBytes pageCount < 2 ^ 64 := by
  have hlt := (pageCount <<< pageShift).toNat_lt
  have hmax : sizeMax.toNat = 2 ^ 64 - 1 := rfl
  have hle : (pageCount <<< pageShift) ≤ sizeMax := by
    rw [UInt64.le_iff_toNat_le]
    omega
  rw [gt_iff_lt, UInt64.lt_iff_toNat_lt, UInt64.toNat_sub_of_le _ _ hle] at h
  rw [UInt64.toNat_add, toNat_shift, requestBytes] at *
  omega

/-- The request lies in the range from `lo` to `hi`. -/
def Within (addr pageCount : UInt64) (lo hi : ℕ) : Prop :=
  lo ≤ addr.toNat ∧ addr.toNat + requestBytes pageCount ≤ hi

theorem within_of_liesIn (hstop : ¬addr > sizeMax - (pageCount <<< pageShift))
    (h : liesIn addr pageCount start size = true) :
    Within addr pageCount start.toNat (start + size).toNat := by
  rw [liesIn, decide_eq_true_eq, ge_iff_le, UInt64.le_iff_toNat_le, UInt64.le_iff_toNat_le,
    (toNat_stop hstop).1] at h
  exact h

theorem checkDynamicEntryRange_some {id : UInt16} {offset : UInt64} {fa : FlagsAttributes}
    (h : checkDynamicEntryRange g addr pageCount id offset = some fa) :
    ∃ e, getDynamicLayoutById g id = some (.entry e) ∧
      liesIn addr pageCount (g.imageBase + e.rva + offset) e.bytes = true := by
  rw [checkDynamicEntryRange] at h
  split_ifs at h
  split at h
  · next e he =>
    split_ifs at h with hin
    exact ⟨e, he, hin⟩
  · cases h

/-- What is accepted lies in one region. -/
theorem region_of_checkDynamicRange {r : FlagsAttributes × Option UInt64}
    (h : checkDynamicRange g addr pageCount = some r) :
    ∃ lo hi, Region g lo hi ∧ Within addr pageCount lo hi := by
  rw [checkDynamicRange] at h
  split_ifs at h with hstop
  simp only [Option.orElse_eq_orElse, Option.orElse_eq_or, Option.or_eq_some_iff,
    Option.map_eq_some_iff] at h
  rcases h with ⟨fa, hfa, -⟩ | ⟨-, ⟨fa, hfa, -⟩ | ⟨-, ⟨fa, hfa, -⟩ | ⟨-, p, hp, -⟩⟩⟩
  · rw [checkHeapDynRange] at hfa
    split_ifs at hfa with hin
    exact ⟨_, _, .heap, within_of_liesIn hstop hin⟩
  · obtain ⟨e, he, hin⟩ := checkDynamicEntryRange_some hfa
    exact ⟨_, _, .utilityStack e he, within_of_liesIn hstop hin⟩
  · rw [checkRsrvDynRange] at hfa
    split_ifs at hfa with hin
    exact ⟨_, _, .rsrv, within_of_liesIn hstop hin⟩
  · obtain ⟨id, hid, hp⟩ := List.exists_of_findSome?_eq_some hp
    obtain ⟨offset, hoff, hp⟩ := List.exists_of_findSome?_eq_some hp
    obtain ⟨fa, hfa, -⟩ := Option.map_eq_some_iff.mp hp
    obtain ⟨e, he, hin⟩ := checkDynamicEntryRange_some hfa
    exact ⟨_, _, .thread id e offset hid he hoff, within_of_liesIn hstop hin⟩

end Regions

/-! ### Accepting pages -/

section Accepting

variable {flags : UInt64} {ps qs : List ℕ} {s s' s'' : Epc} {ok : Bool}

/-- The pages `ps` were accepted in this order, or only the first of them. -/
def Accepts (flags : UInt64) (ps : List ℕ) (s : Epc) (ok : Bool) (s' : Epc) : Prop :=
  ∃ done : List UInt64, s'.events = s.events ++ done.map (Event.eaccept flags) ∧
    done.map UInt64.toNat <+: ps ∧ (ok = true → done.map UInt64.toNat = ps)

theorem accepts_nil (flags : UInt64) (s : Epc) : Accepts flags [] s true s :=
  ⟨[], by simp, by simp, by simp⟩

theorem Accepts.seq (h : Accepts flags ps s true s') (h' : Accepts flags qs s' ok s'') :
    Accepts flags (ps ++ qs) s ok s'' := by
  obtain ⟨done, hev, -, hps⟩ := h
  obtain ⟨done', hev', hpre, hqs⟩ := h'
  refine ⟨done ++ done', ?_, ?_, fun hok => ?_⟩
  · rw [hev', hev, map_append, List.append_assoc]
  · rw [map_append, hps rfl]
    exact (prefix_append_right_inj ps).mpr hpre
  · rw [map_append, hps rfl, hqs hok]

theorem Accepts.stop (h : Accepts flags ps s false s') : Accepts flags (ps ++ qs) s false s' := by
  obtain ⟨done, hev, hpre, -⟩ := h
  exact ⟨done, hev, hpre.trans (prefix_append ps qs), by simp⟩

theorem spec_doEaccept (flags page : UInt64) (s : Epc) :
    wp False (doEaccept flags page) (Accepts flags [page.toNat] s) s := by
  rw [doEaccept, wp_ite]
  refine ⟨fun _ => ⟨[], by simp, by simp, by simp⟩, fun _ => ?_⟩
  exact ⟨[page], rfl, prefix_rfl, fun _ => rfl⟩

/-- One step of a loop that accepts pages. -/
theorem accepts_cons {page : UInt64} {rest : Prog Epc Bool}
    (h : ∀ s', wp False rest (Accepts flags qs s') s') (s : Epc) :
    wp False (do if ← doEaccept flags page then rest else return false)
      (Accepts flags (page.toNat :: qs) s) s := by
  rw [wp_bind]
  refine wp_mono (spec_doEaccept flags page s) fun ok s₁ h₁ => ?_
  cases ok with
  | false => exact h₁.stop
  | true => exact wp_mono (h s₁) fun ok s₂ h₂ => h₁.seq h₂

theorem spec_acceptForward {hi addr : UInt64} {n fuel : ℕ} (hn : addr.toNat + 4096 * n = hi.toNat)
    (hfuel : n < fuel) (s : Epc) :
    wp False (acceptForward flags hi fuel addr)
      (Accepts flags (List.range' addr.toNat n 4096) s) s := by
  induction fuel generalizing addr n s with
  | zero => omega
  | succ fuel ih =>
    have hhi := hi.toNat_lt
    rw [acceptForward, wp_ite]
    refine ⟨fun hlt => ?_, fun hge => ?_⟩
    · rw [UInt64.lt_iff_toNat_lt] at hlt
      obtain ⟨m, rfl⟩ : ∃ m, n = m + 1 := ⟨n - 1, by omega⟩
      have hnext : (addr + 4096).toNat = addr.toNat + 4096 := by
        rw [UInt64.toNat_add, show (4096 : UInt64).toNat = 4096 from rfl]
        omega
      rw [List.range'_succ, ← hnext]
      exact accepts_cons (fun s' => ih (by omega) (by omega) s') s
    · rw [UInt64.lt_iff_toNat_lt] at hge
      obtain rfl : n = 0 := by omega
      exact accepts_nil flags s

theorem spec_acceptBackward {lo addr : UInt64} {n fuel : ℕ}
    (hn : lo.toNat + 4096 * n = addr.toNat) (hfuel : n < fuel) (s : Epc) :
    wp False (acceptBackward flags lo fuel addr)
      (Accepts flags (List.range' lo.toNat n 4096).reverse s) s := by
  induction fuel generalizing addr n s with
  | zero => omega
  | succ fuel ih =>
    rw [acceptBackward, wp_ite]
    refine ⟨fun hlt => ?_, fun hge => ?_⟩
    · rw [UInt64.lt_iff_toNat_lt] at hlt
      obtain ⟨m, rfl⟩ : ∃ m, n = m + 1 := ⟨n - 1, by omega⟩
      have hprev : (addr - 4096).toNat = lo.toNat + 4096 * m := by
        have hle : (4096 : UInt64) ≤ addr := by
          rw [UInt64.le_iff_toNat_le, show (4096 : UInt64).toNat = 4096 from rfl]
          omega
        rw [UInt64.toNat_sub_of_le _ _ hle, show (4096 : UInt64).toNat = 4096 from rfl]
        omega
      rw [List.range'_concat, List.reverse_append, reverse_singleton, singleton_append,
        ← hprev]
      exact accepts_cons (fun s' => ih hprev.symm (by omega) s') s
    · rw [UInt64.lt_iff_toNat_lt] at hge
      obtain rfl : n = 0 := by omega
      exact accepts_nil flags s

end Accepting

/-! ### Requests -/

section Requests

variable {g : GlobalData} {addr pageCount : UInt64} {s s' : Epc}

theorem spec_commitTrims {hi addr : UInt64} {n fuel : ℕ} (hn : addr.toNat + 4096 * n = hi.toNat)
    (hfuel : n < fuel) (rc : Int) (s : Epc) :
    wp False (commitTrims hi fuel addr rc) (fun _ s' => ∃ done : List UInt64,
      s'.events = s.events ++ done.map Event.trimCommit ∧
        done.map UInt64.toNat = List.range' addr.toNat n 4096) s := by
  induction fuel generalizing addr n rc s with
  | zero => omega
  | succ fuel ih =>
    have hhi := hi.toNat_lt
    rw [commitTrims, wp_ite]
    refine ⟨fun hlt => ?_, fun hge => ?_⟩
    · rw [UInt64.lt_iff_toNat_lt] at hlt
      obtain ⟨m, rfl⟩ : ∃ m, n = m + 1 := ⟨n - 1, by omega⟩
      have hnext : (addr + 4096).toNat = addr.toNat + 4096 := by
        rw [UInt64.toNat_add, show (4096 : UInt64).toNat = 4096 from rfl]
        omega
      refine wp_mono (ih (n := m) (by omega) (by omega) _ _) ?_
      rintro _ s' ⟨done, hev, hdone⟩
      refine ⟨addr :: done, ?_, ?_⟩
      · rw [hev, List.append_assoc]
        rfl
      · rw [map_cons, hdone, hnext, List.range'_succ]
    · rw [UInt64.lt_iff_toNat_lt] at hge
      obtain rfl : n = 0 := by omega
      exact ⟨[], by simp, rfl⟩

/-- The two calls that programs make. -/
inductive Request
  | apply
  | trim
deriving DecidableEq, Repr

def Request.run : Request → GlobalData → UInt64 → UInt64 → Prog Epc (Option Int)
  | .apply => applyEpcPages
  | .trim => trimEpcPages

/-- The state that a page is accepted in. -/
def Request.flags : Request → UInt64
  | .apply => siFlagsRw ||| siFlagPending
  | .trim => siFlagTrim ||| siFlagModified

/-- The operation is about pages between `lo` and `hi`. -/
def Event.Inside (lo hi : ℕ) : Event → Prop
  | .eaccept _ page => lo ≤ page.toNat ∧ page.toNat + 4096 ≤ hi
  | .trimRange fromAddr toAddr => lo ≤ fromAddr.toNat ∧ toAddr.toNat ≤ hi
  | .trimCommit page => lo ≤ page.toNat ∧ page.toNat + 4096 ≤ hi

/-- The pages that were accepted in a given state. -/
def acceptedPages (flags : UInt64) (evs : List Event) : List ℕ :=
  evs.filterMap fun
    | .eaccept f page => if f = flags then some page.toNat else none
    | _ => none

theorem acceptedPages_append (flags : UInt64) (evs evs' : List Event) :
    acceptedPages flags (evs ++ evs') = acceptedPages flags evs ++ acceptedPages flags evs' :=
  filterMap_append

theorem acceptedPages_map (flags : UInt64) (done : List UInt64) :
    acceptedPages flags (done.map (Event.eaccept flags)) = done.map UInt64.toNat := by
  rw [acceptedPages, filterMap_map]
  have h : ∀ done : List UInt64, done.map UInt64.toNat =
      done.filterMap fun page => some page.toNat := fun done => by
    rw [← filterMap_eq_map]
    rfl
  rw [h]
  congr 1
  funext page
  exact if_pos rfl

theorem acceptedPages_commits (flags : UInt64) (done : List UInt64) :
    acceptedPages flags (done.map Event.trimCommit) = [] := by
  rw [acceptedPages, filterMap_map, filterMap_eq_nil_iff]
  intro page _
  rfl

/-- A page of the request lies where the request lies. -/
theorem inside_of_mem {lo hi n : ℕ} {page : UInt64} (hlo : lo ≤ addr.toNat)
    (hhi : addr.toNat + 4096 * n ≤ hi) (h : page.toNat ∈ List.range' addr.toNat n 4096) :
    lo ≤ page.toNat ∧ page.toNat + 4096 ≤ hi := by
  obtain ⟨i, hi', heq⟩ := mem_range'.mp h
  omega

/-- The number of pages that the loops go over. -/
def requestPages (pageCount : UInt64) : ℕ := requestBytes pageCount / 4096

theorem requestBytes_eq (pageCount : UInt64) :
    requestBytes pageCount = 4096 * requestPages pageCount := by
  rw [requestPages, requestBytes]
  omega

/-- What a request does: all of it is inside one region, and if it succeeds it has gone
over its pages. -/
def Requested (g : GlobalData) (req : Request) (addr pageCount : UInt64) (s : Epc)
    (r : Option Int) (s' : Epc) : Prop :=
  ∃ done, s'.events = s.events ++ done ∧
    (done = [] ∨ ∃ lo hi, Region g lo hi ∧ ∀ ev ∈ done, ev.Inside lo hi) ∧
    (r = some 0 → (∃ lo hi, Region g lo hi ∧ Within addr pageCount lo hi) ∧
      (acceptedPages req.flags done).Perm
        (List.range' addr.toNat (requestPages pageCount) 4096))

theorem requested_refused (req : Request) : Requested g req addr pageCount s (some (-1)) s :=
  ⟨[], by simp, .inl rfl, by simp⟩

/-- The request after its check. -/
structure Checked (g : GlobalData) (addr pageCount : UInt64) (lo hi : ℕ) : Prop where
  region : Region g lo hi
  within : Within addr pageCount lo hi
  stop : addr.toNat + 4096 * requestPages pageCount = (addr + (pageCount <<< pageShift)).toNat
  fuel : requestPages pageCount < pageFuel

theorem checked_of_checkDynamicRange {r : FlagsAttributes × Option UInt64}
    (h : checkDynamicRange g addr pageCount = some r) : ∃ lo hi, Checked g addr pageCount lo hi := by
  obtain ⟨lo, hi, hregion, hwithin⟩ := region_of_checkDynamicRange h
  rw [checkDynamicRange] at h
  split_ifs at h with hstop
  obtain ⟨hsum, hlt⟩ := toNat_stop hstop
  have hbytes := requestBytes_eq pageCount
  refine ⟨lo, hi, hregion, hwithin, by omega, ?_⟩
  rw [pageFuel]
  omega

theorem Checked.inside {lo hi : ℕ} {page : UInt64} (h : Checked g addr pageCount lo hi)
    (hp : page.toNat ∈ List.range' addr.toNat (requestPages pageCount) 4096) :
    lo ≤ page.toNat ∧ page.toNat + 4096 ≤ hi := by
  have hbytes := requestBytes_eq pageCount
  have hwithin := h.within
  exact inside_of_mem hwithin.1 (by rw [← hbytes]; exact hwithin.2) hp

theorem Checked.inside_of_prefix (flags : UInt64) {lo hi : ℕ} {done : List UInt64} {ps : List ℕ}
    (h : Checked g addr pageCount lo hi)
    (hps : ps.Perm (List.range' addr.toNat (requestPages pageCount) 4096))
    (hpre : done.map UInt64.toNat <+: ps) :
    ∀ ev ∈ done.map (Event.eaccept flags), ev.Inside lo hi := by
  intro ev hev
  obtain ⟨page, hpage, rfl⟩ := List.mem_map.mp hev
  exact h.inside (hps.mem_iff.mp (hpre.subset (List.mem_map_of_mem hpage)))

theorem spec_applyEpcPages (g : GlobalData) (addr pageCount : UInt64) (s : Epc) :
    wp False (applyEpcPages g addr pageCount) (Requested g .apply addr pageCount s) s := by
  rw [applyEpcPages, wp_ite]
  refine ⟨fun _ => requested_refused .apply, fun _ => ?_⟩
  cases hcheck : checkDynamicRange g addr pageCount with
  | none => exact requested_refused .apply
  | some r =>
    obtain ⟨lo, hi, hc⟩ := checked_of_checkDynamicRange hcheck
    have hend : ∀ {ps : List ℕ} {ok : Bool} {s' : Epc},
        ps.Perm (List.range' addr.toNat (requestPages pageCount) 4096) →
        Accepts (siFlagsRw ||| siFlagPending) ps s ok s' →
        Requested g .apply addr pageCount s (if ok = true then some 0 else none) s' := by
      rintro ps ok s' hps ⟨done, hev, hpre, hall⟩
      refine ⟨_, hev, .inr ⟨lo, hi, hc.region, hc.inside_of_prefix _ hps hpre⟩, fun hr => ?_⟩
      cases ok with
      | false => cases hr
      | true =>
        refine ⟨⟨lo, hi, hc.region, hc.within⟩, ?_⟩
        rw [Request.flags, acceptedPages_map, hall rfl]
        exact hps
    rw [wp_ite]
    refine ⟨fun _ => ?_, fun _ => ?_⟩
    · rw [wp_bind]
      exact wp_mono (spec_acceptForward hc.stop hc.fuel s) fun ok s' h => hend (.refl _) h
    · rw [wp_bind]
      exact wp_mono (spec_acceptBackward hc.stop hc.fuel s) fun ok s' h =>
        hend (reverse_perm _) h

/-- The call of the exception handler goes upwards over its pages, or refuses. -/
theorem spec_applyPagesWithinException (g : GlobalData) (addr pageCount : UInt64) (s : Epc) :
    wp False (applyPagesWithinException g addr pageCount) (fun r s' => r = some (-1) ∧ s' = s ∨
      ∃ ok, r = (if ok = true then some 0 else none) ∧
        Accepts (siFlagsRw ||| siFlagPending)
          (List.range' addr.toNat (requestPages pageCount) 4096) s ok s') s := by
  rw [applyPagesWithinException, wp_ite]
  refine ⟨fun _ => .inl ⟨rfl, rfl⟩, fun _ => ?_⟩
  cases hcheck : checkDynamicRange g addr pageCount with
  | none => exact .inl ⟨rfl, rfl⟩
  | some r =>
    obtain ⟨lo, hi, hc⟩ := checked_of_checkDynamicRange hcheck
    rw [wp_bind]
    exact wp_mono (spec_acceptForward hc.stop hc.fuel s) fun ok s' h => .inr ⟨ok, rfl, h⟩

theorem spec_trimEpcPages (g : GlobalData) (addr pageCount : UInt64) (s : Epc) :
    wp False (trimEpcPages g addr pageCount) (Requested g .trim addr pageCount s) s := by
  rw [trimEpcPages, wp_ite]
  refine ⟨fun _ => requested_refused .trim, fun _ => ?_⟩
  cases hcheck : checkDynamicRange g addr pageCount with
  | none => exact requested_refused .trim
  | some r =>
    obtain ⟨lo, hi, hc⟩ := checked_of_checkDynamicRange hcheck
    have htrim : (Event.trimRange addr (addr + (pageCount <<< pageShift))).Inside lo hi := by
      have hbytes := requestBytes_eq pageCount
      have hstop := hc.stop
      obtain ⟨hlo, hhi⟩ := hc.within
      exact ⟨hlo, by omega⟩
    simp only [ask, wp_bind, wp_get, wp_set, wp_pure]
    refine wp_mono (spec_acceptForward hc.stop hc.fuel _) ?_
    rintro ok s₁ ⟨done, hev, hpre, hall⟩
    have haccept := hc.inside_of_prefix (siFlagTrim ||| siFlagModified) (.refl _) hpre
    rw [List.append_assoc] at hev
    cases ok with
    | false =>
      refine ⟨_, hev, .inr ⟨lo, hi, hc.region, fun ev hmem => ?_⟩, by simp⟩
      rcases mem_cons.mp hmem with rfl | hmem
      · exact htrim
      · exact haccept ev hmem
    | true =>
      rw [if_pos rfl, wp_bind]
      refine wp_mono (spec_commitTrims hc.stop hc.fuel 0 s₁) ?_
      rintro rc s₂ ⟨commits, hev₂, hcommits⟩
      rw [hev, List.append_assoc] at hev₂
      refine ⟨_, hev₂, .inr ⟨lo, hi, hc.region, fun ev hmem => ?_⟩, fun _ => ⟨⟨lo, hi, hc.region,
        hc.within⟩, ?_⟩⟩
      · rcases mem_append.mp hmem with hmem | hmem
        · rcases mem_cons.mp hmem with rfl | hmem
          · exact htrim
          · exact haccept ev hmem
        · obtain ⟨page, hpage, rfl⟩ := List.mem_map.mp hmem
          exact hc.inside (hcommits ▸ List.mem_map_of_mem hpage)
      · rw [acceptedPages_append, acceptedPages_commits, append_nil, Request.flags,
          singleton_append]
        show (acceptedPages _ (done.map (Event.eaccept _))).Perm _
        rw [acceptedPages_map, hall rfl]

theorem spec_run (g : GlobalData) (req : Request) (addr pageCount : UInt64) (s : Epc) :
    wp False (req.run g addr pageCount) (Requested g req addr pageCount s) s := by
  cases req with
  | apply => exact spec_applyEpcPages g addr pageCount s
  | trim => exact spec_trimEpcPages g addr pageCount s

/-- What was asked for: all the pages lie in one region, and these pages and no others were
accepted. -/
structure Served (g : GlobalData) (req : Request) (addr pageCount : UInt64) (s s' : Epc) :
    Prop where
  region : ∃ lo hi, Region g lo hi ∧ lo ≤ addr.toNat ∧
    addr.toNat + pageCount.toNat * 4096 ≤ hi
  pages : ∃ done, s'.events = s.events ++ done ∧
    (acceptedPages req.flags done).Perm (List.range' addr.toNat pageCount.toNat 4096)

/-- Every request ends; it touches nothing outside a single dynamic region; and one that
succeeds did what was asked for exactly if the pages are fewer than `2 ^ 52`. -/
theorem served_iff (g : GlobalData) (req : Request) (addr pageCount : UInt64) (s : Epc) :
    ∃ r s', req.run g addr pageCount s = some (r, s') ∧
      (∃ done, s'.events = s.events ++ done ∧
        (done = [] ∨ ∃ lo hi, Region g lo hi ∧ ∀ ev ∈ done, ev.Inside lo hi)) ∧
      (r = some 0 → (Served g req addr pageCount s s' ↔ pageCount.toNat < 2 ^ 52)) := by
  obtain ⟨r, s', hrun, done, hev, htouched, hdone⟩ :=
    wp_false_iff.mp (spec_run g req addr pageCount s)
  refine ⟨r, s', hrun, ⟨done, hev, htouched⟩, fun hr => ⟨fun h => ?_, fun hlt => ?_⟩⟩
  · -- more bytes than there are addresses do not fit into a region
    obtain ⟨lo, hi, hregion, -, hle⟩ := h.region
    have := hregion.hi_lt
    omega
  · obtain ⟨⟨lo, hi, hregion, hwithin⟩, hpages⟩ := hdone hr
    have hbytes : requestBytes pageCount = pageCount.toNat * 4096 := by
      rw [requestBytes]
      omega
    have hcount : requestPages pageCount = pageCount.toNat := by
      rw [requestPages, hbytes]
      omega
    rw [hcount] at hpages
    rw [Within, hbytes] at hwithin
    exact ⟨⟨lo, hi, hregion, hwithin⟩, done, hev, hpages⟩

/-- A heap of one page that may grow by two. -/
def smallHeap : GlobalData where
  imageBase := 0x10000
  edmmSupported := true
  heapOffset := 0x1000
  heapSize := 0x1000
  rsrvMemBase := 0
  rsrvMemSize := 0
  rsrvMemMinSize := 0
  layoutTable :=
    [.entry ⟨layoutIdHeapMin, pageAttrEadd, 1, 0x1000, 0, 0, siFlagsRw⟩,
      .entry ⟨layoutIdHeapMax, pageAttrPostAdd, 2, 0x2000, 0, 0, siFlagsRw⟩]

/-- A request for `2 ^ 52 + 1` pages succeeds with one page. -/
theorem served_one_page : ∃ s', Request.run .apply smallHeap 0x12000 0x10000000000001
      ⟨fun _ => 0, 0, []⟩ = some (some 0, s') ∧
    s'.events = [.eaccept (siFlagsRw ||| siFlagPending) 0x12000] ∧
    ¬Served smallHeap .apply 0x12000 0x10000000000001 ⟨fun _ => 0, 0, []⟩ s' := by
  have hrun : (Request.run .apply smallHeap 0x12000 0x10000000000001 ⟨fun _ => 0, 0, []⟩).map
      (fun p => (p.1, p.2.events)) =
        some (some 0, [.eaccept (siFlagsRw ||| siFlagPending) 0x12000]) := by
    decide +kernel
  obtain ⟨⟨r, s'⟩, hp, heq⟩ := Option.map_eq_some_iff.mp hrun
  rw [Prod.mk.injEq] at heq
  obtain ⟨rfl, hev⟩ := heq
  refine ⟨s', hp, hev, fun h => ?_⟩
  obtain ⟨lo, hi, hregion, -, hle⟩ := h.region
  have := hregion.hi_lt
  have hcount : (0x10000000000001 : UInt64).toNat = 2 ^ 52 + 1 := rfl
  omega

end Requests

end Trts
