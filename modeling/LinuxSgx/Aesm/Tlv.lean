/-
Decoding of the TLVs of a provisioning message (type_length_value.cpp).

A message is a sequence of TLVs: a header with the type, the version and the size, and the
payload.  The highest bit of the type says whether the size has two or four bytes.
`TLVsMsg::init_from_tlv_msg` copies the message and decodes one TLV after the other until
nothing is left.

* `readTlvInfo`, `decodeOneTlv`, `initFromTlvMsg` — as in the source, a pointer into the copy
  being its offset there;
* `Meets` — the positions the loop gets to;
* `decodeLoop_returns`, `decodeLoop_tiles` — while no header wraps around, the loop ends and
  its TLVs follow each other;
* **`init_partitions_iff`** — the decoder is right unless it accepts a message (or runs on
  forever) after a header whose `header_size + size` does not fit into 32 bits.

Design notes: the loop need not end, so that it has fuel; `none` is "still running".  The
allocator may refuse any call, `malloc k` is its answer to call number `k`.
-/
import LinuxSgx.Lib.Tiles
import Mathlib.Algebra.Group.Nat.Defs
import Mathlib.Logic.Relation

open Ranges

namespace Aesm

/-! ### The model -/

/-- A byte buffer: `msg_size` is a `uint32_t`. -/
abbrev Buffer := { l : List UInt8 // l.length < 2 ^ 32 }

/-- The byte at an offset. -/
def Buffer.byte (buf : Buffer) (i : ℕ) : UInt8 := buf.1.getD i 0

inductive TlvStatus where
  | success
  | outOfMemoryError
  | invalidParameterError
  | invalidMsgError
  | unknownError
  | moreTlvs
  | insufficientMemory
  | invalidFormat
  | unsupported
deriving DecidableEq, Repr

/-- `tlv_info_t`. -/
structure TlvInfo where
  type : UInt8
  version : UInt8
  headerSize : UInt16
  size : UInt32
  payload : ℕ
deriving DecidableEq, Repr

/-- `tlv_msg_t`: what is left of the message. -/
structure TlvMsg where
  msgBuf : ℕ
  msgSize : UInt32
deriving DecidableEq, Repr

/-- `TLVsMsg`. -/
structure TLVsMsg where
  infos : List TlvInfo
  msg : List UInt8
deriving DecidableEq, Repr

def smallTlvHeaderSize : UInt32 := 4

def largeTlvHeaderSize : UInt32 := 6

def fourBytesSizeType : UInt8 := 128

def isFourBytesSizeType (x : UInt8) : Bool := x &&& fourBytesSizeType != 0

def getTlvType (x : UInt8) : UInt8 := x &&& ~~~fourBytesSizeType

def ntohs (a b : UInt8) : UInt32 := a.toUInt32 <<< 8 ||| b.toUInt32

def ntohl (a b c d : UInt8) : UInt32 := ntohs a b <<< 16 ||| ntohs c d

/-- `read_tlv_info`: the header at the start of `msg`. -/
def readTlvInfo (buf : Buffer) (msg : TlvMsg) : Option TlvInfo :=
  let byte i := buf.byte (msg.msgBuf + i)
  if msg.msgSize < smallTlvHeaderSize then none
  else if isFourBytesSizeType (byte 0) then
    if msg.msgSize < largeTlvHeaderSize then none
    else some {
      type := getTlvType (byte 0)
      version := byte 1
      headerSize := 6
      size := ntohl (byte 2) (byte 3) (byte 4) (byte 5)
      payload := msg.msgBuf + 6 }
  else some {
    type := getTlvType (byte 0)
    version := byte 1
    headerSize := 4
    size := ntohs (byte 2) (byte 3)
    payload := msg.msgBuf + 4 }

/-- `decode_one_tlv`: the first TLV and what is left after it. -/
def decodeOneTlv (buf : Buffer) (msg : TlvMsg) : Option (TlvInfo × TlvMsg) :=
  match readTlvInfo buf msg with
  | none => none
  | some info =>
    -- a sum of 32 bits
    let totalSize := info.headerSize.toUInt32 + info.size
    if msg.msgSize < totalSize then none
    else some (info, ⟨msg.msgBuf + totalSize.toNat, msg.msgSize - totalSize⟩)

/-- The loop of `init_from_tlv_msg`, with the entry that `create_new_info` appends. -/
def decodeLoop (malloc : ℕ → Bool) (buf : Buffer) :
    (fuel : ℕ) → (call : ℕ) → TlvMsg → List TlvInfo → Option (TlvStatus × List TlvInfo)
  | 0, _, _, _ => none
  | fuel + 1, call, tmp, infos =>
    if 0 < tmp.msgSize then
      match decodeOneTlv buf tmp with
      | none => some (.invalidMsgError, infos)
      | some (info, tmp') =>
        if malloc call then decodeLoop malloc buf fuel (call + 1) tmp' (infos ++ [info])
        else some (.outOfMemoryError, infos)
    else some (.success, infos)

/-- The copy of the message before the loop. -/
def Buffer.all (buf : Buffer) : TlvMsg := ⟨0, UInt32.ofNat buf.1.length⟩

/-- `init_from_tlv_msg`: `clear` leaves nothing of the object's last message. -/
def initFromTlvMsg (malloc : ℕ → Bool) (buf : Buffer) (fuel : ℕ) : Option (TlvStatus × TLVsMsg) :=
  if malloc 0 then
    (decodeLoop malloc buf fuel 1 buf.all []).map fun r => (r.1, ⟨r.2, buf.1⟩)
  else some (.outOfMemoryError, ⟨[], []⟩)

/-! ### One TLV -/

/-- Header and payload, as `(start, length)` in the message. -/
def TlvInfo.range (info : TlvInfo) : ℕ × ℕ :=
  (info.payload - info.headerSize.toNat, info.headerSize.toNat + info.size.toNat)

/-- The total size of the TLV fits into 32 bits. -/
def TlvInfo.NoWrap (info : TlvInfo) : Prop := info.headerSize.toNat + info.size.toNat < 2 ^ 32

variable {buf : Buffer} {malloc : ℕ → Bool} {msg msg' : TlvMsg} {info : TlvInfo}

/-- A header that was read: it has 4 or 6 bytes, and the payload is behind it. -/
structure IsHeader (msg : TlvMsg) (info : TlvInfo) : Prop where
  pos : 4 ≤ info.headerSize.toNat
  le : info.headerSize.toNat ≤ msg.msgSize.toNat
  payload : info.payload = msg.msgBuf + info.headerSize.toNat

theorem isHeader_of_readTlvInfo (h : readTlvInfo buf msg = some info) : IsHeader msg info := by
  simp only [readTlvInfo] at h
  split_ifs at h with hsmall hfour hlarge
  · cases h
    have hle : 6 ≤ msg.msgSize.toNat := by
      rw [UInt32.not_lt, UInt32.le_iff_toNat_le] at hlarge
      exact hlarge
    exact ⟨Nat.le_of_ble_eq_true rfl, hle, rfl⟩
  · cases h
    have hle : 4 ≤ msg.msgSize.toNat := by
      rw [UInt32.not_lt, UInt32.le_iff_toNat_le] at hsmall
      exact hsmall
    exact ⟨Nat.le_refl 4, hle, rfl⟩

/-- The message after a TLV, in the decoder's arithmetic. -/
structure Advances (msg : TlvMsg) (info : TlvInfo) (msg' : TlvMsg) : Prop where
  header : IsHeader msg info
  buf : msg'.msgBuf = msg.msgBuf + (info.headerSize.toNat + info.size.toNat) % 2 ^ 32
  size : msg'.msgSize.toNat + (info.headerSize.toNat + info.size.toNat) % 2 ^ 32 =
    msg.msgSize.toNat

theorem readTlvInfo_of_decodeOneTlv (h : decodeOneTlv buf msg = some (info, msg')) :
    readTlvInfo buf msg = some info := by
  rw [decodeOneTlv] at h
  cases hread : readTlvInfo buf msg with
  | none =>
    rw [hread] at h
    cases h
  | some x =>
    rw [hread] at h
    simp only at h
    split_ifs at h
    cases h
    rfl

theorem advances_of_decodeOneTlv (h : decodeOneTlv buf msg = some (info, msg')) :
    Advances msg info msg' := by
  have hread := readTlvInfo_of_decodeOneTlv h
  rw [decodeOneTlv, hread] at h
  simp only at h
  split_ifs at h with hlt
  cases h
  have htotal : (info.headerSize.toUInt32 + info.size).toNat =
      (info.headerSize.toNat + info.size.toNat) % 2 ^ 32 := by
    rw [UInt32.toNat_add, UInt16.toNat_toUInt32]
  have hle := UInt32.not_lt.mp hlt
  have hle' := UInt32.le_iff_toNat_le.mp hle
  rw [htotal] at hle'
  refine ⟨isHeader_of_readTlvInfo hread, ?_, ?_⟩
  · rw [htotal]
  · rw [UInt32.toNat_sub_of_le _ _ hle, htotal]
    omega

/-- Without a wrap-around the decoder leaves out the TLV, and at least its header. -/
theorem Advances.of_noWrap (h : Advances msg info msg') (hno : info.NoWrap) :
    info.range.1 = msg.msgBuf ∧ msg'.msgBuf = msg.msgBuf + info.range.2 ∧
      msg'.msgSize.toNat + info.range.2 = msg.msgSize.toNat ∧ 4 ≤ info.range.2 := by
  have hmod : (info.headerSize.toNat + info.size.toNat) % 2 ^ 32 =
      info.headerSize.toNat + info.size.toNat := Nat.mod_eq_of_lt hno
  refine ⟨?_, ?_, ?_, ?_⟩
  · rw [TlvInfo.range, h.header.payload]
    exact Nat.add_sub_cancel _ _
  · rw [h.buf, hmod, TlvInfo.range]
  · rw [← h.size, hmod, TlvInfo.range]
  · exact Nat.le_trans h.header.pos (Nat.le_add_right _ _)

/-! ### The walk over the message -/

/-- One iteration of the loop that goes on. -/
def Step (buf : Buffer) (msg msg' : TlvMsg) : Prop :=
  0 < msg.msgSize ∧ ∃ info, decodeOneTlv buf msg = some (info, msg')

/-- From `msg` on, no header that the loop gets to wraps around. -/
def Clean (buf : Buffer) (msg : TlvMsg) : Prop :=
  ∀ msg' info, Relation.ReflTransGen (Step buf) msg msg' →
    readTlvInfo buf msg' = some info → info.NoWrap

theorem Clean.step (h : Clean buf msg) (hstep : Step buf msg msg') : Clean buf msg' :=
  fun msg'' info hreach hread => h msg'' info (hreach.head hstep) hread

variable {fuel call : ℕ} {infos l : List TlvInfo}

/-- If no header wraps around, every iteration leaves less of the message. -/
theorem decodeLoop_returns (h : Clean buf msg) (hfuel : msg.msgSize.toNat < fuel) :
    ∃ r, decodeLoop malloc buf fuel call msg infos = some r := by
  induction fuel generalizing call msg infos with
  | zero => omega
  | succ fuel ih =>
    rw [decodeLoop]
    by_cases hpos : 0 < msg.msgSize
    · rw [if_pos hpos]
      cases hdec : decodeOneTlv buf msg with
      | none => exact ⟨_, rfl⟩
      | some x =>
        obtain ⟨info, msg'⟩ := x
        have hno := h msg info .refl (readTlvInfo_of_decodeOneTlv hdec)
        obtain ⟨-, -, hsize, hlen⟩ := (advances_of_decodeOneTlv hdec).of_noWrap hno
        dsimp only
        split
        · exact ih (h.step ⟨hpos, info, hdec⟩) (by omega)
        · exact ⟨_, rfl⟩
    · rw [if_neg hpos]
      exact ⟨_, rfl⟩

/-- The iterations of a successful run. -/
theorem decodeLoop_eq_success :
    decodeLoop malloc buf (fuel + 1) call msg infos = some (.success, l) ↔
      msg.msgSize.toNat = 0 ∧ l = infos ∨
      ∃ info msg', 0 < msg.msgSize ∧ decodeOneTlv buf msg = some (info, msg') ∧
        malloc call ∧ decodeLoop malloc buf fuel (call + 1) msg' (infos ++ [info]) =
          some (.success, l) := by
  rw [decodeLoop]
  by_cases hpos : 0 < msg.msgSize
  · have hne : msg.msgSize.toNat ≠ 0 := Nat.ne_of_gt (UInt32.lt_iff_toNat_lt.mp hpos)
    rw [if_pos hpos]
    cases hdec : decodeOneTlv buf msg with
    | none => simp [hne]
    | some x =>
      obtain ⟨info, msg'⟩ := x
      by_cases hmalloc : malloc call
      · simp [hne, hpos, hmalloc]
      · simp [hne, hmalloc]
  · have hzero : msg.msgSize.toNat = 0 := by
      rw [UInt32.not_lt, UInt32.le_iff_toNat_le] at hpos
      exact Nat.le_zero.mp hpos
    rw [if_neg hpos]
    constructor
    · intro h
      cases h
      exact .inl ⟨hzero, rfl⟩
    · rintro (⟨-, rfl⟩ | ⟨_, _, hpos', -⟩)
      · rfl
      · exact absurd hpos' hpos

/-- If no header wraps around, the TLVs of a successful run follow each other to the end. -/
theorem decodeLoop_tiles (h : Clean buf msg)
    (hloop : decodeLoop malloc buf fuel call msg infos = some (.success, l)) :
    ∃ rest, l = infos ++ rest ∧
      Tiles msg.msgBuf (rest.map TlvInfo.range) (msg.msgBuf + msg.msgSize.toNat) := by
  induction fuel generalizing call msg infos with
  | zero => cases hloop
  | succ fuel ih =>
    rcases decodeLoop_eq_success.mp hloop with ⟨hzero, rfl⟩ | ⟨info, msg', hpos, hdec, -, hloop⟩
    · exact ⟨[], (List.append_nil _).symm, by rw [hzero]; rfl⟩
    · obtain ⟨rest, rfl, htiles⟩ := ih (h.step ⟨hpos, info, hdec⟩) hloop
      have hno := h msg info .refl (readTlvInfo_of_decodeOneTlv hdec)
      obtain ⟨hstart, hbuf, hsize, -⟩ := (advances_of_decodeOneTlv hdec).of_noWrap hno
      refine ⟨info :: rest, by rw [List.append_assoc, List.singleton_append], hstart, ?_⟩
      rw [hbuf] at htiles
      rwa [← hsize, Nat.add_comm msg'.msgSize.toNat, ← Nat.add_assoc]

theorem subset_of_decodeLoop
    (hloop : decodeLoop malloc buf fuel call msg infos = some (.success, l)) : infos ⊆ l := by
  induction fuel generalizing call msg infos with
  | zero => cases hloop
  | succ fuel ih =>
    rcases decodeLoop_eq_success.mp hloop with ⟨-, rfl⟩ | ⟨info, msg', -, -, -, hloop⟩
    · exact List.Subset.refl _
    · exact List.Subset.trans (List.subset_append_left _ _) (ih hloop)

/-- A successful run decodes every header the walk gets to. -/
theorem decodeLoop_mem (hloop : decodeLoop malloc buf fuel call msg infos = some (.success, l))
    (hreach : Relation.ReflTransGen (Step buf) msg msg')
    (hread : readTlvInfo buf msg' = some info) : info ∈ l := by
  induction fuel generalizing call msg infos with
  | zero => cases hloop
  | succ fuel ih =>
    rcases decodeLoop_eq_success.mp hloop with ⟨hzero, rfl⟩ | ⟨next, msg₁, -, hdec, -, hloop⟩
    · -- nothing is left: no header can be read and the walk goes no further
      rcases hreach.cases_head with rfl | ⟨msg₂, ⟨hpos, -⟩, -⟩
      · have hle := (isHeader_of_readTlvInfo hread).le
        have hge := (isHeader_of_readTlvInfo hread).pos
        omega
      · exact absurd hzero (Nat.ne_of_gt (UInt32.lt_iff_toNat_lt.mp hpos))
    · rcases hreach.cases_head with rfl | ⟨msg₂, ⟨-, info₂, hdec₂⟩, hreach⟩
      · rw [readTlvInfo_of_decodeOneTlv hdec] at hread
        cases hread
        exact subset_of_decodeLoop hloop (List.mem_append_right _ List.mem_cons_self)
      · rw [hdec] at hdec₂
        cases hdec₂
        exact ih hloop hreach

/-- More fuel does not change an answer. -/
theorem decodeLoop_mono {r : TlvStatus × List TlvInfo} {fuel' : ℕ} (hle : fuel ≤ fuel')
    (hloop : decodeLoop malloc buf fuel call msg infos = some r) :
    decodeLoop malloc buf fuel' call msg infos = some r := by
  induction fuel generalizing call msg infos fuel' with
  | zero => cases hloop
  | succ fuel ih =>
    obtain ⟨fuel', rfl⟩ : ∃ n, fuel' = n + 1 := Nat.exists_eq_add_one.mpr (by omega)
    rw [decodeLoop] at hloop ⊢
    by_cases hpos : 0 < msg.msgSize
    · rw [if_pos hpos] at hloop ⊢
      cases hdec : decodeOneTlv buf msg with
      | none =>
        rw [hdec] at hloop
        exact hloop
      | some x =>
        rw [hdec] at hloop
        by_cases hmalloc : malloc call
        · simp only [hmalloc, if_true] at hloop ⊢
          exact ih (Nat.le_of_succ_le_succ hle) hloop
        · simp only [hmalloc] at hloop ⊢
          exact hloop
    · rw [if_neg hpos] at hloop ⊢
      exact hloop

/-- A TLV whose total size is 2 ^ 32 leaves the message as it was: the loop goes on for as
long as there is memory. -/
theorem decodeLoop_stuck (hmalloc : ∀ k, malloc k) (hpos : 0 < msg.msgSize)
    (hdec : decodeOneTlv buf msg = some (info, msg)) :
    decodeLoop malloc buf fuel call msg infos = none := by
  induction fuel generalizing call infos with
  | zero => rfl
  | succ fuel ih =>
    rw [decodeLoop, if_pos hpos, hdec]
    simp only [hmalloc, if_true]
    exact ih

/-! ### The result -/

/-- A header that the decoder gets to, from the start of the message. -/
def Meets (buf : Buffer) (info : TlvInfo) : Prop :=
  ∃ msg, Relation.ReflTransGen (Step buf) buf.all msg ∧ readTlvInfo buf msg = some info

theorem initFromTlvMsg_mono {r : TlvStatus × TLVsMsg} {fuel' : ℕ} (hle : fuel ≤ fuel')
    (h : initFromTlvMsg malloc buf fuel = some r) : initFromTlvMsg malloc buf fuel' = some r := by
  rw [initFromTlvMsg] at h ⊢
  split_ifs at h ⊢ with hmalloc
  · obtain ⟨x, hx, hr⟩ := Option.map_eq_some_iff.mp h
    exact Option.map_eq_some_iff.mpr ⟨x, decodeLoop_mono hle hx, hr⟩
  · exact h

/-- Two runs have one answer. -/
theorem initFromTlvMsg_unique {r r' : TlvStatus × TLVsMsg} {fuel' : ℕ}
    (h : initFromTlvMsg malloc buf fuel = some r) (h' : initFromTlvMsg malloc buf fuel' = some r') :
    r = r' := by
  have hmax := initFromTlvMsg_mono (Nat.le_max_left fuel fuel') h
  have hmax' := initFromTlvMsg_mono (Nat.le_max_right fuel fuel') h'
  exact Option.some_inj.mp (hmax.symm.trans hmax')

theorem loop_of_initFromTlvMsg {t : TLVsMsg}
    (h : initFromTlvMsg malloc buf fuel = some (.success, t)) :
    decodeLoop malloc buf fuel 1 buf.all [] = some (.success, t.infos) := by
  rw [initFromTlvMsg] at h
  split_ifs at h
  · obtain ⟨⟨e, l⟩, hx, hr⟩ := Option.map_eq_some_iff.mp h
    cases hr
    exact hx
  · cases h

theorem Buffer.msgSize_all (buf : Buffer) : buf.all.msgSize.toNat = buf.1.length :=
  UInt32.toNat_ofNat_of_lt' buf.2

/-- **Decoding of a message.**  The decoder returns, and after `TLV_SUCCESS` header and payload
of the TLVs are a partition of the message, if and only if the call reports an error or no
header it gets to has a total size of 2 ^ 32 or more. -/
theorem init_partitions_iff (malloc : ℕ → Bool) (buf : Buffer) :
    ((∃ fuel r, initFromTlvMsg malloc buf fuel = some r) ∧
      ∀ fuel t, initFromTlvMsg malloc buf fuel = some (.success, t) →
        Tiles 0 (t.infos.map TlvInfo.range) buf.1.length ∧
        ∀ info ∈ t.infos, info.payload + info.size.toNat ≤ buf.1.length) ↔
    ((∃ fuel e t, e ≠ .success ∧ initFromTlvMsg malloc buf fuel = some (e, t)) ∨
      ∀ info, Meets buf info → info.headerSize.toNat + info.size.toNat < 2 ^ 32) := by
  constructor
  · rintro ⟨⟨fuel, ⟨e, t⟩, hrun⟩, hok⟩
    by_cases he : e = .success
    · subst he
      refine .inr fun info hmeets => ?_
      obtain ⟨msg, hreach, hread⟩ := hmeets
      have hmem := decodeLoop_mem (loop_of_initFromTlvMsg hrun) hreach hread
      have hin := (hok fuel t hrun).1.mem (List.mem_map_of_mem hmem)
      have hlt := buf.2
      rw [TlvInfo.range] at hin
      omega
    · exact .inl ⟨fuel, e, t, he, hrun⟩
  · rintro (⟨fuel, e, t, he, hrun⟩ | hno)
    · refine ⟨⟨fuel, _, hrun⟩, fun fuel' t' hrun' => ?_⟩
      have heq := initFromTlvMsg_unique hrun hrun'
      exact absurd (congrArg Prod.fst heq) he
    · have hclean : Clean buf buf.all :=
        fun msg info hreach hread => hno info ⟨msg, hreach, hread⟩
      refine ⟨?_, fun fuel t hrun => ?_⟩
      · refine ⟨buf.all.msgSize.toNat + 1, ?_⟩
        rw [initFromTlvMsg]
        split
        · have hret : ∃ r, decodeLoop malloc buf (buf.all.msgSize.toNat + 1) 1 buf.all [] = some r :=
            decodeLoop_returns hclean (Nat.lt_succ_self _)
          obtain ⟨r, hr⟩ := hret
          exact ⟨_, Option.map_eq_some_iff.mpr ⟨r, hr, rfl⟩⟩
        · exact ⟨_, rfl⟩
      · obtain ⟨rest, hrest, htiles⟩ := decodeLoop_tiles hclean (loop_of_initFromTlvMsg hrun)
        have hall : Tiles 0 (t.infos.map TlvInfo.range) buf.1.length := by
          rw [hrest, List.nil_append, ← buf.msgSize_all, ← Nat.zero_add buf.all.msgSize.toNat]
          exact htiles
        refine ⟨hall, fun info hinfo => ?_⟩
        have hin := hall.mem (List.mem_map_of_mem hinfo)
        rw [TlvInfo.range] at hin
        omega

/-- Ten bytes are accepted with a payload that ends 4 GiB behind them; six bytes keep the
decoder at the first of them forever. -/
theorem payload_outside :
    (∃ t info, initFromTlvMsg (fun _ => true)
        ⟨[0x80, 0, 0xff, 0xff, 0xff, 0xfe, 0, 0, 0, 0], by decide⟩ 3 = some (.success, t) ∧
      info ∈ t.infos ∧ info.payload = 6 ∧ info.size.toNat = 2 ^ 32 - 2) ∧
    ∀ fuel, initFromTlvMsg (fun _ => true) ⟨[0x80, 0, 0xff, 0xff, 0xff, 0xfa], by decide⟩ fuel =
      none := by
  constructor
  · exact ⟨_, ⟨0, 0, 6, 0xfffffffe, 6⟩, rfl, by decide, rfl, rfl⟩
  · intro fuel
    rw [initFromTlvMsg, if_pos rfl, decodeLoop_stuck (fun _ => rfl) (by decide)
      (show _ = some (⟨0, 0, 6, 0xfffffffa, 6⟩, _) by decide)]
    rfl

end Aesm
