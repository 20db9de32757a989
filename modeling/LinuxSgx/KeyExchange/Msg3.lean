/-
The quote of the third message.

`sgx_ra_get_msg3_trusted` reads the quote from the host's memory, in pieces of 32 bytes, and the
host may change it all the while.  Each piece goes into a hash, which is compared with the report
of the quoting enclave, and into the MAC of the message.

* `getMsg3Trusted` — the call, with a log of what it copies, hashes and MACs;
* **`same_quote`** — both streams are the bytes that were copied, position after position.
-/
import LinuxSgx.KeyExchange.Authenticated
import LinuxSgx.Lib.Logged
import Mathlib.Algebra.Group.Nat.Defs

namespace KeyExchange

open Logged List

/-- The calls of the crypto library; those of the loop have the number of the turn. -/
inductive Msg3Step where
  | shaInit
  | shaNonce
  | cmacInit
  | cmacGa
  | cmacPsSecProp
  | shaPiece (k : ℕ)
  | cmacPiece (k : ℕ)
  | shaGetHash
  | cmacFinal

/-- The arguments of a call and what it finds. -/
structure Msg3Call where
  quoteSize : UInt32
  report : QeReport
  empMsg3 : UInt64
  msg3Size : UInt32
  /-- No pointer is null. -/
  valid : Bool
  /-- The answer of `sgx_is_outside_enclave`. -/
  outside : Bool
  /-- The item of the context, as it is under its lock. -/
  item : Option Item
  /-- The nonce of the item, which is read without the lock. -/
  nonce : Bytes
  /-- The byte at an address when the `t`-th byte is copied; none if the access faults. -/
  host : ℕ → ℕ → Option UInt8
  /-- The host's memory is the lower half of the address space. -/
  host_lt : ∀ t a b, host t a = some b → a < 0x800000000000
  /-- How the crypto library fails. -/
  fails : Msg3Step → Option Status

/-- What happens to a piece of the quote. -/
inductive Piece where
  | copied (p : ℕ) (piece : Bytes)
  | hashed (piece : Bytes)
  | maced (piece : Bytes)

/-- Why a call stops: with a status, or by a fault. -/
inductive Stop where
  | status (e : Status)
  | fault
  | outOfFuel

/-- The bytes that have been copied from the host. -/
def copied (l : List Piece) : Bytes :=
  l.flatMap fun | .copied _ piece => piece | _ => []

/-- Where they have been. -/
def positions (l : List Piece) : List ℕ :=
  l.flatMap fun | .copied p piece => range' p piece.length | _ => []

/-- What the state of the hash has been fed with behind the nonce. -/
def hashed (l : List Piece) : Bytes :=
  l.flatMap fun | .hashed piece => piece | _ => []

/-- What the state of the MAC has been fed with behind `g_a` and `ps_sec_prop`. -/
def maced (l : List Piece) : Bytes :=
  l.flatMap fun | .maced piece => piece | _ => []

namespace Msg3Call

variable (c : Msg3Call)

/-- `emp_msg3->quote`. -/
def quote : UInt64 := c.empMsg3 + sizeofMsg3.toUInt64

/-- A call of the crypto library. -/
def call (i : Msg3Step) : Logged Piece Stop Unit :=
  match c.fails i with
  | none => pure ()
  | some e => lift (.error (.status (outward e)))

/-- `memcpy` from the host. -/
def memcpy : ℕ → ℕ → ℕ → Option Bytes
  | _, _, 0 => some []
  | t, p, n + 1 => do return (← c.host t p) :: (← memcpy (t + 1) (p + 1) n)

/-- The size of the piece at `p`, in the arithmetic of pointers and of `uint32_t`. -/
def pieceSize (p : UInt64) (n : UInt32) : UInt32 :=
  if (c.quote + c.quoteSize.toUInt64 - p).toUInt32 < n then (c.quote - p).toUInt32 + c.quoteSize
  else n

/-- The loop over the quote; `k` counts its turns, `n` is `quote_piece_size`. -/
def feedQuote : ℕ → ℕ → UInt64 → UInt32 → Logged Piece Stop Unit
  | fuel, k, p, n =>
    if p < c.quote + c.quoteSize.toUInt64 then
      match fuel with
      | 0 => lift (.error .outOfFuel)
      | fuel + 1 =>
        match c.memcpy (32 * k) p.toNat (c.pieceSize p n).toNat with
        | none => lift (.error .fault)
        | some piece => do
          note (.copied p.toNat piece)
          note (.hashed piece)
          c.call (.shaPiece k)
          note (.maced piece)
          c.call (.cmacPiece k)
          feedQuote fuel (k + 1) (p + 32) (c.pieceSize p n)
    else pure ()

/-- All calls of the hash and of the MAC. -/
def feed : Logged Piece Stop Unit := do
  c.call .shaInit
  c.call .shaNonce
  c.call .cmacInit
  c.call .cmacGa
  c.call .cmacPsSecProp
  c.feedQuote c.quoteSize.toNat 0 c.quote 32
  c.call .shaGetHash
  c.call .cmacFinal

/-- The checks and the locked part. -/
def enter : Except Status (Bytes × Bytes × Bytes) :=
  match (if c.valid ∧ c.quoteSize ≠ 0 then c.item else none) with
  | none => .error .invalidParameter
  | some it => do
    checkMsg3 ⟨c.quoteSize, c.msg3Size, c.valid,
      ¬(0xffffffffffffffff - c.empMsg3 < c.msg3Size.toUInt64), c.outside, c.report, []⟩
    getMsg3Item c.report it

/-- `sgx_ra_get_msg3_trusted`. -/
def getMsg3Trusted (cr : Crypto) : Logged Piece Stop Msg3 :=
  match c.enter with
  | .error e => lift (.error (.status e))
  | .ok (gA, psSecProp, smkKey) =>
    ⟨c.feed.log, do
      c.feed.res
      if c.report.reportData = cr.sha256 (c.nonce ++ hashed c.feed.log) then
        return ⟨cr.cmac smkKey (gA ++ psSecProp ++ maced c.feed.log), gA, psSecProp⟩
      else .error (.status .macMismatch)⟩

/-! ### The loop -/

variable {c}

theorem memcpy_eq_some {t p n : ℕ} {piece : Bytes} (h : c.memcpy t p n = some piece) :
    piece.length = n ∧ (0 < n → p < 0x800000000000) := by
  induction n generalizing t p piece with
  | zero =>
    cases h
    exact ⟨rfl, fun h => absurd h (Nat.lt_irrefl 0)⟩
  | succ n ih =>
    obtain ⟨b, hb, h⟩ := Option.bind_eq_some_iff.mp h
    obtain ⟨rest, hrest, h⟩ := Option.bind_eq_some_iff.mp h
    cases h
    exact ⟨congrArg (· + 1) (ih hrest).1, fun _ => c.host_lt _ _ _ hb⟩

/-- The end of the quote. -/
def stop (c : Msg3Call) : ℕ := c.quote.toNat + c.quoteSize.toNat

theorem toNat_stop (h : c.stop < 2 ^ 64) :
    (c.quote + c.quoteSize.toUInt64).toNat = c.stop := by
  rw [UInt64.toNat_add, UInt32.toNat_toUInt64]
  exact Nat.mod_eq_of_lt h

theorem lt_stop_iff (h : c.stop < 2 ^ 64) {p : UInt64} :
    p < c.quote + c.quoteSize.toUInt64 ↔ p.toNat < c.stop := by
  rw [UInt64.lt_iff_toNat_lt, toNat_stop h]

/-- All pieces are of 32 bytes but for the last one. -/
theorem toNat_pieceSize {p : UInt64} (h : c.stop < 2 ^ 64) (hp : c.quote.toNat ≤ p.toNat)
    (hlt : p.toNat < c.stop) : (c.pieceSize p 32).toNat = min 32 (c.stop - p.toNat) := by
  have hsize := c.quoteSize.toNat_lt
  have hq := c.quote.toNat_lt
  have hleft : (c.quote + c.quoteSize.toUInt64 - p).toUInt32.toNat = c.stop - p.toNat := by
    rw [UInt64.toNat_toUInt32, UInt64.toNat_sub, toNat_stop h]
    unfold stop at *
    omega
  have hback : ((c.quote - p).toUInt32 + c.quoteSize).toNat = c.stop - p.toNat := by
    rw [UInt32.toNat_add, UInt64.toNat_toUInt32, UInt64.toNat_sub]
    unfold stop at *
    omega
  rw [pieceSize]
  split_ifs with hlast
  · rw [UInt32.lt_iff_toNat_lt, hleft] at hlast
    rw [hback]
    exact (Nat.min_eq_right (Nat.le_of_lt hlast)).symm
  · rw [UInt32.lt_iff_toNat_lt, hleft] at hlast
    exact (Nat.min_eq_left (Nat.not_lt.mp hlast)).symm

/-- What a run does from `p` on: it copies position after position, and hashes and MACs what it
has copied, but for a piece at which the hash fails; if it succeeds, this is all up to the end. -/
structure Fed {α : Type} (c : Msg3Call) (p : ℕ) (m : Logged Piece Stop α) : Prop where
  sha : hashed m.log = copied m.log
  cmac : maced m.log = copied m.log ∨
    ∃ k e piece, c.fails (.shaPiece k) = some e ∧ maced m.log ++ piece = copied m.log
  at_ : positions m.log = range' p (copied m.log).length
  le : (copied m.log).length ≤ c.stop - p
  fuel : m.res ≠ .error .outOfFuel
  done : ∀ a, m.res = .ok a → maced m.log = copied m.log ∧ (copied m.log).length = c.stop - p

variable {p k : ℕ} {m : Logged Piece Stop Unit}

theorem Fed.nothing {α : Type} {r : Except Stop α} (hfuel : r ≠ .error .outOfFuel)
    (hres : ∀ a, r = .ok a → c.stop ≤ p) : Fed c p ⟨[], r⟩ :=
  ⟨rfl, .inl rfl, rfl, Nat.zero_le _, hfuel,
    fun a h => ⟨rfl, (Nat.sub_eq_zero_of_le (hres a h)).symm⟩⟩

theorem Fed.call {i : Msg3Step} (h : Fed c p m) : Fed c p (do c.call i; m) := by
  rw [Msg3Call.call]
  cases c.fails i with
  | none => exact h
  | some e => exact .nothing nofun nofun

/-- One turn of the loop. -/
theorem Fed.turn {piece : Bytes} (hlen : piece.length = min 32 (c.stop - p))
    (h : Fed c (p + 32) m) :
    Fed c p (do
      note (.copied p piece)
      note (.hashed piece)
      c.call (.shaPiece k)
      note (.maced piece)
      c.call (.cmacPiece k)
      m) := by
  have hle := h.le
  have hmin : piece.length ≤ c.stop - p := hlen ▸ Nat.min_le_right _ _
  cases hsha : c.fails (.shaPiece k) with
  | some e =>
    constructor <;> simp [Msg3Call.call, note, lift, bind, hsha, hashed, copied, positions, hmin]
    -- the piece was hashed and is not in the MAC
    exact .inr ⟨⟨k, e, hsha⟩, piece, rfl⟩
  | none =>
    cases hcmac : c.fails (.cmacPiece k) with
    | some e =>
      constructor <;> simp [Msg3Call.call, note, lift, bind, pure, hsha, hcmac, hashed, copied, maced,
        positions, hmin]
    | none =>
      have hcopied : copied (.copied p piece :: .hashed piece :: .maced piece :: m.log) =
          piece ++ copied m.log := rfl
      have hmaced : maced (.copied p piece :: .hashed piece :: .maced piece :: m.log) =
          piece ++ maced m.log := rfl
      constructor <;> simp [Msg3Call.call, note, bind, pure, hsha, hcmac, hcopied, hmaced]
      · simpa [hashed] using h.sha
      · simpa using h.cmac
      · -- nothing follows a short piece
        have hnext : range' (p + 32) (copied m.log).length =
            range' (p + piece.length) (copied m.log).length := by
          by_cases hshort : c.stop - p < 32
          · rw [show (copied m.log).length = 0 by omega]
            rfl
          · rw [show piece.length = 32 by omega]
        rw [← range'_append_1, ← hnext, ← h.at_]
        simp [positions]
      · omega
      · exact h.fuel
      · intro _ hok
        obtain ⟨hm, hl⟩ := h.done _ hok
        exact ⟨hm, by omega⟩

theorem fed_feedQuote (hstop : c.stop < 2 ^ 64) {fuel : ℕ} {p : UInt64} {n : UInt32}
    (hp : c.quote.toNat ≤ p.toNat) (hn : p.toNat < c.stop → n = 32)
    (hfuel : c.stop - p.toNat ≤ fuel) : Fed c p.toNat (c.feedQuote fuel k p n) := by
  induction fuel generalizing k p n with
  | zero =>
    have hout : c.stop ≤ p.toNat := Nat.le_of_sub_eq_zero (Nat.le_zero.mp hfuel)
    rw [feedQuote, if_neg (mt (lt_stop_iff hstop).mp (Nat.not_lt.mpr hout))]
    exact .nothing nofun fun _ _ => hout
  | succ fuel ih =>
    rw [feedQuote]
    split_ifs with hin
    · have hlt := (lt_stop_iff hstop).mp hin
      have hsize := toNat_pieceSize hstop hp hlt
      rw [hn hlt]
      cases hcopy : c.memcpy (32 * k) p.toNat (c.pieceSize p 32).toNat with
      | none => exact .nothing nofun nofun
      | some piece =>
        obtain ⟨hlen, hbound⟩ := memcpy_eq_some hcopy
        -- the byte at `p` was there, so that the pointer does not wrap around
        have hnext : (p + 32).toNat = p.toNat + 32 := by
          have := hbound (by omega)
          exact (UInt64.toNat_add p 32).trans (Nat.mod_eq_of_lt (by change _ + 32 < _; omega))
        refine .turn (hlen.trans hsize) ?_
        rw [← hnext]
        refine ih (by omega) (fun h => ?_) (by omega)
        exact UInt32.toNat_inj.mp (hsize.trans (Nat.min_eq_left (by omega)))
    · exact .nothing nofun fun _ _ => Nat.not_lt.mp (mt (lt_stop_iff hstop).mpr hin)

/-! ### The call -/

theorem of_enter {x : Bytes × Bytes × Bytes} (h : c.enter = .ok x) :
    c.stop < 2 ^ 64 ∧ c.report.genuine = .ok () ∧
      ∃ it, c.item = some it ∧ x = (it.gA, it.psSecProp, it.smkKey) := by
  rw [enter] at h
  split at h
  · cases h
  rename_i it hit
  obtain ⟨u, hcheck, hitem⟩ := Checks.bind_eq_ok.mp h
  obtain ⟨⟨hwrap, hbig, hsize⟩, hcheck⟩ := require_bind.mp hcheck
  obtain ⟨-, hcheck⟩ := require_bind.mp hcheck
  refine ⟨?_, ?_, it, (Option.ite_none_right_eq_some.mp hit).2, ?_⟩
  · have hsum : c.msg3Size.toNat = (336 + c.quoteSize.toNat) % 2 ^ 32 :=
      (congrArg UInt32.toNat hsize.symm).trans (UInt32.toNat_add ..)
    simp only [decide_eq_true_eq, UInt64.lt_iff_toNat_lt, UInt32.lt_iff_toNat_lt, sizeofMsg3,
      UInt64.toNat_sub, UInt32.toNat_sub, UInt32.toNat_toUInt64] at hwrap hbig
    simp only [stop, quote, UInt64.toNat_add, sizeofMsg3, UInt32.toNat_toUInt64]
    have hq := c.quoteSize.toNat_lt
    have he := c.empMsg3.toNat_lt
    simp at *
    omega
  · revert hcheck
    split <;> simp_all
  · rw [getMsg3Item] at hitem
    split_ifs at hitem
    exact (Except.ok.inj hitem).symm

theorem Fed.andThen {i j : Msg3Step} (h : Fed c p m) : Fed c p (do m; c.call i; c.call j) := by
  have hcalls : ∃ r : Except Stop Unit, (do c.call i; c.call j) = ⟨[], r⟩ ∧
      r ≠ .error .outOfFuel := by
    simp only [Msg3Call.call]
    cases c.fails i with
    | some e => exact ⟨_, rfl, nofun⟩
    | none =>
      cases c.fails j with
      | none | some => exact ⟨_, rfl, nofun⟩
  obtain ⟨r, hr, hfuel⟩ := hcalls
  obtain ⟨l, res⟩ := m
  rw [hr]
  cases res with
  | error e => exact h
  | ok u =>
    simp only [bind, append_nil]
    exact ⟨h.sha, h.cmac, h.at_, h.le, hfuel, fun _ _ => h.done _ rfl⟩

theorem fed_feed (hstop : c.stop < 2 ^ 64) : Fed c c.quote.toNat c.feed :=
  .call (.call (.call (.call (.call (.andThen (fed_feedQuote hstop (Nat.le_refl _) (fun _ => rfl)
    (Nat.le_of_eq (Nat.add_sub_cancel_left ..))))))))

/-- **The hash and the MAC are of the same quote.**  Whatever the host writes into the quote while
the call runs and whichever call of the crypto library fails: the bytes that are copied come from
the positions of the quote, each once and in order, and they are the streams that are hashed and
MACed.  If the call succeeds, they are the whole quote, and the report that was verified carries
their hash. -/
theorem same_quote (cr : Crypto) : Fed c c.quote.toNat (c.getMsg3Trusted cr) ∧
    ∀ r, (c.getMsg3Trusted cr).res = .ok r → c.report.genuine = .ok () ∧
      (copied (c.getMsg3Trusted cr).log).length = c.quoteSize.toNat ∧
      c.report.reportData = cr.sha256 (c.nonce ++ copied (c.getMsg3Trusted cr).log) ∧
      ∃ it, c.item = some it ∧ r = ⟨cr.cmac it.smkKey
        (it.gA ++ it.psSecProp ++ copied (c.getMsg3Trusted cr).log), it.gA, it.psSecProp⟩ := by
  rw [getMsg3Trusted]
  cases henter : c.enter with
  | error e => exact ⟨.nothing nofun nofun, nofun⟩
  | ok x =>
    obtain ⟨hstop, hgenuine, it, hitem, rfl⟩ := of_enter henter
    have h := fed_feed hstop
    dsimp only
    cases hres : c.feed.res with
    | error e => exact ⟨⟨h.sha, h.cmac, h.at_, h.le, fun he => h.fuel (hres.trans (congrArg _
        (Except.error.inj he))), nofun⟩, nofun⟩
    | ok u =>
      obtain ⟨hmaced, hlen⟩ := h.done u hres
      have hall := hlen.trans (Nat.add_sub_cancel_left ..)
      simp only [bind, Except.bind]
      split_ifs with hdata
      · refine ⟨⟨h.sha, h.cmac, h.at_, h.le, nofun, fun _ _ => ⟨hmaced, hlen⟩⟩, fun r hr => ?_⟩
        cases hr
        exact ⟨hgenuine, hall, h.sha ▸ hdata, it, hitem, by rw [hmaced]⟩
      · exact ⟨⟨h.sha, h.cmac, h.at_, h.le, nofun, nofun⟩, nofun⟩

/-- A quote of 40 bytes, each of which the host increments before every byte that is copied. -/
def changingQuote : Msg3Call where
  quoteSize := 40
  report := ⟨zeros 16, zeros 32, (range 40).map fun i => UInt8.ofNat (2 * i), .ok ()⟩
  empMsg3 := 0xfeb0
  msg3Size := 376
  valid := true
  outside := true
  item := some { Item.zero with state := .procMsg2ed }
  nonce := []
  host t a := if a < 0x800000000000 then some (UInt8.ofNat (a + t)) else none
  host_lt := fun _ _ _ h => (Option.ite_none_right_eq_some.mp h).1
  fails _ := none

theorem same_quote_changing :
    changingQuote.host 0 0x10020 ≠ changingQuote.host 32 0x10020 ∧
      ∃ r, (changingQuote.getMsg3Trusted plain).res = .ok r ∧
        copied (changingQuote.getMsg3Trusted plain).log =
          (range 40).map fun i => UInt8.ofNat (2 * i) := by
  have hok : (changingQuote.getMsg3Trusted plain).res.isOk = true := by decide +kernel
  obtain ⟨r, hr⟩ : ∃ r, (changingQuote.getMsg3Trusted plain).res = .ok r := by
    cases hres : (changingQuote.getMsg3Trusted plain).res with
    | error e => simp [hres, Except.isOk, Except.toBool] at hok
    | ok r => exact ⟨r, rfl⟩
  exact ⟨by decide, r, hr, ((same_quote plain).2 r hr).2.2.1.symm⟩

end Msg3Call

end KeyExchange
