/-
Keys come from an authenticated message.

Calls that do not overlap, in any order, on any contexts and with any messages.  The state keeps,
besides the table, every call of `sgx_ra_proc_msg2_trusted` with the item it was made on.

* `initEx`, `getGa`, `procMsg2`, `getKeys`, `close` — the calls that change the table or return a
  key, put together from their sections;
* `Verified` — what a message must satisfy;
* **`keys_authenticated`** — keys are returned only after such a message for the same
  item, they are the ones derived from it, and no call changes another context.
-/
import LinuxSgx.KeyExchange.Context
import LinuxSgx.Lib.Checks
import LinuxSgx.Lib.Runs

open Runs List Option

namespace KeyExchange

variable {cr : Crypto} {s s' : Db} {addr context : ℕ}

/-! ### The calls -/

section Calls

variable (cr) (s)

/-- `sgx_ra_init_ex`; `rand` is a random cookie, `malloc` the address of the new item. -/
def initEx (f : Faults) (rand : Option UInt64) (malloc : Option ℕ) (grow : Bool) (x : InitArgs) :
    Db × Except Status ℕ :=
  match (if s.cookie = 0 then rand.map s.setCookie else some s) with
  | none => (s, .error .unexpected)
  | some s =>
    match checkInit cr f x with
    | .error e => (s, .error e)
    | .ok pubKey =>
      match malloc with
      | none => (s, .error .outOfMemory)
      | some addr => (s.alloc addr (Db.newItem s.cookie pubKey x.deriveKeyCb)).insert grow addr

/-- `sgx_ra_get_ga`. -/
def getGa (f : Faults) (priv : Bytes) (context : ℕ) (valid : Bool) : Db × Except Status Bytes :=
  match (if valid then s.fetch context else none) with
  | none => (s, .error .invalidParameter)
  | some addr =>
    match getGaItem cr f priv (s.cell addr).item with
    | .error e => (s, .error e)
    | .ok (it, gA) => (s.setItem addr it, .ok gA)

/-- The two parts of `sgx_ra_proc_msg2_trusted` before its keys are written. -/
def checkMsg2 (cookie : UInt64) (f : Faults) (m : Msg2) (it : Item) : Except Status Keys :=
  match snapshot cookie it with
  | .error e => .error e
  | .ok snap => verifyMsg2 cr f snap m

/-- `sgx_ra_proc_msg2_trusted`. -/
def procMsg2 (f : Faults) (context : ℕ) (valid : Bool) (m : Msg2) (qeTarget : TargetInfo)
    (nonce : Bytes) : Db × Except Status Bytes :=
  match (if valid then s.fetch context else none) with
  | none => (s, .error .invalidParameter)
  | some addr =>
    match checkMsg2 cr s.cookie f m (s.cell addr).item with
    | .error e => (s, .error e)
    | .ok keys =>
      let r := commitMsg2 cr f m keys qeTarget nonce (s.cell addr).item
      (s.setItem addr r.1, r.2)

/-- `sgx_ra_get_keys`; `within` if the buffer lies in the enclave. -/
def getKeys (context : ℕ) (type : KeyType) (valid within : Bool) : Except Status Bytes :=
  match (if valid then s.fetch context else none) with
  | none => .error .invalidParameter
  | some addr => if within then getKeysItem type (s.cell addr).item else .error .invalidParameter

end Calls

/-! ### What is authenticated -/

/-- The keys of an item that the answer of the service provider is checked with. -/
def Item.exchange (cookie : UInt64) (it : Item) : Snapshot :=
  ⟨it.a, it.gA, it.spPubkey, decKdfPointer cookie it.deriveKeyCb⟩

/-- The message `m` is signed by the service provider for the public key of the item, its MAC is
right, and `keys` are the keys derived from it and the private key of the item. -/
structure Verified (cr : Crypto) (x : Snapshot) (m : Msg2) (keys : Keys) : Prop where
  publicKey : x.gA = cr.publicOf x.a
  signature : cr.ecdsaVerify x.spPubkey (m.gB ++ x.gA) m.signGbGa = true
  derived : ∃ dh, cr.sharedDhkey x.a m.gB = .ok dh ∧ keysOf cr x.keyCb dh m.kdfId = .ok keys
  mac : cr.cmac keys.smkey m.maced = m.mac

variable {f : Faults}

theorem ask_bind {c : Call} {α : Type} {g : Unit → Except Status α} {r : α} :
    (ask f c >>= g) = .ok r ↔ f c = none ∧ g () = .ok r := by
  rw [ask]
  cases f c with
  | none | some => simp [bind, Except.bind]

theorem require_bind {p : Prop} [Decidable p] {e : Status} {α : Type}
    {g : Unit → Except Status α} {r : α} :
    (require p e >>= g) = .ok r ↔ p ∧ g () = .ok r := by
  by_cases hp : p
  · simp [require, hp, bind, Except.bind]
  · simp [require, hp, bind, Except.bind]

variable {m : Msg2} {keys : Keys}

/-- The checks of `sgx_ra_proc_msg2_trusted`. -/
theorem verified_of_verifyMsg2 {x : Snapshot} (h : verifyMsg2 cr f x m = .ok keys)
    (hga : x.gA = cr.publicOf x.a) : Verified cr x m keys := by
  obtain ⟨-, h⟩ := ask_bind.mp h
  obtain ⟨dh, hdh, h⟩ := Checks.bind_eq_ok.mp h
  obtain ⟨-, h⟩ := ask_bind.mp h
  obtain ⟨hsign, h⟩ := require_bind.mp h
  obtain ⟨_, -, h⟩ := Checks.bind_eq_ok.mp h
  obtain ⟨keys', hkeys, h⟩ := Checks.bind_eq_ok.mp h
  obtain ⟨-, h⟩ := ask_bind.mp h
  obtain ⟨hmac, h⟩ := require_bind.mp h
  obtain ⟨-, h⟩ := ask_bind.mp h
  cases h
  refine ⟨hga, hsign, ⟨dh, ?_, hkeys⟩, hmac⟩
  rw [sharedDhkey] at hdh
  split at hdh
  · cases hdh
    assumption
  · cases hdh

variable {it : Item} {cookie : UInt64}

theorem verified_of_checkMsg2 (h : checkMsg2 cr cookie f m it = .ok keys)
    (hga : it.state ≠ .inited → it.gA = cr.publicOf it.a) :
    it.state = .getGaed ∧ Verified cr (it.exchange cookie) m keys := by
  rw [checkMsg2] at h
  by_cases hstate : it.state = .getGaed
  · have hne : it.state ≠ .inited := by
      rw [hstate]
      exact RaState.noConfusion
    rw [snapshot, if_neg (not_not.mpr hstate)] at h
    exact ⟨hstate, verified_of_verifyMsg2 h (hga hne)⟩
  · rw [snapshot, if_pos hstate] at h
    cases h

/-- What the last part of `sgx_ra_proc_msg2_trusted` does to an item that is waiting for it: the
keys are written, and the state is changed only if the call succeeds. -/
theorem commitMsg2_eq (cr : Crypto) (f : Faults) (m : Msg2) (keys : Keys) (qeTarget : TargetInfo)
    (nonce : Bytes) (hstate : it.state = .getGaed) :
    (∃ e, commitMsg2 cr f m keys qeTarget nonce it = (writeKeys it m keys qeTarget nonce, .error e)) ∨
    ∃ r, commitMsg2 cr f m keys qeTarget nonce it =
      ({ writeKeys it m keys qeTarget nonce with state := .procMsg2ed }, .ok r) := by
  rw [commitMsg2, if_neg (not_not.mpr hstate)]
  cases hask : (do ask f .sha256; ask f .createReport : Except Status Unit) with
  | error e => exact .inl ⟨e, rfl⟩
  | ok u => exact .inr ⟨_, rfl⟩

/-! ### The table -/

/-- Only the context `c` differs. -/
structure Touches (s s' : Db) (c : ℕ) : Prop where
  fetch : ∀ d, d ≠ c → s'.fetch d = s.fetch d
  cell : ∀ d addr, d ≠ c → s.fetch d = some addr → s'.cell addr = s.cell addr
  cookie : s.cookie ≠ 0 → s'.cookie = s.cookie

theorem Touches.refl (s : Db) (c : ℕ) : Touches s s c :=
  ⟨fun _ _ => rfl, fun _ _ _ _ => rfl, fun _ => rfl⟩

@[simp] theorem cell_setItem_self (it : Item) :
    (s.setItem addr it).cell addr = { s.cell addr with item := it } :=
  Function.update_self ..

theorem cell_setItem_of_ne {a : ℕ} (ha : a ≠ addr) (it : Item) :
    (s.setItem addr it).cell a = s.cell a :=
  Function.update_of_ne ha ..

variable {p : Option ℕ}

/-- The slots of a table in which one was set. -/
theorem join_getElem?_set {data : List (Option ℕ)} {i d : ℕ} (hd : d ≠ i) :
    ((data.set i p)[d]?).join = (data[d]?).join := by
  rw [getElem?_set_ne hd.symm]

variable {grow : Bool}

/-- A slot that is found empty, or a new one behind all others. -/
theorem pushBack_eq (h : s.pushBack grow p = some s') :
    ∃ n, s' = { s with capacity := n, data := s.data ++ [p] } := by
  rw [Db.pushBack] at h
  split_ifs at h
  · exact ⟨_, (some.inj h).symm⟩
  · exact ⟨_, (some.inj h).symm⟩
  · exact ⟨_, (some.inj h).symm⟩

theorem insert_spec (s : Db) (grow : Bool) (addr : ℕ) :
    (∃ e, s.insert grow addr = (s.free addr, .error e)) ∨
    ∃ s' c, s.insert grow addr = (s', .ok c) ∧ s.fetch c = none ∧ s'.fetch c = some addr ∧
      (∀ d, d ≠ c → s'.fetch d = s.fetch d) ∧ s'.cell = s.cell ∧ s'.cookie = s.cookie := by
  rw [Db.insert]
  cases hfind : s.data.findIdx? (· = none) with
  | some i =>
    obtain ⟨hi, hnone, -⟩ := findIdx?_eq_some_iff_getElem.mp hfind
    have hempty : s.data[i] = none := of_decide_eq_true hnone
    refine .inr ⟨_, i, rfl, ?_, ?_, fun d hd => join_getElem?_set hd, rfl, rfl⟩
    · rw [Db.fetch, getElem?_eq_getElem hi, hempty]
      rfl
    · show ((s.data.set i (some addr))[i]?).join = some addr
      rw [getElem?_set_self hi]
      rfl
  | none =>
    by_cases hlen : s.data.length ≥ int32Max
    · exact .inl ⟨_, if_pos hlen⟩
    cases hpush : s.pushBack grow (some addr) with
    | none => exact .inl ⟨_, if_neg hlen⟩
    | some s' =>
      obtain ⟨n, rfl⟩ := pushBack_eq hpush
      refine .inr ⟨_, s.data.length, if_neg hlen, ?_, ?_, ?_, rfl, rfl⟩
      · rw [Db.fetch, getElem?_eq_none (Nat.le_refl _)]
        rfl
      · show ((s.data ++ [some addr])[s.data.length]?).join = some addr
        rw [getElem?_concat_length]
        rfl
      · intro d hd
        show ((s.data ++ [some addr])[d]?).join = (s.data[d]?).join
        rcases Nat.lt_or_gt_of_ne hd with hlt | hgt
        · rw [getElem?_append_left hlt]
        · rw [getElem?_eq_none (by rw [length_append]; exact hgt), getElem?_eq_none (Nat.le_of_lt hgt)]

/-- The slot of a closed context is empty, and its item is the only one that is touched. -/
theorem close_spec (h : s.fetch context = some addr) :
    let s' := (s.close context).1
    s'.fetch context = none ∧ (∀ d, d ≠ context → s'.fetch d = s.fetch d) ∧
      (∀ a, a ≠ addr → s'.cell a = s.cell a) ∧ s'.cookie = s.cookie := by
  rw [Db.close, h]
  refine ⟨?_, fun d hd => ?_, fun a ha => Function.update_of_ne ha .., rfl⟩
  · show ((s.data.set context none)[context]?).join = none
    rw [getElem?_set_self']
    cases s.data[context]? with
    | none | some => rfl
  · exact join_getElem?_set hd

/-! ### Runs -/

/-- What has been done: `initEx` made the item `gen` of a context for a service provider, and
`procMsg2` was called on an item with a message and gave a result. -/
inductive Event where
  | initEx (context gen : ℕ) (pubKey : Option Bytes) (deriveKeyCb : UInt64)
  | procMsg2 (context gen : ℕ) (x : Snapshot) (m : Msg2) (r : Except Status Bytes)

structure Trace where
  db : Db
  log : List Event

def Trace.empty : Trace := ⟨Db.empty, []⟩

inductive Op where
  | initEx (f : Faults) (rand : Option UInt64) (malloc : Option ℕ) (grow : Bool) (x : InitArgs)
  | getGa (f : Faults) (priv : Bytes) (context : ℕ) (valid : Bool)
  | procMsg2 (f : Faults) (context : ℕ) (valid : Bool) (m : Msg2) (qeTarget : TargetInfo)
      (nonce : Bytes)
  | getMsg3 (f : Faults) (context : ℕ) (x : Msg3Args)
  | getKeys (context : ℕ) (type : KeyType) (valid within : Bool)
  | close (context : ℕ)

/-- The context a call is made on. -/
def Op.context? : Op → Option ℕ
  | .initEx .. => none
  | .getGa _ _ context _ => some context
  | .procMsg2 _ context _ _ _ _ => some context
  | .getMsg3 _ context _ => some context
  | .getKeys context _ _ _ => some context
  | .close context => some context

/-- The item of a context, with the number that tells it from earlier ones. -/
def Db.view (s : Db) (context : ℕ) : Option Cell := (s.fetch context).map s.cell

/-- The events of a call of `sgx_ra_init_ex`. -/
def initEvents (s : Db) (x : InitArgs) : Except Status ℕ → List Event
  | .ok context => [.initEx context s.nextGen x.pubKey x.deriveKeyCb]
  | .error _ => []

/-- The events of a call of `sgx_ra_proc_msg2_trusted`. -/
def procMsg2Events (s : Db) (context : ℕ) (m : Msg2) (r : Except Status Bytes) : List Event :=
  match s.view context with
  | some c => [.procMsg2 context c.gen (c.item.exchange s.cookie) m r]
  | none => []

/-- A call.  The random cookie is drawn until it is not zero, and `malloc` returns memory that is
not in use. -/
def step (cr : Crypto) (op : Op) (t : Trace) : Option Trace :=
  match op with
  | .initEx f rand malloc grow x =>
    if rand = some 0 ∨ malloc.any (fun addr => (t.db.cell addr).live) then none
    else
      let r := initEx cr t.db f rand malloc grow x
      some ⟨r.1, initEvents t.db x r.2 ++ t.log⟩
  | .getGa f priv context valid => some { t with db := (getGa cr t.db f priv context valid).1 }
  | .procMsg2 f context valid m qeTarget nonce =>
    let r := procMsg2 cr t.db f context valid m qeTarget nonce
    some ⟨r.1, procMsg2Events t.db context m r.2 ++ t.log⟩
  | .getMsg3 .. => some t
  | .getKeys .. => some t
  | .close context => some { t with db := (t.db.close context).1 }

/-! ### The invariant -/

/-- What is known of the item of a context. -/
structure Known (cr : Crypto) (cookie : UInt64) (log : List Event) (context : ℕ) (c : Cell) :
    Prop where
  live : c.live = true
  drawn : cookie ≠ 0
  opened : ∃ pubKey cb, .initEx context c.gen (some pubKey) cb ∈ log ∧
    c.item.spPubkey = pubKey ∧ decKdfPointer cookie c.item.deriveKeyCb = cb
  publicKey : c.item.state ≠ .inited → c.item.gA = cr.publicOf c.item.a
  keys : c.item.state = .procMsg2ed → ∃ m keys r,
    .procMsg2 context c.gen (c.item.exchange cookie) m (.ok r) ∈ log ∧
    Verified cr (c.item.exchange cookie) m keys ∧
    c.item.mkKey = keys.mkey ∧ c.item.skKey = keys.skey

structure Inv (cr : Crypto) (t : Trace) : Prop where
  distinct : ∀ c d addr, t.db.fetch c = some addr → t.db.fetch d = some addr → c = d
  known : ∀ c addr, t.db.fetch c = some addr → Known cr t.db.cookie t.log c (t.db.cell addr)

variable {t t' : Trace} {c : ℕ}

variable {log : List Event}

theorem Known.mono {log' : List Event} {v : Cell} (h : Known cr cookie log c v)
    (hlog : ∀ e ∈ log, e ∈ log') : Known cr cookie log' c v where
  live := h.live
  drawn := h.drawn
  opened :=
    have ⟨pubKey, cb, hmem, heq⟩ := h.opened
    ⟨pubKey, cb, hlog _ hmem, heq⟩
  publicKey := h.publicKey
  keys := fun hstate =>
    have ⟨m, keys, r, hmem, heq⟩ := h.keys hstate
    ⟨m, keys, r, hlog _ hmem, heq⟩

/-- A call on one context has to care only for that context. -/
theorem Inv.of_touches (h : Inv cr t) (ht : Touches t.db t'.db c) (hlog : ∀ e ∈ t.log, e ∈ t'.log)
    (hc : ∀ addr, t'.db.fetch c = some addr → Known cr t'.db.cookie t'.log c (t'.db.cell addr) ∧
      ∀ d, d ≠ c → t.db.fetch d ≠ some addr) : Inv cr t' where
  distinct := by
    intro d d' addr hd hd'
    by_cases hdc : d = c
    · by_cases hdc' : d' = c
      · rw [hdc, hdc']
      · rw [ht.fetch d' hdc'] at hd'
        rw [hdc] at hd
        exact absurd hd' ((hc addr hd).2 d' hdc')
    · rw [ht.fetch d hdc] at hd
      by_cases hdc' : d' = c
      · rw [hdc'] at hd'
        exact absurd hd ((hc addr hd').2 d hdc)
      · rw [ht.fetch d' hdc'] at hd'
        exact h.distinct d d' addr hd hd'
  known := by
    intro d addr hd
    by_cases hdc : d = c
    · rw [hdc] at hd ⊢
      exact (hc addr hd).1
    · rw [ht.fetch d hdc] at hd
      have hknown := h.known d addr hd
      rw [ht.cell d addr hdc hd, ht.cookie hknown.drawn]
      exact hknown.mono hlog

/-- The item of a context is changed in place. -/
theorem Inv.touches_setItem (h : Inv cr t) (hfetch : t.db.fetch c = some addr) (it : Item) :
    Touches t.db (t.db.setItem addr it) c where
  fetch := fun _ _ => rfl
  cell := by
    intro d a hd ha
    refine cell_setItem_of_ne ?_ it
    intro heq
    rw [heq] at ha
    exact hd (h.distinct d c addr ha hfetch)
  cookie := fun _ => rfl

theorem Inv.setItem (h : Inv cr t) (hfetch : t.db.fetch c = some addr) (hlog : ∀ e ∈ t.log, e ∈ log)
    (hknown : Known cr t.db.cookie log c { t.db.cell addr with item := it }) :
    Inv cr ⟨t.db.setItem addr it, log⟩ := by
  refine h.of_touches (h.touches_setItem hfetch it) hlog ?_
  intro a ha
  have heq : addr = a := some.inj (hfetch.symm.trans ha)
  rw [← heq]
  refine ⟨?_, fun d hd hda => hd (h.distinct d c addr hda hfetch)⟩
  rw [cell_setItem_self]
  exact hknown

/-! ### The steps -/

variable {valid : Bool}

theorem Inv.getGa {priv : Bytes} (h : Inv cr t) :
    Inv cr { t with db := (getGa cr t.db f priv context valid).1 } ∧
    Touches t.db (getGa cr t.db f priv context valid).1 context := by
  rw [KeyExchange.getGa]
  cases hfetch : (if valid then t.db.fetch context else none) with
  | none => exact ⟨h, .refl _ _⟩
  | some addr =>
    obtain ⟨-, haddr⟩ := ite_none_right_eq_some.mp hfetch
    dsimp only
    cases hitem : getGaItem cr f priv (t.db.cell addr).item with
    | error e => exact ⟨h, .refl _ _⟩
    | ok r =>
      obtain ⟨-, -, -, ⟨⟩⟩ := by simpa only [getGaItem, require_bind, ask_bind] using hitem
      have hknown := h.known context addr haddr
      refine ⟨h.setItem haddr (fun e he => he) ?_, h.touches_setItem haddr _⟩
      exact ⟨hknown.live, hknown.drawn, hknown.opened, fun _ => rfl, nofun⟩

/-- The item after a message was accepted: the state is changed only together with the log. -/
theorem Known.writeKeys {v : Cell} (h : Known cr cookie log c v) (qeTarget : TargetInfo)
    (nonce : Bytes) (st : RaState) (hv : Verified cr (v.item.exchange cookie) m keys)
    (hst : st = .procMsg2ed →
      ∃ r, .procMsg2 c v.gen (v.item.exchange cookie) m (.ok r) ∈ log) :
    Known cr cookie log c
      { v with item := { KeyExchange.writeKeys v.item m keys qeTarget nonce with state := st } } where
  live := h.live
  drawn := h.drawn
  opened := h.opened
  publicKey := fun _ => hv.publicKey
  keys := fun hpm =>
    have ⟨r, hmem⟩ := hst hpm
    ⟨m, keys, r, hmem, hv, rfl, rfl⟩

theorem Inv.procMsg2 {qeTarget : TargetInfo} {nonce : Bytes} (h : Inv cr t) :
    let r := procMsg2 cr t.db f context valid m qeTarget nonce
    Inv cr ⟨r.1, procMsg2Events t.db context m r.2 ++ t.log⟩ ∧ Touches t.db r.1 context := by
  have hsub : ∀ r, ∀ e ∈ t.log, e ∈ procMsg2Events t.db context m r ++ t.log :=
    fun _ _ he => mem_append_right _ he
  -- a call that does not reach its last part leaves the table alone
  have hsame : ∀ r, Inv cr ⟨t.db, procMsg2Events t.db context m r ++ t.log⟩ ∧
      Touches t.db t.db context :=
    fun r => ⟨⟨h.distinct, fun d addr hd => (h.known d addr hd).mono (hsub r)⟩, .refl _ _⟩
  rw [KeyExchange.procMsg2]
  cases hfetch : (if valid then t.db.fetch context else none) with
  | none => exact hsame _
  | some addr =>
    obtain ⟨-, haddr⟩ := ite_none_right_eq_some.mp hfetch
    dsimp only
    cases hcheck : checkMsg2 cr t.db.cookie f m (t.db.cell addr).item with
    | error e => exact hsame _
    | ok keys =>
      have hknown := h.known context addr haddr
      obtain ⟨hstate, hv⟩ := verified_of_checkMsg2 hcheck hknown.publicKey
      dsimp only
      rcases commitMsg2_eq cr f m keys qeTarget nonce hstate with ⟨e, hcommit⟩ | ⟨rep, hcommit⟩
      · rw [hcommit]
        refine ⟨h.setItem haddr (hsub _) ?_, h.touches_setItem haddr _⟩
        -- the keys are written, but the state is still `getGaed`
        have hw := (hknown.mono (hsub (.error e))).writeKeys qeTarget nonce .getGaed hv nofun
        rw [← hstate] at hw
        exact hw
      · rw [hcommit]
        refine ⟨h.setItem haddr (hsub _) ?_, h.touches_setItem haddr _⟩
        refine (hknown.mono (hsub _)).writeKeys qeTarget nonce _ hv fun _ => ⟨rep, ?_⟩
        rw [procMsg2Events, Db.view, haddr]
        exact mem_cons_self

variable {rand : Option UInt64}

/-- The cookie is drawn once and is never zero. -/
theorem drawn_cookie {s₁ : Db} (hrand : rand ≠ some 0)
    (h : (if s.cookie = 0 then rand.map s.setCookie else some s) = some s₁) :
    ∃ n, s₁ = { s with cookie := n } ∧ n ≠ 0 ∧ (s.cookie ≠ 0 → n = s.cookie) := by
  split_ifs at h with hzero
  · obtain ⟨r, hr, rfl⟩ := map_eq_some_iff.mp h
    refine ⟨r, if_pos hzero, ?_, fun hne => absurd hzero hne⟩
    intro hr0
    exact hrand (by rw [hr, hr0])
  · cases h
    exact ⟨s.cookie, rfl, hzero, fun _ => rfl⟩

theorem pubKey_of_checkInit {x : InitArgs} {pubKey : Bytes} (h : checkInit cr f x = .ok pubKey) :
    x.pubKey = some pubKey := by
  rw [checkInit] at h
  cases hkey : x.pubKey with
  | none =>
    rw [hkey] at h
    cases h
  | some key =>
    rw [hkey] at h
    simp only [require_bind, ask_bind] at h
    obtain ⟨-, -, -, -, -, -, ⟨⟩⟩ := h
    rfl

variable {malloc : Option ℕ}

/-- A failed `sgx_ra_init_ex` leaves all contexts alone; a successful one fills an empty slot. -/
theorem initEx_spec {x : InitArgs} (hrand : rand ≠ some 0) :
    let r := initEx cr s f rand malloc grow x
    (∀ a, malloc ≠ some a → r.1.cell a = s.cell a) ∧ (s.cookie ≠ 0 → r.1.cookie = s.cookie) ∧
    ((∃ e, r.2 = .error e ∧ ∀ d, r.1.fetch d = s.fetch d) ∨
      ∃ c addr pubKey, r.2 = .ok c ∧ malloc = some addr ∧ x.pubKey = some pubKey ∧
        r.1.cookie ≠ 0 ∧ s.fetch c = none ∧ r.1.fetch c = some addr ∧
        (∀ d, d ≠ c → r.1.fetch d = s.fetch d) ∧
        r.1.cell addr = ⟨true, s.nextGen, Db.newItem r.1.cookie pubKey x.deriveKeyCb⟩) := by
  rw [initEx]
  cases hcookie : (if s.cookie = 0 then rand.map s.setCookie else some s) with
  | none => exact ⟨fun _ _ => rfl, fun _ => rfl, .inl ⟨_, rfl, fun _ => rfl⟩⟩
  | some s₁ =>
    obtain ⟨n, rfl, hn, hkeep⟩ := drawn_cookie hrand hcookie
    cases hcheck : checkInit cr f x with
    | error e => exact ⟨fun _ _ => rfl, hkeep, .inl ⟨_, rfl, fun _ => rfl⟩⟩
    | ok pubKey =>
      cases malloc with
      | none => exact ⟨fun _ _ => rfl, hkeep, .inl ⟨_, rfl, fun _ => rfl⟩⟩
      | some addr =>
        have hother : ∀ a, some addr ≠ some a →
            (Db.alloc { s with cookie := n } addr (Db.newItem n pubKey x.deriveKeyCb)).cell a =
              s.cell a :=
          fun a ha => Function.update_of_ne (fun heq => ha (congrArg some heq.symm)) ..
        dsimp only
        rcases insert_spec (Db.alloc { s with cookie := n } addr
          (Db.newItem n pubKey x.deriveKeyCb)) grow addr with
          ⟨e, heq⟩ | ⟨s', c, heq, hnone, hsome, hfetch, hcell, hck⟩
        · rw [heq]
          refine ⟨fun a ha => ?_, hkeep, .inl ⟨e, rfl, fun _ => rfl⟩⟩
          rw [← hother a ha]
          exact Function.update_of_ne (fun h => ha (congrArg some h.symm)) ..
        · rw [heq]
          rw [hcell, hck]
          exact ⟨hother, hkeep, .inr ⟨c, addr, pubKey, rfl, rfl, pubKey_of_checkInit hcheck, hn, hnone,
            hsome, hfetch, Function.update_self ..⟩⟩

/-- The pointer to the key derivation is stored under the cookie. -/
theorem decKdfPointer_encKdfPointer (n p : UInt64) :
    decKdfPointer n (Db.encKdfPointer n p) = p := by
  rw [decKdfPointer, Db.encKdfPointer, UInt64.xor_assoc, UInt64.xor_self, UInt64.xor_zero]

theorem Inv.initEx {x : InitArgs} (h : Inv cr t) (hrand : rand ≠ some 0)
    (hmalloc : ∀ addr, malloc = some addr → (t.db.cell addr).live ≠ true) :
    let r := initEx cr t.db f rand malloc grow x
    Inv cr ⟨r.1, initEvents t.db x r.2 ++ t.log⟩ ∧
    ∃ c, t.db.fetch c = none ∧ Touches t.db r.1 c := by
  intro r
  have hsub : ∀ e ∈ t.log, e ∈ initEvents t.db x r.2 ++ t.log :=
    fun e he => mem_append_right _ he
  obtain ⟨hcell, hcookie, hcases⟩ := initEx_spec hrand
  -- the memory of a context is in use, so `malloc` did not return it
  have hkeep : ∀ d addr, t.db.fetch d = some addr → r.1.cell addr = t.db.cell addr :=
    fun d addr hd => hcell addr (fun hm => hmalloc addr hm (h.known d addr hd).live)
  rcases hcases with ⟨e, hr, hfetch⟩ | ⟨c, addr, pubKey, hr, hm, hkey, hne, hnone, hsome, hfetch, hnew⟩
  · have htouch : Touches t.db r.1 t.db.data.length :=
      ⟨fun d _ => hfetch d, fun d a _ hd => hkeep d a hd, hcookie⟩
    have hlast : t.db.fetch t.db.data.length = none := by
      rw [Db.fetch, getElem?_eq_none (Nat.le_refl _)]
      rfl
    refine ⟨h.of_touches htouch hsub ?_, _, hlast, htouch⟩
    intro a ha
    rw [hfetch, hlast] at ha
    cases ha
  · have htouch : Touches t.db r.1 c := ⟨hfetch, fun d a _ hd => hkeep d a hd, hcookie⟩
    refine ⟨h.of_touches htouch hsub ?_, c, hnone, htouch⟩
    intro a ha
    have heq : addr = a := some.inj (hsome.symm.trans ha)
    rw [← heq]
    refine ⟨?_, fun d _ hd => hmalloc addr hm (h.known d addr hd).live⟩
    rw [hnew]
    refine ⟨rfl, hne, ⟨pubKey, x.deriveKeyCb, ?_, rfl, decKdfPointer_encKdfPointer _ _⟩,
      fun hst => absurd rfl hst, nofun⟩
    rw [hr, initEvents, hkey]
    exact mem_cons_self

theorem Inv.close (h : Inv cr t) : Inv cr { t with db := (t.db.close context).1 } ∧
    Touches t.db (t.db.close context).1 context := by
  cases hfetch : t.db.fetch context with
  | none =>
    have heq : (t.db.close context).1 = t.db := by rw [Db.close, hfetch]
    rw [heq]
    exact ⟨h, .refl _ _⟩
  | some addr =>
    obtain ⟨hself, hother, hcell, hcookie⟩ := close_spec hfetch
    have htouch : Touches t.db (t.db.close context).1 context := by
      refine ⟨hother, fun d a hd ha => hcell a ?_, fun _ => hcookie⟩
      rintro rfl
      exact hd (h.distinct d context a ha hfetch)
    refine ⟨h.of_touches htouch (fun e he => he) fun a ha => ?_, htouch⟩
    cases hself.symm.trans ha

/-- **The step lemma.**  A call keeps the invariant and touches one context only: its own, or an
empty slot if it is `sgx_ra_init_ex`. -/
theorem Inv.step {op : Op} (h : Inv cr t) (hstep : step cr op t = some t') :
    Inv cr t' ∧ ∃ c, Touches t.db t'.db c ∧ (op.context? = some c ∨ t.db.fetch c = none) := by
  cases op with
  | initEx f rand malloc grow x =>
    rw [KeyExchange.step] at hstep
    split_ifs at hstep with hbad
    cases hstep
    obtain ⟨hrand, hlive⟩ := not_or.mp hbad
    have hmalloc : ∀ addr, malloc = some addr → (t.db.cell addr).live ≠ true := by
      intro addr hm htrue
      rw [hm] at hlive
      exact hlive htrue
    obtain ⟨hinv, c, hnone, htouch⟩ := h.initEx hrand hmalloc
    exact ⟨hinv, c, htouch, .inr hnone⟩
  | getGa f priv context valid =>
    cases hstep
    exact ⟨h.getGa.1, context, h.getGa.2, .inl rfl⟩
  | procMsg2 f context valid m qeTarget nonce =>
    cases hstep
    exact ⟨h.procMsg2.1, context, h.procMsg2.2, .inl rfl⟩
  | getMsg3 f context x | getKeys context type valid within =>
    cases hstep
    exact ⟨h, context, .refl _ _, .inl rfl⟩
  | close context =>
    cases hstep
    exact ⟨h.close.1, context, h.close.2, .inl rfl⟩

theorem Inv.empty : Inv cr Trace.empty where
  distinct := nofun
  known := nofun

theorem inv_of_run {l : List Op} (hrun : run (KeyExchange.step cr) l Trace.empty = some t) :
    Inv cr t :=
  invariant_of_run (fun _ _ _ h hstep => (h.step hstep).1) hrun .empty

/-! ### The result -/

/-- The key of a type. -/
def Keys.ofType (keys : Keys) : KeyType → Option Bytes
  | .mk => some keys.mkey
  | .sk => some keys.skey
  | .other => none

/-- A key is read from the item of a context whose message was accepted. -/
theorem getKeys_eq_ok {type : KeyType} {within : Bool} {key : Bytes}
    (h : getKeys s context type valid within = .ok key) :
    ∃ addr, s.fetch context = some addr ∧ (s.cell addr).item.state = .procMsg2ed ∧
      (type = .mk ∧ key = (s.cell addr).item.mkKey ∨ type = .sk ∧ key = (s.cell addr).item.skKey) := by
  rw [getKeys] at h
  cases hfetch : (if valid then s.fetch context else none) with
  | none =>
    rw [hfetch] at h
    cases h
  | some addr =>
    obtain ⟨-, haddr⟩ := ite_none_right_eq_some.mp hfetch
    rw [hfetch] at h
    dsimp only at h
    split at h
    · by_cases hstate : (s.cell addr).item.state = .procMsg2ed
      · rw [getKeysItem.eq_def, if_neg (not_not.mpr hstate)] at h
        refine ⟨addr, haddr, hstate, ?_⟩
        cases type with
        | mk => exact .inl ⟨rfl, (Except.ok.inj h).symm⟩
        | sk => exact .inr ⟨rfl, (Except.ok.inj h).symm⟩
        | other => cases h
      · rw [getKeysItem.eq_def, if_pos hstate] at h
        cases h
    · cases h

/-- **Keys come from an authenticated message.**  In every run, `sgx_ra_get_keys` succeeds on a
context only if `sgx_ra_proc_msg2_trusted` succeeded on the item that the context still has, with a
message that the service provider given to `sgx_ra_init_ex` signed for the public key of the item
and whose MAC is right under the derived key; the key returned is derived from that message and the
private key of the item.  A call leaves the items of all other contexts alone. -/
theorem keys_authenticated {l : List Op} (hrun : run (step cr) l Trace.empty = some t) :
    (∀ context type valid within key, getKeys t.db context type valid within = .ok key →
      ∃ v m keys r, t.db.view context = some v ∧
        .initEx context v.gen (some v.item.spPubkey) (v.item.exchange t.db.cookie).keyCb ∈ t.log ∧
        .procMsg2 context v.gen (v.item.exchange t.db.cookie) m (.ok r) ∈ t.log ∧
        Verified cr (v.item.exchange t.db.cookie) m keys ∧
        keys.ofType type = some key) ∧
    (∀ op t', step cr op t = some t' → ∀ c v, op.context? ≠ some c →
      t.db.view c = some v → t'.db.view c = some v) := by
  have hinv : Inv cr t := inv_of_run hrun
  refine ⟨?_, ?_⟩
  · intro context type valid within key hkey
    obtain ⟨addr, haddr, hstate, htype⟩ := getKeys_eq_ok hkey
    have hknown := hinv.known context addr haddr
    obtain ⟨pubKey, cb, hopened, hsp, hcb⟩ := hknown.opened
    obtain ⟨m, keys, r, hmem, hv, hmk, hsk⟩ := hknown.keys hstate
    refine ⟨t.db.cell addr, m, keys, r, ?_, ?_, hmem, hv, ?_⟩
    · rw [Db.view, haddr]
      rfl
    · rw [hsp]
      show Event.initEx context _ (some pubKey) (decKdfPointer t.db.cookie _) ∈ t.log
      rw [hcb]
      exact hopened
    · rcases htype with ⟨rfl, rfl⟩ | ⟨rfl, rfl⟩
      · rw [hmk]
        rfl
      · rw [hsk]
        rfl
  · intro op t' hstep c v hc hview
    obtain ⟨addr, haddr, rfl⟩ := map_eq_some_iff.mp hview
    obtain ⟨-, d, htouch, hd⟩ := hinv.step hstep
    have hne : c ≠ d := by
      intro heq
      rw [← heq] at hd
      rcases hd with hd | hd
      · exact hc hd
      · rw [haddr] at hd
        cases hd
    rw [Db.view, htouch.fetch c hne, haddr, map_some, htouch.cell c addr hne haddr]

/-- Keys are sums and a signature is the key with the message: enough for an exchange to succeed. -/
def plain : Crypto where
  publicOf := fun a => a
  checkPoint := fun _ => true
  sharedDhkey := fun a gB => .ok (a ++ gB)
  ecdsaVerify := fun key msg sign => decide (sign = key ++ msg)
  deriveKey := fun dh _ => dh
  callback := fun _ _ _ => .error .unexpected
  cmac := fun key _ => key
  sha256 := fun b => b
  report := fun _ b => b

def plainMsg2 : Msg2 := ⟨[3], [], 0, 1, [1, 3, 2], [2, 3]⟩

/-- One exchange on the first context. -/
def oneExchange : List Op :=
  [.initEx (fun _ => none) (some 7) (some 100) true ⟨some [1], true, true, 0, true⟩,
   .getGa (fun _ => none) [2] 0 true,
   .procMsg2 (fun _ => none) 0 true plainMsg2 ⟨[], []⟩ []]

theorem keys_authenticated_oneExchange :
    ∃ t, run (step plain) oneExchange Trace.empty = some t ∧
      ∃ v m keys r, t.db.view 0 = some v ∧
        .procMsg2 0 v.gen (v.item.exchange t.db.cookie) m (.ok r) ∈ t.log ∧
        Verified plain (v.item.exchange t.db.cookie) m keys ∧
        keys.ofType .sk = some [2, 3] := by
  obtain ⟨t, ht⟩ := isSome_iff_exists.mp
    (by decide : (run (step plain) oneExchange Trace.empty).isSome = true)
  have hkey : (run (step plain) oneExchange Trace.empty).map
      (fun t => (getKeys t.db 0 .sk true true).toOption) = some (some [2, 3]) := by decide
  rw [ht] at hkey
  have hok : getKeys t.db 0 .sk true true = .ok [2, 3] := by
    cases hget : getKeys t.db 0 .sk true true with
    | error e =>
      rw [map_some, hget] at hkey
      cases hkey
    | ok key =>
      rw [map_some, hget] at hkey
      cases hkey
      rfl
  obtain ⟨v, m, keys, r, hview, -, hmem, hv, htype⟩ := (keys_authenticated ht).1 _ _ _ _ _ hok
  exact ⟨t, ht, v, m, keys, r, hview, hmem, hv, htype⟩

end KeyExchange
