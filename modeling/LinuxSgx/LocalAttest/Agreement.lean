/-
Agreement of local attestation sessions (`ec_dh.cpp`).

Any number of sessions, of initiators of both versions and of responders, get messages from an
adversary.  It can put together what it likes, but it makes a CMAC only with a key of which it
has a private key, and reports are made by the processor: those of the sessions, and those that an
enclave makes outside of the sessions.

* `State`, `Action`, `step` — the sessions and what they have made;
* `Phase`, `MadeCmac`, `MadeReport`, `Accepted`, `Inv` — the invariant;
* **`sessions_agree`** — if no report outside of the sessions has the digest of the second version
  over the key of a session, and no hash fails in the verification of that version, two sessions with
  the same key have used each other's public key and have the identity of each other's enclave; a key
  is given out once, and nothing else is left then or after an error; sessions that are left alone get
  the same key;
* **`misbound`** — with such reports of a third enclave, both sessions take it for their peer.
-/
import LinuxSgx.Lib.Runs
import LinuxSgx.LocalAttest.Session

open Runs Function List

namespace LocalAttest

/-- The enclaves, the roles and the versions of the sessions. -/
structure Config where
  owner : ℕ → Identity
  role : ℕ → Role
  version : ℕ → Version
  interpret : ProtoSpec → Report → Except Status TargetInfo

/-- The memory of the sessions, and what is not in the code: what they have given to their
callers, which of them had an error, their messages, and all MACs that were made. -/
structure State where
  session : ℕ → Session
  outputs : ℕ → List Output
  failed : ℕ → Bool
  msg1 : ℕ → Option Msg1
  msg2 : ℕ → Option Msg2
  msg3 : ℕ → Option Msg3
  cmacs : List Cmac
  reportMacs : List ReportMac

inductive Action where
  | genMsg1 (i : ℕ) (f : Faults) (valid : Bool)
  | procMsg1 (i : ℕ) (f : Faults) (valid : Bool) (msg1 : Msg1)
  | procMsg2 (i : ℕ) (f : Faults) (valid : Bool) (msg2 : Msg2) (prop : List UInt8)
      (buffer : EnclaveIdentity)
  | procMsg3 (i : ℕ) (f : Faults) (valid : Bool) (msg3 : Msg3)
  /-- a report that is made outside of the sessions -/
  | report (e : Identity) (target : TargetInfo) (data : Blob)

/-! ### The adversary -/

/-- A public key whose private key does not belong to a session. -/
def Blob.isOutside : Blob → Bool
  | .pub (.outside _) => true
  | _ => false

/-- The adversary has one of the two private keys. -/
def exposed (x : Secret) : Bool := x.first.isOutside || x.second.isOutside

/-- A CMAC that was made, or that the adversary can make. -/
def KnownCmac (cmacs : List Cmac) (c : Cmac) : Prop :=
  c ∈ cmacs ∨
    match c with
    | .cmac k _ => exposed k.secret = true
    | .other _ => True

instance (cmacs : List Cmac) (c : Cmac) : Decidable (KnownCmac cmacs c) := by
  unfold KnownCmac
  cases c <;> infer_instance

/-- The MAC of a report that was made, or no such MAC. -/
def KnownReport (macs : List ReportMac) (m : ReportMac) : Prop :=
  m ∈ macs ∨
    match m with
    | .mac _ _ _ => False
    | .other _ => True

instance (macs : List ReportMac) (m : ReportMac) : Decidable (KnownReport macs m) := by
  unfold KnownReport
  cases m <;> infer_instance

/-! ### Steps -/

namespace State

variable (s : State) (i : ℕ)

def init (cfg : Config) : State :=
  ⟨fun i => .init (cfg.role i), fun _ => [], fun _ => false, fun _ => none, fun _ => none,
    fun _ => none, [], []⟩

def setSession (t : Session) : State := { s with session := Function.update s.session i t }

def fail (t : Session) : State := { s.setSession i t with failed := Function.update s.failed i true }

def sendMsg1 (t : Session) (m : Msg1) : State :=
  { s.setSession i t with msg1 := Function.update s.msg1 i (some m) }

def sendMsg2 (t : Session) (m : Msg2) : State :=
  { s.setSession i t with
    msg2 := Function.update s.msg2 i (some m)
    cmacs := m.cmac :: s.cmacs
    reportMacs := m.report.mac :: s.reportMacs }

def sendMsg3 (t : Session) (m : Msg3) : State :=
  { s.setSession i t with
    msg3 := Function.update s.msg3 i (some m)
    cmacs := m.cmac :: s.cmacs
    reportMacs := m.report.mac :: s.reportMacs }

def output (o : Output) : State :=
  { s with outputs := Function.update s.outputs i (o :: s.outputs i) }

end State

def step (cfg : Config) : Action → State → Option State
  | .genMsg1 i f valid, s =>
    match genMsg1 f (cfg.owner i) valid (s.session i) (.session i) with
    | (t, .error _) => some (s.fail i t)
    | (t, .ok msg1) => some (s.sendMsg1 i t msg1)
  | .procMsg1 i f valid msg1, s =>
    match procMsg1 f (cfg.owner i) valid (s.session i) (cfg.version i) (.session i) msg1 with
    | (t, .error _) => some (s.fail i t)
    | (t, .ok msg2) => some (s.sendMsg2 i t msg2)
  | .procMsg2 i f valid msg2 prop buffer, s =>
    if KnownCmac s.cmacs msg2.cmac ∧ KnownReport s.reportMacs msg2.report.mac then
      match procMsg2 cfg.interpret f (cfg.owner i) valid (s.session i) msg2 prop buffer with
      | (t, .error _, none) => some (s.fail i t)
      | (t, .error _, some o) => some ((s.fail i t).output i o)
      | (t, .ok msg3, none) => some (s.sendMsg3 i t msg3)
      | (t, .ok msg3, some o) => some ((s.sendMsg3 i t msg3).output i o)
    else none
  | .procMsg3 i f valid msg3, s =>
    if KnownCmac s.cmacs msg3.cmac ∧ KnownReport s.reportMacs msg3.report.mac then
      match procMsg3 f (cfg.owner i) valid (s.session i) (cfg.version i) msg3 with
      | (t, .error _) => some (s.fail i t)
      | (t, .ok o) => some ((s.setSession i t).output i o)
    else none
  | .report e target data, s =>
    some { s with reportMacs := (createReport e target data).mac :: s.reportMacs }

/-- The digests with which the second version binds the public key of a session. -/
def Blob.bindsSession : Blob → Bool
  | .digest (.spec _) (.pub (.session _)) 0 => true
  | .digest (.pub (.session _)) (.spec ps) 0 => decide (ps = lav2ProtoSpec)
  | _ => false

/-- No enclave makes a report with such a digest outside of the sessions, and the hash does not
fail where messages of the second version are verified. -/
def Proper (cfg : Config) (_s : State) : Action → Prop
  | .report _ _ data => data.bindsSession = false
  | .procMsg2 _ f _ msg2 _ _ => msg2.report.data.protoSpec = none ∨ f .sha256 = none
  | .procMsg3 i f _ _ => cfg.version i = .v1 ∨ f .sha256 = none
  | _ => True

instance (cfg : Config) (s : State) (a : Action) : Decidable (Proper cfg s a) := by
  cases a <;> unfold Proper <;> infer_instance

/-! ### The invariant -/

abbrev key (i : ℕ) : Blob := .pub (.session i)

/-- The memory of a session in the states that it goes through, with what it has given out. -/
inductive Phase (cfg : Config) (i : ℕ) : Session → List Output → Prop where
  | fresh : Phase cfg i (.init (cfg.role i)) []
  | waitM2 : cfg.role i = .responder → Phase cfg i (.waitM2 (.session i)) []
  | waitM3 {gA : Blob} : cfg.role i = .initiator → Phase cfg i (.waitM3 (.session i) gA) []
  | error {os : List Output} : os.length ≤ 1 → Phase cfg i (.cleared .error) os
  | active {o : Output} : Phase cfg i (.cleared .active) [o]

/-- The CMACs that sessions make. -/
inductive MadeCmac (cfg : Config) : Cmac → Prop where
  | initiator1 {i : ℕ} {p : Blob} {r : Report} : cfg.role i = .initiator →
    r.identity = cfg.owner i → MadeCmac cfg (.cmac ⟨dh (.session i) p, .smk⟩ (.report r))
  | initiator2 {i : ℕ} {p : Blob} : cfg.role i = .initiator →
    MadeCmac cfg (.cmac ⟨dh (.session i) p, .smk⟩ (.point [] (key i)))
  | responder1 {i : ℕ} {p : Blob} {r : Report} {prop : List UInt8} : cfg.role i = .responder →
    r.identity = cfg.owner i → MadeCmac cfg (.cmac ⟨dh (.session i) p, .smk⟩ (.body r prop))
  | responder2 {i : ℕ} {p : Blob} {prop : List UInt8} : cfg.role i = .responder →
    MadeCmac cfg (.cmac ⟨dh (.session i) p, .smk⟩ (.point prop (key i)))

/-- The reports that are made. -/
inductive MadeReport (cfg : Config) : ReportMac → Prop where
  | initiator1 {i : ℕ} {p : Blob} {t : TargetInfo} : cfg.role i = .initiator →
    MadeReport cfg (.mac (cfg.owner i) (.digest p (key i) aesCmacKdfId) t)
  | initiator2 {i : ℕ} {t : TargetInfo} : cfg.role i = .initiator →
    MadeReport cfg (.mac (cfg.owner i) (.digest (.spec lav2ProtoSpec) (key i) 0) t)
  | responder1 {i : ℕ} {p : Blob} {t : TargetInfo} : cfg.role i = .responder →
    MadeReport cfg (.mac (cfg.owner i) (.digest p (key i) 0) t)
  | responder2 {i : ℕ} {ps : ProtoSpec} {t : TargetInfo} : cfg.role i = .responder →
    MadeReport cfg (.mac (cfg.owner i) (.digest (key i) (.spec ps) 0) t)
  | outside {e : Identity} {d : Blob} {t : TargetInfo} : d.bindsSession = false →
    MadeReport cfg (.mac e d t)
  | unset {n : ℕ} : MadeReport cfg (.other n)

/-- The reports of the second version, whatever fails. -/
theorem MadeReport.orUnset {cfg : Config} {f : Faults} {e : Identity} {a b : Blob} {t : TargetInfo}
    (h : MadeReport cfg (.mac e (.digest a b 0) t)) :
    MadeReport cfg (reportOrUnset f e t (hashOrZeros f a b)).mac := by
  unfold reportOrUnset hashOrZeros
  split_ifs
  · exact h
  · exact .outside rfl
  · exact .unset

/-- What has convinced a session with the role `role` that the enclave `e` has the key `p`. -/
def Convinced (role : Role) (cmacs : List Cmac) (macs : List ReportMac) (i : ℕ) (p : Blob)
    (e : Identity) : Prop :=
  match role with
  | .responder =>
    (∃ r : Report, r.identity = e ∧ KnownCmac cmacs (.cmac ⟨dh (.session i) p, .smk⟩ (.report r))) ∨
      ∃ ps t, .mac e (.digest (.spec ps) p 0) t ∈ macs
  | .initiator =>
    (∃ (r : Report) (prop : List UInt8), r.identity = e ∧
        KnownCmac cmacs (.cmac ⟨dh (.session i) p, .smk⟩ (.body r prop))) ∨
      ∃ t, .mac e (.digest p (.spec lav2ProtoSpec) 0) t ∈ macs

/-- What holds of a key that a session has given out. -/
structure Accepted (role : Role) (cmacs : List Cmac) (macs : List ReportMac) (i : ℕ) (o : Output) :
    Prop where
  aek : o.aek = ⟨dh (.session i) o.peerKey, .aek⟩
  peer : ∃ e, o.identity.IsOf e ∧ Convinced role cmacs macs i o.peerKey e

structure Inv (cfg : Config) (s : State) : Prop where
  phase : ∀ i, Phase cfg i (s.session i) (s.outputs i)
  failed : ∀ i, s.failed i = true → s.session i = .cleared .error
  cmacs : ∀ c ∈ s.cmacs, MadeCmac cfg c
  reports : ∀ m ∈ s.reportMacs, MadeReport cfg m
  accepted : ∀ i, ∀ o ∈ s.outputs i, Accepted (cfg.role i) s.cmacs s.reportMacs i o

variable {cfg : Config} {s s' : State} {i j : ℕ}

/-! ### Agreement -/

theorem eq_key_of_secret {p q : Blob} (hij : i ≠ j) (h : dh (.session i) p = dh (.session j) q) :
    p = key j ∧ q = key i :=
  eq_pub_of_dh (fun heq => hij (Exponent.session.inj heq)) h

theorem exposed_keys : exposed (dh (.session i) (key j)) = false := by
  rcases dh_side (.session i) (key j) with hside | hside
  · rw [hside]
    rfl
  · rw [hside]
    rfl

/-- A CMAC with the key of two sessions was made by one of them. -/
theorem KnownCmac.made {x : MacInput} (h : Inv cfg s)
    (hx : KnownCmac s.cmacs (.cmac ⟨dh (.session i) (key j), .smk⟩ x)) :
    MadeCmac cfg (.cmac ⟨dh (.session i) (key j), .smk⟩ x) := by
  rcases hx with hmem | hexposed
  · exact h.cmacs _ hmem
  · have hexposed : exposed (dh (.session i) (key j)) = true := hexposed
    rw [exposed_keys] at hexposed
    cases hexposed

/-- Only initiators make a CMAC over a report alone. -/
theorem MadeCmac.of_report {k : Key} {r : Report} (h : MadeCmac cfg (.cmac k (.report r))) :
    ∃ i p, cfg.role i = .initiator ∧ r.identity = cfg.owner i ∧ k = ⟨dh (.session i) p, .smk⟩ := by
  cases h with
  | @initiator1 i p _ hi hr => exact ⟨i, p, hi, hr, rfl⟩

/-- Only responders make one over the body of a message. -/
theorem MadeCmac.of_body {k : Key} {r : Report} {prop : List UInt8}
    (h : MadeCmac cfg (.cmac k (.body r prop))) :
    ∃ i p, cfg.role i = .responder ∧ r.identity = cfg.owner i ∧ k = ⟨dh (.session i) p, .smk⟩ := by
  cases h with
  | @responder1 i p _ _ hi hr => exact ⟨i, p, hi, hr, rfl⟩

variable {e : Identity}

/-- A responder is convinced by the session with the key only. -/
theorem Inv.owner_of_responder (h : Inv cfg s) (hi : cfg.role i = .initiator)
    (hj : cfg.role j = .responder)
    (hconvinced : Convinced .responder s.cmacs s.reportMacs j (key i) e) : e = cfg.owner i := by
  rcases hconvinced with ⟨r, rfl, hknown⟩ | ⟨ps, t, hmem⟩
  · obtain ⟨i', p, hi', hr, hkey⟩ := (hknown.made h).of_report
    have hne : j ≠ i' := by
      rintro rfl
      exact nomatch hj.symm.trans hi'
    obtain ⟨hp, -⟩ := eq_key_of_secret hne (Key.mk.inj hkey).1
    cases hp
    exact hr
  · cases h.reports _ hmem with
    | initiator2 => rfl
    | responder1 hi' => exact nomatch hi.symm.trans hi'
    | outside hbinds => cases hbinds

/-- So is an initiator. -/
theorem Inv.owner_of_initiator (h : Inv cfg s) (hi : cfg.role i = .initiator)
    (hconvinced : Convinced .initiator s.cmacs s.reportMacs i (key j) e) : e = cfg.owner j := by
  rcases hconvinced with ⟨r, prop, rfl, hknown⟩ | ⟨t, hmem⟩
  · obtain ⟨j', p, hj', hr, hkey⟩ := (hknown.made h).of_body
    have hne : i ≠ j' := by
      rintro rfl
      exact nomatch hi.symm.trans hj'
    obtain ⟨hp, -⟩ := eq_key_of_secret hne (Key.mk.inj hkey).1
    cases hp
    exact hr
  · cases h.reports _ hmem with
    | responder2 => rfl
    | outside hbinds =>
      simp [Blob.bindsSession] at hbinds

/-- Sessions with the same key have each other as their peer. -/
theorem Inv.agree (h : Inv cfg s) (hi : cfg.role i = .initiator) (hj : cfg.role j = .responder)
    {oi oj : Output} (hoi : oi ∈ s.outputs i) (hoj : oj ∈ s.outputs j) (haek : oi.aek = oj.aek) :
    oi.identity.IsOf (cfg.owner j) ∧ oj.identity.IsOf (cfg.owner i) ∧ oi.peerKey = key j ∧
      oj.peerKey = key i := by
  obtain ⟨haeki, ei, hidi, hconvi⟩ := h.accepted i oi hoi
  obtain ⟨haekj, ej, hidj, hconvj⟩ := h.accepted j oj hoj
  have hne : i ≠ j := by
    rintro rfl
    exact nomatch hi.symm.trans hj
  rw [haeki, haekj] at haek
  obtain ⟨hpi, hpj⟩ := eq_key_of_secret hne (Key.mk.inj haek).1
  rw [hi, hpi] at hconvi
  rw [hj, hpj] at hconvj
  rw [h.owner_of_initiator hi hconvi] at hidi
  rw [h.owner_of_responder hi hj hconvj] at hidj
  exact ⟨hidi, hidj, hpi, hpj⟩

/-! ### Steps keep the invariant -/

namespace Phase

variable {t : Session} {os : List Output}

theorem length_le (h : Phase cfg i t os) : os.length ≤ 1 := by
  cases h with
  | error hle => exact hle
  | active => exact Nat.le_refl 1
  | _ => exact Nat.zero_le 1

theorem of_reset (h : Phase cfg i t os) (hstate : t.state = .reset) :
    cfg.role i = .responder ∧ t = .init .responder ∧ os = [] := by
  cases h with
  | fresh =>
    cases hrole : cfg.role i with
    | initiator =>
      rw [hrole] at hstate
      cases hstate
    | responder => exact ⟨rfl, rfl, rfl⟩
  | _ => cases hstate

theorem of_waitM1 (h : Phase cfg i t os) (hstate : t.state = .initiatorWaitM1) :
    cfg.role i = .initiator ∧ t = .init .initiator ∧ os = [] := by
  cases h with
  | fresh =>
    cases hrole : cfg.role i with
    | initiator => exact ⟨rfl, rfl, rfl⟩
    | responder =>
      rw [hrole] at hstate
      cases hstate
  | _ => cases hstate

/-- A session that waits for the second or the third message is not a new one. -/
theorem init_state_ne : (Session.init (cfg.role i)).state ≠ .responderWaitM2 ∧
    (Session.init (cfg.role i)).state ≠ .initiatorWaitM3 := by
  cases cfg.role i <;> decide

theorem of_waitM2 (h : Phase cfg i t os) (hstate : t.state = .responderWaitM2) :
    cfg.role i = .responder ∧ t = .waitM2 (.session i) ∧ os = [] := by
  cases h with
  | fresh => exact absurd hstate init_state_ne.1
  | waitM2 hrole => exact ⟨hrole, rfl, rfl⟩
  | _ => cases hstate

theorem of_waitM3 (h : Phase cfg i t os) (hstate : t.state = .initiatorWaitM3) :
    cfg.role i = .initiator ∧ (∃ gA, t = .waitM3 (.session i) gA) ∧ os = [] := by
  cases h with
  | fresh => exact absurd hstate init_state_ne.2
  | @waitM3 gA hrole => exact ⟨hrole, ⟨gA, rfl⟩, rfl⟩
  | _ => cases hstate

end Phase

theorem KnownCmac.cons {cmacs : List Cmac} {c c' : Cmac} (h : KnownCmac cmacs c) :
    KnownCmac (c' :: cmacs) c :=
  h.imp_left (mem_cons_of_mem c')

theorem Convinced.mono {role : Role} {cmacs cmacs' : List Cmac} {macs macs' : List ReportMac}
    {p : Blob} (h : Convinced role cmacs macs i p e)
    (hcmacs : ∀ c, KnownCmac cmacs c → KnownCmac cmacs' c) (hmacs : ∀ m ∈ macs, m ∈ macs') :
    Convinced role cmacs' macs' i p e := by
  cases role with
  | initiator =>
    rcases h with ⟨r, prop, hr, hknown⟩ | ⟨t, hmem⟩
    · exact .inl ⟨r, prop, hr, hcmacs _ hknown⟩
    · exact .inr ⟨t, hmacs _ hmem⟩
  | responder =>
    rcases h with ⟨r, hr, hknown⟩ | ⟨ps, t, hmem⟩
    · exact .inl ⟨r, hr, hcmacs _ hknown⟩
    · exact .inr ⟨ps, t, hmacs _ hmem⟩

namespace Inv

variable {t : Session}

theorem init (cfg : Config) : Inv cfg (.init cfg) where
  phase _ := .fresh
  failed _ h := nomatch h
  cmacs _ h := nomatch h
  reports _ h := nomatch h
  accepted _ _ h := nomatch h

theorem failed_setSession (h : Inv cfg s) (hfailed : s.failed i = true → t = .cleared .error) (j : ℕ)
    (hj : s.failed j = true) : (s.setSession i t).session j = .cleared .error := by
  show update s.session i t j = _
  by_cases hji : j = i
  · subst hji
    rw [update_self]
    exact hfailed hj
  · rw [update_of_ne hji]
    exact h.failed j hj

/-- One session changes, and nothing is given out. -/
theorem setSession (h : Inv cfg s) (hphase : Phase cfg i t (s.outputs i))
    (hfailed : s.failed i = true → t = .cleared .error) : Inv cfg (s.setSession i t) where
  phase j := by
    show Phase cfg j (update s.session i t j) (s.outputs j)
    by_cases hj : j = i
    · subst hj
      rw [update_self]
      exact hphase
    · rw [update_of_ne hj]
      exact h.phase j
  failed := h.failed_setSession hfailed
  cmacs := h.cmacs
  reports := h.reports
  accepted := h.accepted

theorem fail (h : Inv cfg s) : Inv cfg (s.fail i (.cleared .error)) := by
  have h' := h.setSession (t := .cleared .error) (.error (h.phase i).length_le) fun _ => rfl
  refine ⟨h'.phase, fun j hj => ?_, h.cmacs, h.reports, h.accepted⟩
  by_cases hji : j = i
  · subst hji
    exact update_self (β := fun _ => Session) ..
  · have hj : update s.failed i true j = true := hj
    rw [update_of_ne hji] at hj
    exact h'.failed j hj

/-- More is made. -/
theorem learn {c : Cmac} {m : ReportMac} (h : Inv cfg s) (hc : MadeCmac cfg c)
    (hm : MadeReport cfg m) :
    Inv cfg { s with cmacs := c :: s.cmacs, reportMacs := m :: s.reportMacs } where
  phase := h.phase
  failed := h.failed
  cmacs c' hc' := by
    rcases mem_cons.mp hc' with rfl | hc'
    · exact hc
    · exact h.cmacs c' hc'
  reports m' hm' := by
    rcases mem_cons.mp hm' with rfl | hm'
    · exact hm
    · exact h.reports m' hm'
  accepted j o ho := by
    obtain ⟨haek, e, hid, hconvinced⟩ := h.accepted j o ho
    exact ⟨haek, e, hid, hconvinced.mono (fun _ => .cons) fun _ => mem_cons_of_mem m⟩

/-- A session that has given out nothing gives out a key. -/
theorem output {o : Output} (h : Inv cfg s) (hnil : s.outputs i = [])
    (ho : Accepted (cfg.role i) s.cmacs s.reportMacs i o) (ht : t = .cleared .error ∨ t = .cleared .active)
    (hfailed : s.failed i = true → t = .cleared .error) : Inv cfg ((s.setSession i t).output i o) := by
  have houtputs : update s.outputs i (o :: s.outputs i) i = [o] := by
    rw [update_self, hnil]
  refine ⟨fun j => ?_, fun j hj => ?_, h.cmacs, h.reports, fun j o' ho' => ?_⟩
  · by_cases hj : j = i
    · subst hj
      show Phase cfg j (update s.session j t j)
        (update s.outputs j (o :: s.outputs j) j)
      rw [houtputs, update_self]
      rcases ht with rfl | rfl
      · exact .error (Nat.le_refl 1)
      · exact .active
    · show Phase cfg j (update s.session i t j) (update s.outputs i _ j)
      rw [update_of_ne hj, update_of_ne hj]
      exact h.phase j
  · exact h.failed_setSession hfailed j hj
  · by_cases hj : j = i
    · subst hj
      have ho' : o' ∈ update s.outputs j (o :: s.outputs j) j := ho'
      rw [houtputs, mem_singleton] at ho'
      exact ho' ▸ ho
    · have ho' : o' ∈ update s.outputs i (o :: s.outputs i) j := ho'
      rw [update_of_ne hj] at ho'
      exact h.accepted j o' ho'

theorem not_failed (h : Inv cfg s) (hstate : (s.session i).state ≠ .error) : s.failed i = false := by
  refine Bool.eq_false_iff.mpr fun hfailed => hstate ?_
  rw [h.failed i hfailed]
  rfl

variable {f : Faults} {valid : Bool}

theorem genMsg1 (h : Inv cfg s) (hstep : step cfg (.genMsg1 i f valid) s = some s') :
    Inv cfg s' := by
  rw [step] at hstep
  rcases genMsg1_spec f (cfg.owner i) valid (s.session i) (.session i) with ⟨x, hcall⟩ | ⟨-, hstate, hcall⟩
  · rw [hcall] at hstep
    cases hstep
    exact h.fail
  · rw [hcall] at hstep
    cases hstep
    obtain ⟨hrole, ht, hnil⟩ := (h.phase i).of_reset hstate
    rw [ht]
    have hfailed := h.not_failed (i := i) (by rw [hstate]; decide)
    have h' := h.setSession (i := i) (t := .waitM2 (.session i)) (hnil ▸ .waitM2 hrole)
      fun hf => nomatch hfailed.symm.trans hf
    exact { h' with }

theorem procMsg1 {msg1 : Msg1} (h : Inv cfg s)
    (hstep : step cfg (.procMsg1 i f valid msg1) s = some s') : Inv cfg s' := by
  rw [step] at hstep
  rcases procMsg1_spec f (cfg.owner i) valid (s.session i) (cfg.version i) (.session i) msg1 with
    ⟨x, hcall⟩ | ⟨-, hstate, hcall⟩
  · rw [hcall] at hstep
    cases hstep
    exact h.fail
  · rw [hcall] at hstep
    cases hstep
    obtain ⟨hrole, ht, hnil⟩ := (h.phase i).of_waitM1 hstate
    rw [ht]
    have hfailed := h.not_failed (i := i) (by rw [hstate]; decide)
    have h' := h.setSession (i := i) (t := .waitM3 (.session i) msg1.gA) (hnil ▸ .waitM3 hrole)
      fun hf => nomatch hfailed.symm.trans hf
    -- what the message has made depends on the version
    have hmade : MadeCmac cfg
          (message2 (cfg.version i) f (cfg.owner i) msg1 (key i) ⟨dh (.session i) msg1.gA, .smk⟩).cmac ∧
        MadeReport cfg (message2 (cfg.version i) f (cfg.owner i) msg1 (key i)
          ⟨dh (.session i) msg1.gA, .smk⟩).report.mac := by
      cases cfg.version i with
      | v1 => exact ⟨.initiator1 hrole rfl, .initiator1 hrole⟩
      | v2 => exact ⟨.initiator2 hrole, (MadeReport.initiator2 hrole).orUnset⟩
    have h'' := h'.learn hmade.1 hmade.2
    exact { h'' with }

variable {msg2 : Msg2} {msg3 : Msg3}

/-- What has convinced the responder when it answers. -/
theorem convinced_of_answered {e : Identity}
    (ha : Answered f e (key i) ⟨dh (.session i) msg2.gB, .smk⟩ msg2 msg3)
    (hsha : msg2.report.data.protoSpec = none ∨ f .sha256 = none)
    (hcmac : KnownCmac s.cmacs msg2.cmac) (hmac : KnownReport s.reportMacs msg2.report.mac) :
    Convinced .responder s.cmacs s.reportMacs i msg2.gB msg2.report.identity := by
  cases ha with
  | v1 _ hc => exact .inl ⟨msg2.report, rfl, hc ▸ hcmac⟩
  | @v2 ps target prop hps hverify hc =>
    have hsha := hsha.resolve_left (by simp [hps])
    rw [hashOrZeros, if_pos hsha] at hverify
    rw [hverify] at hmac
    rcases hmac with hmem | hfalse
    · exact .inr ⟨ps, e.targetInfo, hmem⟩
    · exact hfalse.elim

theorem made_of_answered {p : Blob} (hrole : cfg.role i = .responder)
    (ha : Answered f (cfg.owner i) (key i) ⟨dh (.session i) p, .smk⟩ msg2 msg3) :
    MadeCmac cfg msg3.cmac ∧ MadeReport cfg msg3.report.mac := by
  cases ha with
  | v1 => exact ⟨.responder1 hrole rfl, .responder1 hrole⟩
  | v2 => exact ⟨.responder2 hrole, (MadeReport.responder2 hrole).orUnset⟩

theorem procMsg2 {prop : List UInt8} {buffer : EnclaveIdentity} (h : Inv cfg s)
    (hsha : msg2.report.data.protoSpec = none ∨ f .sha256 = none)
    (hstep : step cfg (.procMsg2 i f valid msg2 prop buffer) s = some s') : Inv cfg s' := by
  obtain ⟨⟨hcmac, hmac⟩, hstep⟩ := Option.ite_none_right_eq_some.mp hstep
  rcases procMsg2_spec cfg.interpret f (cfg.owner i) valid (s.session i) msg2 prop buffer with
    ⟨x, hcall⟩ | ⟨n, gA, msg3, o, -, hstate, hn, hgA, hanswered, haek, hid, hpeer, hcall⟩
  · rw [hcall] at hstep
    cases hstep
    exact h.fail
  · obtain ⟨hrole, ht, hnil⟩ := (h.phase i).of_waitM2 hstate
    rw [ht] at hn hgA
    cases hn
    cases hgA
    have hfailed := h.not_failed (i := i) (by rw [hstate]; decide)
    have hconvinced := convinced_of_answered hanswered hsha hcmac hmac
    have haccepted : Accepted (cfg.role i) s.cmacs s.reportMacs i o := by
      rw [hrole]
      refine ⟨?_, msg2.report.identity, hid, ?_⟩
      · rw [hpeer]
        exact haek
      · rw [hpeer]
        exact hconvinced
    rcases hcall with hcall | hcall
    · rw [hcall] at hstep
      cases hstep
      have h' := h.output hnil haccepted (.inr rfl) fun hf => nomatch hfailed.symm.trans hf
      obtain ⟨hc, hm⟩ := made_of_answered hrole hanswered
      have h'' := h'.learn hc hm
      exact { h'' with }
    · rw [hcall] at hstep
      cases hstep
      have h' := (h.output hnil haccepted (.inl rfl) fun _ => rfl).fail (i := i)
      -- the session is cleared twice, with the same value
      have hidem : update (update s.session i (.cleared .error)) i
          (.cleared .error) = update s.session i (.cleared .error) :=
        update_idem ..
      have hphase := h'.phase
      have hfail := h'.failed
      simp only [State.fail, State.setSession, State.output, hidem] at hphase hfail ⊢
      exact ⟨hphase, hfail, h.cmacs, h.reports, h'.accepted⟩

theorem procMsg3 (h : Inv cfg s) (hsha : cfg.version i = .v1 ∨ f .sha256 = none)
    (hstep : step cfg (.procMsg3 i f valid msg3) s = some s') :
    Inv cfg s' := by
  obtain ⟨⟨hcmac, hmac⟩, hstep⟩ := Option.ite_none_right_eq_some.mp hstep
  rcases procMsg3_spec f (cfg.owner i) valid (s.session i) (cfg.version i) msg3 with
    ⟨x, hcall⟩ | ⟨gB, gA, smk, secret, o, -, hstate, hgB, hgA, hsmk, hsecret, hconfirmed, haek, hid,
      hpeer, hcall⟩
  · rw [hcall] at hstep
    cases hstep
    exact h.fail
  · rw [hcall] at hstep
    cases hstep
    obtain ⟨hrole, ⟨gA', ht⟩, hnil⟩ := (h.phase i).of_waitM3 hstate
    rw [ht] at hgB hgA hsmk hsecret
    cases hgB
    cases hgA
    cases hsmk
    cases hsecret
    have hfailed := h.not_failed (i := i) (by rw [hstate]; decide)
    refine h.output hnil ⟨?_, msg3.report.identity, hid, ?_⟩ (.inr rfl)
      fun hf => nomatch hfailed.symm.trans hf
    · rw [hpeer]
      exact haek
    · rw [hpeer, hrole]
      obtain ⟨hverify, hrest⟩ := hconfirmed
      have hverify : msg3.report.mac
          = .mac msg3.report.identity msg3.report.data (cfg.owner i).targetInfo := hverify
      cases hv : cfg.version i with
      | v1 =>
        rw [hv] at hrest
        -- the peer has made the CMAC of this report
        exact .inl ⟨msg3.report, msg3.prop, rfl, hrest.1 ▸ hcmac⟩
      | v2 =>
        rw [hv] at hrest hsha
        -- the peer has made the report, whose data is the hash of `g_a` and the protocol
        have hsha := hsha.resolve_left (by simp)
        rw [hrest.1, hashOrZeros, if_pos hsha] at hverify
        rw [hverify] at hmac
        rcases hmac with hmem | hfalse
        · exact .inr ⟨(cfg.owner i).targetInfo, hmem⟩
        · exact hfalse.elim

theorem step {a : Action} (h : Inv cfg s) (hproper : Proper cfg s a)
    (hstep : step cfg a s = some s') : Inv cfg s' := by
  cases a with
  | genMsg1 => exact h.genMsg1 hstep
  | procMsg1 => exact h.procMsg1 hstep
  | procMsg2 => exact h.procMsg2 hproper hstep
  | procMsg3 => exact h.procMsg3 hproper hstep
  | report e target data =>
    cases hstep
    refine ⟨h.phase, h.failed, h.cmacs, fun m hm => ?_, fun j o ho => ?_⟩
    · rcases mem_cons.mp hm with rfl | hm
      · exact .outside hproper
      · exact h.reports m hm
    · obtain ⟨haek, e', hid, hconvinced⟩ := h.accepted j o ho
      exact ⟨haek, e', hid, hconvinced.mono (fun _ => id) fun _ => mem_cons_of_mem _⟩

end Inv

/-! ### Sessions that are left alone -/

/-- The actions of two sessions whose messages arrive as they were sent. -/
def exchange (i j : ℕ) (m1 : Msg1) (m2 : Msg2) (m3 : Msg3) (prop : List UInt8)
    (buffer : EnclaveIdentity) : List Action :=
  [.genMsg1 j noFaults true, .procMsg1 i noFaults true m1,
    .procMsg2 j noFaults true m2 prop buffer, .procMsg3 i noFaults true m3]

theorem exchange_succeeds (hij : i ≠ j) (hi : s.session i = .init .initiator)
    (hj : s.session j = .init .responder) (prop : List UInt8) (buffer : EnclaveIdentity) :
    ∃ m1 m2 m3 s', run (only (Proper cfg) (step cfg)) (exchange i j m1 m2 m3 prop buffer) s = some s' ∧
      s'.msg1 j = some m1 ∧ s'.msg2 i = some m2 ∧ s'.msg3 j = some m3 ∧
      (s'.session i).state = .active ∧ (s'.session j).state = .active ∧
      ∃ oi ∈ s'.outputs i, ∃ oj ∈ s'.outputs j, oi.aek = oj.aek := by
  -- the messages, and the states after each of the four calls
  let m1 : Msg1 := ⟨key j, (cfg.owner j).targetInfo⟩
  let smk : Key := ⟨dh (.session i) (key j), .smk⟩
  let m2 := message2 (cfg.version i) noFaults (cfg.owner i) m1 (key i) smk
  let m3 := message3 (cfg.version i) (cfg.owner j) (cfg.owner i) (key j) (key i) smk prop
  let s1 := s.sendMsg1 j (.waitM2 (.session j)) m1
  let s2 := s1.sendMsg2 i (.waitM3 (.session i) (key j)) m2
  let oj := outputOfMsg2 (dh (.session j) m2.gB) m2 buffer
  let s3 := (s2.sendMsg3 j (.cleared .active) m3).output j oj
  let oi := outputOfMsg3 (dh (.session i) (key j)) (key j) m3
  let s4 := (s3.setSession i (.cleared .active)).output i oi
  have hgB : m2.gB = key i := message2_gB
  -- both sides derive the same keys
  have hsmk : (⟨dh (.session j) m2.gB, .smk⟩ : Key) = smk := by
    rw [hgB, dh_comm]
  have hstep1 : step cfg (.genMsg1 j noFaults true) s = some s1 := by
    rw [step, hj, genMsg1_noFaults]
  have hi1 : s1.session i = .init .initiator := (update_of_ne hij ..).trans hi
  have hstep2 : step cfg (.procMsg1 i noFaults true m1) s1 = some s2 := by
    rw [step, hi1, procMsg1_noFaults]
  have hj2 : s2.session j = .waitM2 (.session j) :=
    (update_of_ne hij.symm ..).trans (update_self ..)
  have hstep3 : step cfg (.procMsg2 j noFaults true m2 prop buffer) s2 = some s3 := by
    have hanswer : verifyAndAnswer cfg.interpret noFaults (cfg.owner j) m2 (key j)
        ⟨dh (.session j) m2.gB, .smk⟩ prop = .ok m3 := by
      rw [hsmk]
      exact verifyAndAnswer_noFaults
    rw [step, if_pos ⟨.inl mem_cons_self, .inl mem_cons_self⟩, hj2,
      procMsg2_noFaults hanswer]
  have hi3 : s3.session i = .waitM3 (.session i) (key j) :=
    (update_of_ne hij ..).trans (update_self ..)
  have hstep4 : step cfg (.procMsg3 i noFaults true m3) s3 = some s4 := by
    rw [step, if_pos ⟨.inl mem_cons_self, .inl mem_cons_self⟩, hi3,
      procMsg3_noFaults verifyMessage3_noFaults]
  refine ⟨m1, m2, m3, s4, ?_, ?_, ?_, ?_, ?_, ?_, oi, ?_, oj, ?_, ?_⟩
  · refine run_cons.mpr ⟨s1, only_eq_some.mpr ⟨trivial, hstep1⟩, ?_⟩
    refine run_cons.mpr ⟨s2, only_eq_some.mpr ⟨trivial, hstep2⟩, ?_⟩
    refine run_cons.mpr ⟨s3, only_eq_some.mpr ⟨.inr rfl, hstep3⟩, ?_⟩
    exact run_cons.mpr ⟨s4, only_eq_some.mpr ⟨.inr rfl, hstep4⟩, rfl⟩
  · exact update_self ..
  · exact update_self ..
  · exact update_self ..
  · exact congrArg Session.state (update_self (β := fun _ => Session) ..)
  · have hj4 : s4.session j = .cleared .active :=
      (update_of_ne hij.symm ..).trans (update_self ..)
    rw [hj4]
    rfl
  · show oi ∈ update s3.outputs i (oi :: s3.outputs i) i
    rw [update_self]
    exact mem_cons_self
  · show oj ∈ update s3.outputs i (oi :: s3.outputs i) j
    rw [update_of_ne hij.symm]
    show oj ∈ update s2.outputs j (oj :: s2.outputs j) j
    rw [update_self]
    exact mem_cons_self
  · show (⟨dh (.session i) (key j), .aek⟩ : Key) = ⟨dh (.session j) m2.gB, .aek⟩
    rw [hgB, dh_comm]

/-! ### Runs -/

theorem inv_of_run {as : List Action}
    (hrun : run (only (Proper cfg) (step cfg)) as (.init cfg) = some s) : Inv cfg s := by
  refine invariant_of_run (I := Inv cfg) ?_ hrun (Inv.init cfg)
  intro a s s' h hstep
  obtain ⟨hproper, hstep⟩ := only_eq_some.mp hstep
  exact h.step hproper hstep

/-- **Agreement.**  An initiator and a responder that are active with the same key have used each
other's public key and have the identity of each other's enclave.  A session gives out one key
at most, and keeps no secret after that or after an error.  Two new sessions whose messages arrive
become active with the same key. -/
theorem sessions_agree {as : List Action}
    (hrun : run (only (Proper cfg) (step cfg)) as (.init cfg) = some s) :
    (∀ i j, cfg.role i = .initiator → cfg.role j = .responder →
      (s.session i).state = .active → (s.session j).state = .active →
      ∀ oi ∈ s.outputs i, ∀ oj ∈ s.outputs j, oi.aek = oj.aek →
        oi.identity.IsOf (cfg.owner j) ∧ oj.identity.IsOf (cfg.owner i) ∧ oi.peerKey = key j ∧
          oj.peerKey = key i) ∧
      (∀ i, (s.outputs i).length ≤ 1 ∧
        (s.outputs i ≠ [] ∨ s.failed i = true → (s.session i).Clean)) ∧
      ∀ i j, s.session i = .init .initiator → s.session j = .init .responder → ∀ prop buffer,
        ∃ m1 m2 m3 s', run (only (Proper cfg) (step cfg)) (exchange i j m1 m2 m3 prop buffer) s = some s' ∧
          s'.msg1 j = some m1 ∧ s'.msg2 i = some m2 ∧ s'.msg3 j = some m3 ∧
          (s'.session i).state = .active ∧ (s'.session j).state = .active ∧
          ∃ oi ∈ s'.outputs i, ∃ oj ∈ s'.outputs j, oi.aek = oj.aek := by
  have h := inv_of_run hrun
  refine ⟨fun i j hi hj _ _ oi hoi oj hoj haek => h.agree hi hj hoi hoj haek,
    fun i => ⟨(h.phase i).length_le, fun hdone => ?_⟩, fun i j hi hj => ?_⟩
  · have hphase := h.phase i
    rcases hdone with houtputs | hfailed
    · generalize s.session i = t at hphase
      generalize s.outputs i = os at hphase houtputs
      cases hphase with
      | fresh | waitM2 | waitM3 => exact absurd rfl houtputs
      | error | active => exact Session.cleared_clean _
    · rw [h.failed i hfailed]
      exact Session.cleared_clean _
  · refine exchange_succeeds ?_ hi hj
    rintro rfl
    exact nomatch hi.symm.trans hj

/-! ### Two enclaves and a third one -/

def enclave (n : ℕ) : Identity := ⟨0, 0, 0, 0, n, n, 0, 0, 0, 0⟩

/-- Session 0 is an initiator of the second version, session 1 a responder. -/
def pair : Config where
  owner := enclave
  role i := if i = 0 then .initiator else .responder
  version _ := .v2
  interpret _ _ := .error .unexpected

def noIdentity : EnclaveIdentity := ⟨0, 0, 0, 0, 0, 0, 0⟩

def firstMsg : Msg1 := ⟨key 1, (enclave 1).targetInfo⟩

def pairKey : Key := ⟨dh (.session 0) (key 1), .smk⟩

/-- The messages arrive; a third enclave makes a report for something else. -/
def undisturbed : List Action :=
  .report (enclave 7) (enclave 1).targetInfo (.other 0) ::
    exchange 0 1 firstMsg (message2 .v2 noFaults (enclave 0) firstMsg (key 0) pairKey)
      (message3 .v2 (enclave 1) (enclave 0) (key 1) (key 0) pairKey []) [] noIdentity

theorem sessions_agree_undisturbed :
    ∃ s, run (only (Proper pair) (step pair)) undisturbed (.init pair) = some s ∧
      (s.session 0).state = .active ∧ (s.session 1).state = .active ∧
      ∀ oi ∈ s.outputs 0, ∀ oj ∈ s.outputs 1, oi.aek = oj.aek →
        oi.identity.IsOf (enclave 1) ∧ oj.identity.IsOf (enclave 0) ∧ oi.peerKey = key 1 ∧
          oj.peerKey = key 0 := by
  have hstates : (run (only (Proper pair) (step pair)) undisturbed (.init pair)).map
      (fun s => ((s.session 0).state, (s.session 1).state)) = some (.active, .active) := by decide
  obtain ⟨s, hrun, hs⟩ := Option.map_eq_some_iff.mp hstates
  have h0 := congrArg Prod.fst hs
  have h1 := congrArg Prod.snd hs
  exact ⟨s, hrun, h0, h1, (sessions_agree hrun).1 0 1 rfl rfl h0 h1⟩

/-- The report of the enclave 7 for `target` on the digest of the two values. -/
def thirdReport (target : ℕ) (first second : Blob) : Report :=
  createReport (enclave 7) (enclave target).targetInfo (.digest first second 0)

/-- The reports of the second and of the third message are replaced; the MACs do not cover them. -/
def replaced : List Action :=
  let second := thirdReport 1 (.spec lav2ProtoSpec) (key 0)
  let third := thirdReport 0 (key 1) (.spec lav2ProtoSpec)
  [.genMsg1 1 noFaults true, .procMsg1 0 noFaults true firstMsg,
    .report (enclave 7) (enclave 1).targetInfo second.data,
    .procMsg2 1 noFaults true
      ⟨key 0, { second with data := .spec lav2ProtoSpec }, .cmac pairKey (.point [] (key 0))⟩ []
      noIdentity,
    .report (enclave 7) (enclave 0).targetInfo third.data,
    .procMsg3 0 noFaults true ⟨.cmac pairKey (.point [] (key 1)), third, []⟩]

/-- What session `i` gives out for its exchange with session `j`. -/
def thirdOutput (i j : ℕ) : Output :=
  ⟨⟨dh (.session i) (key j), .aek⟩, ⟨0, 0, 0, 7, 7, 0, 0⟩, key j⟩

/-- **A third enclave as the peer of both.**  Two active sessions of the second version have the same
key, and each one's peer is the enclave 7, which runs none of them. -/
theorem misbound :
    ∃ s, run (step pair) replaced (.init pair) = some s ∧ (s.session 0).state = .active ∧
      (s.session 1).state = .active ∧ ∃ oi ∈ s.outputs 0, ∃ oj ∈ s.outputs 1, oi.aek = oj.aek ∧
        oi.identity.mrEnclave = 7 ∧ oj.identity.mrEnclave = 7 ∧ pair.owner 0 ≠ enclave 7 ∧
        pair.owner 1 ≠ enclave 7 := by
  have hend : (run (step pair) replaced (.init pair)).map
      (fun s => (((s.session 0).state, (s.session 1).state), s.outputs 0, s.outputs 1))
        = some ((.active, .active), [thirdOutput 0 1], [thirdOutput 1 0]) := by decide
  obtain ⟨s, hrun, hs⟩ := Option.map_eq_some_iff.mp hend
  have hstates := congrArg Prod.fst hs
  have h0 : s.outputs 0 = [thirdOutput 0 1] := congrArg (fun x => x.2.1) hs
  have h1 : s.outputs 1 = [thirdOutput 1 0] := congrArg (fun x => x.2.2) hs
  refine ⟨s, hrun, congrArg Prod.fst hstates, congrArg Prod.snd hstates, thirdOutput 0 1, ?_,
    thirdOutput 1 0, ?_, rfl, rfl, rfl, by decide, by decide⟩
  · rw [h0]
    exact mem_singleton_self _
  · rw [h1]
    exact mem_singleton_self _

end LocalAttest
