/-
How often a master key is used (`derive_random_node_key`).

The keys of the nodes are derived from the master key of the session, each with a random nonce.  The
master key is renewed when its counter is above `MAX_MASTER_KEY_USAGES`; the counter is compared
before it is incremented, and the derivation that follows a renewal is not counted.

* **`uses_bounded`** — no master key is used too often, if it is not used at the last moment, and the
  random values are new;
* `used_too_often` — the first master key, if no call fails.
-/
import LinuxSgx.Lib.Runs
import LinuxSgx.ProtectedFs.Runs

namespace ProtectedFs.MasterKey

open Prog Runs List

variable {C T : Type} {cr : Crypto C T} {s : St C T} {n : ℕ}

/-- What a node key is derived from. -/
structure Use where
  key : Key
  nodeNumber : ℕ
  nonce : BitVec 128
  deriving DecidableEq

/-- A session, whether its master key is not the first one, the uses of its master keys, and the
random values that were drawn for the derivations. -/
structure Ledger (C T : Type) where
  st : St C T
  renewed : Bool
  uses : List Use
  drawn : List (BitVec 128)

/-- How often a master key has been used. -/
def Ledger.count (w : Ledger C T) (key : Key) : ℕ := w.uses.countP (·.key = key)

inductive Event (C T : Type) where
  | derive (nodeNumber : ℕ)
  /-- The rest of the session, which leaves the master key and its counter alone. -/
  | rest (st : St C T)

/-- The nonce that `generate_secure_blob` draws at time `t`. -/
def nonceAt (s : St C T) (t : ℕ) : BitVec 128 := (s.outcome t).rand.setWidth 128

/-- Its two calls succeed. -/
def granted (s : St C T) : Bool :=
  (s.outcome s.clock).fault.isNone && (s.outcome (s.clock + 1)).fault.isNone

/-- The key that it makes. -/
def blob (cr : Crypto C T) (s : St C T) (key : Key) (label : KdfLabel) (nodeNumber : ℕ) : Key :=
  cr.cmac key ⟨label, nodeNumber, (nonceAt s s.clock).setWidth 256⟩

/-- A derivation starts with a new master key. -/
def renews (s : St C T) : Bool := s.file.masterKeyCount > maxMasterKeyUsages && granted s

/-- When a derivation calls the random generator, for a new master key and for the key of the node. -/
def drawTimes (s : St C T) : List ℕ := if renews s then [s.clock, s.clock + 2] else [s.clock]

/-- The random values that a derivation gets. -/
def draws (s : St C T) : List (BitVec 128) :=
  ((drawTimes s).filter fun t => (s.outcome t).fault.isNone).map (nonceAt s)

def step (cr : Crypto C T) : Event C T → Ledger C T → Option (Ledger C T)
  | .derive n, w => do
    let (ok, st) ← deriveRandomNodeKey cr n w.st
    let nonce := nonceAt w.st (if renews w.st then w.st.clock + 2 else w.st.clock)
    some ⟨st, w.renewed || renews w.st,
      if ok then ⟨st.file.sessionMasterKey, n, nonce⟩ :: w.uses else w.uses, draws w.st ++ w.drawn⟩
  | .rest st, w => some { w with st := { st with file := { st.file with
      sessionMasterKey := w.st.file.sessionMasterKey
      masterKeyCount := w.st.file.masterKeyCount } } }

/-- A derivation that succeeds finds the counter below the bound, with one use to spare if the key was
renewed; it gets a random value that was not drawn before, and a new master key is new; and the
counter does not wrap around. -/
def Careful (cr : Crypto C T) (w : Ledger C T) : Event C T → Prop
  | .derive _ =>
    if w.st.file.masterKeyCount ≤ maxMasterKeyUsages then
      granted w.st → w.st.file.masterKeyCount + w.renewed.toNat < maxMasterKeyUsages ∧
        nonceAt w.st w.st.clock ∉ w.drawn
    else w.st.file.masterKeyCount + 1 < 2 ^ 32 ∧
      (granted w.st → ∀ u ∈ w.uses, u.key ≠ blob cr w.st 0 .masterKey 0)
  | .rest _ => True

instance (w : Ledger C T) (e : Event C T) : Decidable (Careful cr w e) := by
  cases e <;> unfold Careful <;> infer_instance

/-! ### The calls -/

/-- The master key, its counter and the answers to come are the same. -/
structure Same (s s' : St C T) : Prop where
  key : s'.file.sessionMasterKey = s.file.sessionMasterKey
  count : s'.file.masterKeyCount = s.file.masterKeyCount
  outcome : s'.outcome = s.outcome

theorem spec_generateSecureBlob (key : Key) (label : KdfLabel) :
    wp False (generateSecureBlob cr key label n) (fun r s' => Same s s' ∧
      (granted s → s'.clock = s.clock + 2) ∧
      r = if granted s then some (blob cr s key label n) else none) s := by
  simp only [generateSecureBlob, readRand, cryptoCall, call, nextOutcome, wp_bind, wp_get, wp_set,
    wp_pure]
  cases h₀ : (s.outcome s.clock).fault with
  | some f => exact ⟨⟨rfl, rfl, rfl⟩, by simp [granted, h₀], by simp [granted, h₀]⟩
  | none =>
    simp only [wp_bind, wp_get, wp_set, wp_pure]
    cases h₁ : (s.outcome (s.clock + 1)).fault with
    | some f => exact ⟨⟨rfl, rfl, rfl⟩, by simp [granted, h₁], by simp [granted, h₁]⟩
    | none => exact ⟨⟨rfl, rfl, rfl⟩, fun _ => rfl, by simp [granted, h₀, h₁, blob, nonceAt]⟩

/-- What a derivation does, with a renewal and without one. -/
theorem spec_deriveRandomNodeKey :
    wp False (deriveRandomNodeKey cr n) (fun ok s' => s'.outcome = s.outcome ∧
      (renews s → s'.file.sessionMasterKey = blob cr s 0 .masterKey 0 ∧ s'.file.masterKeyCount = 0 ∧
        (ok = true → (s.outcome (s.clock + 2)).fault.isNone = true)) ∧
      (¬renews s → s'.file.sessionMasterKey = s.file.sessionMasterKey ∧
        s'.file.masterKeyCount = (s.file.masterKeyCount + 1) % 2 ^ 32 ∧
        (ok = true ↔ s.file.masterKeyCount ≤ maxMasterKeyUsages ∧ granted s = true))) s := by
  rw [deriveRandomNodeKey, wp_bind, wp_get, wp_bind, wp_modify, wp_ite]
  refine ⟨fun hgt => ?_, fun hle => ?_⟩
  · rw [wp_bind, initSessionMasterKey, wp_bind]
    refine wp_mono (spec_generateSecureBlob 0 .masterKey) ?_
    rintro r s₁ ⟨h₁, hclock, rfl⟩
    by_cases hg : granted s = true
    · rw [if_pos (by exact hg)]
      simp only [wp_bind, wp_modify, wp_pure, wp_get, if_true]
      refine wp_mono (spec_generateSecureBlob _ .randomKey) ?_
      rintro (_ | k) s₂ ⟨h₂, -, hk⟩
      · exact ⟨h₂.outcome.trans h₁.outcome, fun _ => ⟨h₂.key, h₂.count, by simp⟩,
          by simp [renews, hgt, hg]⟩
      · refine ⟨h₂.outcome.trans h₁.outcome, fun _ => ⟨h₂.key, h₂.count, fun _ => ?_⟩,
          by simp [renews, hgt, hg]⟩
        -- the second draw is the one for the node
        obtain ⟨hgranted, -⟩ := Option.ite_none_right_eq_some.mp hk.symm
        rw [← h₁.outcome, ← hclock hg]
        exact (Bool.and_eq_true_iff.mp hgranted).1
    · rw [if_neg (by exact hg)]
      exact ⟨h₁.outcome, by simp [renews, hg], fun _ => ⟨h₁.key, h₁.count, by simp [hg]⟩⟩
  · simp only [wp_bind, wp_pure, wp_get, if_true]
    refine wp_mono (spec_generateSecureBlob _ .randomKey) ?_
    rintro r s₁ ⟨h₁, -, rfl⟩
    by_cases hg : granted s = true
    · rw [if_pos (by exact hg)]
      exact ⟨h₁.outcome, by simp [renews, hle], fun _ => ⟨h₁.key, h₁.count, by simp [hg, not_lt.mp hle]⟩⟩
    · rw [if_neg (by exact hg)]
      exact ⟨h₁.outcome, by simp [renews, hg], fun _ => ⟨h₁.key, h₁.count, by simp [hg]⟩⟩

/-! ### The bound -/

structure Inv (w : Ledger C T) : Prop where
  nodup : w.uses.Nodup
  nonces : ∀ u ∈ w.uses, u.nonce ∈ w.drawn
  bound : ∀ key, w.count key ≤ maxMasterKeyUsages
  current : w.count w.st.file.sessionMasterKey ≤ w.st.file.masterKeyCount + w.renewed.toNat

theorem Inv.derived {w : Ledger C T} (h : Inv w) {renewed ok : Bool} {nonce : BitVec 128}
    {drawn : List (BitVec 128)}
    (hle : w.count s.file.sessionMasterKey + ok.toNat ≤ s.file.masterKeyCount + renewed.toNat)
    (hok : ok = true → ⟨s.file.sessionMasterKey, n, nonce⟩ ∉ w.uses ∧ nonce ∈ drawn ∧
      w.count s.file.sessionMasterKey < maxMasterKeyUsages) :
    Inv ⟨s, renewed, if ok then ⟨s.file.sessionMasterKey, n, nonce⟩ :: w.uses else w.uses,
      drawn ++ w.drawn⟩ := by
  have hbefore : ∀ u ∈ w.uses, u.nonce ∈ drawn ++ w.drawn :=
    fun u hu => mem_append_right _ (h.nonces u hu)
  cases ok with
  | false => exact ⟨h.nodup, hbefore, h.bound, hle⟩
  | true =>
    obtain ⟨hnew, hdrawn, hlt⟩ := hok rfl
    refine ⟨nodup_cons.mpr ⟨hnew, h.nodup⟩, forall_mem_cons.mpr ⟨mem_append_left _ hdrawn, hbefore⟩,
      fun key => ?_, ?_⟩
    · have := h.bound key
      by_cases hkey : s.file.sessionMasterKey = key
      · subst hkey
        simpa [Ledger.count, countP_cons] using hlt
      · simpa [Ledger.count, countP_cons, hkey] using this
    · simpa [Ledger.count, countP_cons] using hle

theorem inv_derive {w w' : Ledger C T} (h : Inv w) (hcareful : Careful cr w (.derive n))
    (hstep : step cr (.derive n) w = some w') : Inv w' := by
  obtain ⟨⟨ok, st⟩, hrun, hw'⟩ := Option.bind_eq_some_iff.mp hstep
  cases hw'
  obtain ⟨-, hnew, hold⟩ := (wp_of_run hrun).mp spec_deriveRandomNodeKey
  rw [Careful] at hcareful
  have hcurrent := h.current
  by_cases hr : renews w.st = true
  · -- nothing has been derived from the new master key
    obtain ⟨hkey, hcount, hread⟩ := hnew hr
    have hdrawn : ok = true → nonceAt w.st (w.st.clock + 2) ∈ draws w.st := fun hok =>
      List.mem_map_of_mem (mem_filter.mpr ⟨by simp [drawTimes, hr], hread hok⟩)
    simp only [renews, gt_iff_lt, Bool.and_eq_true, decide_eq_true_eq] at hr
    rw [if_neg (not_le.mpr hr.1)] at hcareful
    have hfresh := hkey ▸ hcareful.2 hr.2
    have hzero : w.count st.file.sessionMasterKey = 0 := by
      simpa [Ledger.count, countP_eq_zero] using hfresh
    refine h.derived ?_ fun hok => ⟨fun hmem => hfresh _ hmem rfl, ?_, by rw [hzero]; decide⟩
    · have := Bool.toNat_le ok
      simp only [hzero, hcount, renews, hr, decide_true, Bool.and_true, Bool.or_true,
        Bool.toNat_true]
      omega
    · rw [if_pos (by simp [renews, hr])]
      exact hdrawn hok
  · obtain ⟨hkey, hcount, hok⟩ := hold hr
    have hwrap : st.file.masterKeyCount = w.st.file.masterKeyCount + 1 := by
      rw [hcount, Nat.mod_eq_of_lt]
      unfold maxMasterKeyUsages at hcareful
      split_ifs at hcareful <;> omega
    refine h.derived ?_ fun hok' => ?_
    · have := Bool.toNat_le ok
      simp only [hkey, hwrap, hr, Bool.or_false]
      omega
    · obtain ⟨hle, hg⟩ := hok.mp hok'
      rw [if_pos hle] at hcareful
      obtain ⟨hlt, hnonce⟩ := hcareful hg
      have hread : (w.st.outcome w.st.clock).fault.isNone = true := (Bool.and_eq_true_iff.mp hg).1
      rw [hkey, if_neg hr]
      refine ⟨fun hmem => hnonce (h.nonces _ hmem), ?_, by omega⟩
      exact List.mem_map_of_mem (mem_filter.mpr ⟨by simp [drawTimes, hr], hread⟩)

/-- **The uses of master keys.**  In every run of a session whose derivations are careful, no master key
is used more than `MAX_MASTER_KEY_USAGES` times, and nothing is derived twice from the same input. -/
theorem uses_bounded {l : List (Event C T)} {w : Ledger C T}
    (hrun : run (only (Careful cr) (step cr)) l ⟨s, false, [], []⟩ = some w) :
    w.uses.Nodup ∧ ∀ key, w.count key ≤ maxMasterKeyUsages := by
  have hinv : Inv w := by
    refine invariant_of_run (fun e w w' h hstep => ?_) hrun
      ⟨nodup_nil, nofun, fun _ => Nat.zero_le _, Nat.zero_le _⟩
    obtain ⟨hcareful, hstep⟩ := only_eq_some.mp hstep
    cases e with
    | derive n => exact inv_derive h hcareful hstep
    | rest st =>
      cases hstep
      exact ⟨h.nodup, h.nonces, h.bound, h.current⟩
  exact ⟨hinv.nodup, hinv.bound⟩

/-- A session with its first master key, in which no call fails; the `t`-th random value is `t`. -/
def fortunate : St (Key × Payload) Key :=
  let s := .initial ⟨false, 0, default, default, none⟩ fun t => ⟨none, true, none, t⟩
  ((initSessionMasterKey Crypto.transparent s).getD (false, s)).2

theorem uses_bounded_twice :
    ∃ w, run (only (Careful Crypto.transparent) (step Crypto.transparent)) [.derive 1, .derive 1]
        ⟨fortunate, false, [], []⟩ = some w ∧ w.uses.length = 2 ∧ w.uses.Nodup ∧
      ∀ key, w.count key ≤ maxMasterKeyUsages :=
  ⟨_, rfl, rfl, uses_bounded (s := fortunate) (l := [.derive 1, .derive 1]) rfl⟩

/-- As long as the counter is not above the bound, the first master key is used. -/
theorem run_derive (hn : n ≤ maxMasterKeyUsages + 1) :
    ∃ w, run (step Crypto.transparent) (replicate n (.derive 0)) ⟨fortunate, false, [], []⟩ = some w ∧
      w.st.outcome = fortunate.outcome ∧ w.st.file.masterKeyCount = n ∧
      w.uses.length = n ∧ ∀ u ∈ w.uses, u.key = w.st.file.sessionMasterKey := by
  induction n with
  | zero => exact ⟨_, rfl, rfl, rfl, rfl, nofun⟩
  | succ n ih =>
    obtain ⟨w, hrun, hout, hcount, hlen, hkeys⟩ := ih (by omega)
    obtain ⟨ok, st, hderive, hout', -, hold⟩ :=
      wp_false_iff.mp (@spec_deriveRandomNodeKey _ _ Crypto.transparent w.st 0)
    have hg : granted w.st = true := by
      rw [granted, hout]
      rfl
    obtain ⟨hkey, hcount', hok⟩ := hold (by simp [renews, hcount]; omega)
    obtain rfl := hok.mpr ⟨by omega, hg⟩
    have hstep : step Crypto.transparent (.derive 0) w = some ⟨st, _, _, _⟩ :=
      congrArg (Option.bind · _) hderive
    refine ⟨_, replicate_succ' ▸ run_concat.mpr ⟨w, hrun, hstep⟩, hout'.trans hout, ?_,
      congrArg (· + 1) hlen, by simpa [hkey] using hkeys⟩
    rw [hcount', hcount, Nat.mod_eq_of_lt]
    unfold maxMasterKeyUsages at hn
    omega

/-- The first master key is used once more than it should be. -/
theorem used_too_often :
    ∃ l w key, run (step Crypto.transparent) l ⟨fortunate, false, [], []⟩ = some w ∧
      maxMasterKeyUsages < w.count key := by
  obtain ⟨w, hrun, -, -, hlen, hkeys⟩ := run_derive le_rfl
  refine ⟨_, w, w.st.file.sessionMasterKey, hrun, ?_⟩
  rw [Ledger.count, countP_eq_length.mpr fun u hu => decide_eq_true (hkeys u hu), hlen]
  exact Nat.lt_succ_self _

end ProtectedFs.MasterKey
