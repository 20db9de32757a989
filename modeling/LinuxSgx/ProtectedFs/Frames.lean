/-
What a flush leaves alone.

Writing back a dirty file changes marks, ciphertexts, slots, keys and the store, but neither the
position nor the size nor the end-of-file mark: `Still`.  The relation is a preorder, and every
function of `Flush.lean` keeps it (`still_internalFlush`), whatever the state it starts from and
whatever the outcomes of its calls.
-/
import LinuxSgx.ProtectedFs.Runs

namespace ProtectedFs

open Prog

variable {C T : Type}

/-- The position, the size and the end-of-file mark are the same. -/
structure Still (s s' : St C T) : Prop where
  offset : s'.file.offset = s.file.offset
  size : s'.file.encryptedPartPlain.size = s.file.encryptedPartPlain.size
  endOfFile : s'.file.endOfFile = s.file.endOfFile

instance : Std.Refl (Still (C := C) (T := T)) := ⟨fun _ => ⟨rfl, rfl, rfl⟩⟩

instance : IsTrans (St C T) Still :=
  ⟨fun _ _ _ h h' => ⟨h'.offset.trans h.offset, h'.size.trans h.size,
    h'.endOfFile.trans h.endOfFile⟩⟩

-- the rules of `Keeps` follow the constructs, so that `simp` goes through a program on its own
attribute [simp] keeps_pure keeps_get keeps_failure keeps_modify_iff keeps_map_iff keeps_ite_iff
  keeps_bind keeps_bind_option keeps_forAll

@[simp] theorem still_iff {s s' : St C T} : Still s s' ↔ s'.file.offset = s.file.offset ∧
    s'.file.encryptedPartPlain.size = s.file.encryptedPartPlain.size ∧
    s'.file.endOfFile = s.file.endOfFile :=
  ⟨fun h => ⟨h.offset, h.size, h.endOfFile⟩, fun h => ⟨h.1, h.2.1, h.2.2⟩⟩

/-! ### Primitive operations -/

section Primitive

variable {R : St C T → St C T → Prop}

/-- Reading a node object changes nothing. -/
@[simp] theorem keeps_deref [Std.Refl R] (a : Addr) : Keeps R (deref a : M C T _) := by
  intro s
  simp only [deref, wp_bind, wp_get]
  cases s.heap a with
  | none => trivial
  | some nd => exact Std.Refl.refl (r := R) s

@[simp] theorem keeps_derefMht [Std.Refl R] (p : MhtPtr) : Keeps R (derefMht p : M C T _) := by
  cases p with
  | root => exact fun s => Std.Refl.refl (r := R) s
  | addr a => exact keeps_deref a

@[simp] theorem still_call : Keeps Still (call : M C T _) := fun _ => ⟨rfl, rfl, rfl⟩

@[simp] theorem still_callEffect (e : Effect C T) : Keeps Still (callEffect e) :=
  keeps_bind (fun _ => ⟨rfl, rfl, rfl⟩) fun _ => by simp [emit]

@[simp] theorem still_setLastError (e : ErrorCode) : Keeps Still (setLastError e : M C T _) := by
  simp [setLastError]

@[simp] theorem still_setFileStatus (st : FileStatus) : Keeps Still (setFileStatus st : M C T _) := by
  simp [setFileStatus]

@[simp] theorem still_modifyMht (p : MhtPtr) (f : FileNode C T → FileNode C T) :
    Keeps Still (modifyMht p f) := by
  cases p with
  | root | addr => simp [modifyMht, modifyNode]

@[simp] theorem still_modifyNode (a : Addr) (f : FileNode C T → FileNode C T) :
    Keeps Still (modifyNode a f) :=
  still_modifyMht (.addr a) f

end Primitive

/-! ### Keys and encryption -/

section Crypto

variable (cr : Crypto C T)

@[simp] theorem still_cryptoCall : Keeps Still (cryptoCall : M C T _) := by
  simp [cryptoCall]

@[simp] theorem still_readRand : Keeps Still (readRand : M C T _) := by
  refine keeps_bind (fun _ => ⟨rfl, rfl, rfl⟩) fun o => ?_
  cases o.fault with
  | some | none => simp

@[simp] theorem still_generateSecureBlob (key : Key) (label : KdfLabel) (k : ℕ) :
    Keeps Still (generateSecureBlob cr key label k) := by
  simp [generateSecureBlob]

@[simp] theorem still_initSessionMasterKey : Keeps Still (initSessionMasterKey cr) := by
  simp [initSessionMasterKey]

@[simp] theorem still_deriveRandomNodeKey (k : ℕ) : Keeps Still (deriveRandomNodeKey cr k) := by
  refine keeps_bind keeps_get fun s => keeps_bind (by simp) fun _ => ?_
  exact keeps_ite (keeps_bind (by simp) fun ready => by simp) (keeps_bind (by simp) fun _ => by simp)

@[simp] theorem still_gcmEncrypt {P : Type} (aead : Aead C T P) (key : Key) (p : P) :
    Keeps Still (gcmEncrypt aead key p) := by
  simp [gcmEncrypt]

@[simp] theorem still_generateSecureBlobFromUserKdk (restore : Bool) :
    Keeps Still (generateSecureBlobFromUserKdk cr restore) := by
  exact keeps_bind keeps_get fun _ => by simp

@[simp] theorem still_generateRandomMetaDataKey : Keeps Still (generateRandomMetaDataKey cr) := by
  exact keeps_bind keeps_get fun _ => by simp

end Crypto

/-! ### The transaction -/

section Flush

variable (cr : Crypto C T)

@[simp] theorem still_fwriteRecoveryNode (r : RecoveryNode C T) :
    Keeps Still (fwriteRecoveryNode r) := by
  simp [fwriteRecoveryNode, abortRecoveryFile]

@[simp] theorem still_writeRecoveryFile : Keeps Still (writeRecoveryFile : M C T _) := by
  refine keeps_bind_option (by simp) (keeps_bind keeps_get fun s => ?_) (by simp)
  exact keeps_bind (by simp) fun saved => keeps_ite (keeps_bind keeps_get fun s => by simp) (by simp)

@[simp] theorem still_setUpdateFlag (b : Bool) : Keeps Still (setUpdateFlag b : M C T _) := by
  refine keeps_bind keeps_get fun s => keeps_bind_option (by simp) ?_ fun f => ?_
  · exact keeps_bind (by simp) fun _ => keeps_ite (keeps_bind_option (by simp) (by simp) (by simp)) (by simp)
  · exact keeps_bind (by simp) fun _ => by simp

@[simp] theorem still_clearUpdateFlag : Keeps Still (clearUpdateFlag : M C T _) := by
  simp [clearUpdateFlag]

@[simp] theorem still_markParents (fuel : ℕ) (p : MhtPtr) :
    Keeps Still (markParents fuel p : M C T _) := by
  induction fuel generalizing p with
  | zero => exact keeps_failure
  | succ fuel ih => simp [markParents, ih]

@[simp] theorem still_sealNode {P : Type} (aead : Aead C T P) (plain : P) (a : Addr)
    (nd : FileNode C T) (deposit : GcmCryptoData T → FileNode C T → FileNode C T) :
    Keeps Still (sealNode cr aead plain a nd deposit) :=
  keeps_bind (by simp) fun _ => keeps_ite (keeps_bind keeps_get fun _ => by simp) (by simp)

@[simp] theorem still_encryptDataNode (a : Addr) : Keeps Still (encryptDataNode cr a) := by
  simp [encryptDataNode]

@[simp] theorem still_collectDirtyMht (as : List Addr) (acc : List (Addr × ℕ)) :
    Keeps Still (collectDirtyMht as acc : M C T _) := by
  induction as generalizing acc with
  | nil => exact keeps_pure _
  | cons a as ih => simp [collectDirtyMht, ih]

@[simp] theorem still_encryptMhtNode (x : Addr × ℕ) : Keeps Still (encryptMhtNode cr x) := by
  simp [encryptMhtNode]

@[simp] theorem still_encryptRootMht : Keeps Still (encryptRootMht cr) :=
  keeps_bind keeps_get fun _ => keeps_bind (by simp) fun _ => by simp

@[simp] theorem still_updateAllDataAndMhtNodes : Keeps Still (updateAllDataAndMhtNodes cr) := by
  refine keeps_bind keeps_get fun _ => keeps_bind (keeps_forAll (by simp) _) fun _ => ?_
  exact keeps_ite (keeps_bind keeps_get fun _ => keeps_bind (by simp) fun _ => by simp) (by simp)

@[simp] theorem still_updateMetaDataNode : Keeps Still (updateMetaDataNode cr) :=
  keeps_bind (by simp) fun _ => by simp

@[simp] theorem still_fwriteNode (e : Effect C T) : Keeps Still (fwriteNode e) := by
  simp [fwriteNode]

@[simp] theorem still_writeNodeToDisk (a : Addr) : Keeps Still (writeNodeToDisk a : M C T _) := by
  simp [writeNodeToDisk]

@[simp] theorem still_writeTreeToDisk : Keeps Still (writeTreeToDisk : M C T _) :=
  keeps_bind keeps_get fun _ => keeps_ite (keeps_bind (by simp) fun _ => by simp) (by simp)

@[simp] theorem still_writeAllChangesToDisk (b : Bool) :
    Keeps Still (writeAllChangesToDisk b : M C T _) := by
  exact keeps_bind (by simp) fun _ => keeps_ite
    (keeps_bind keeps_get fun _ => keeps_bind (by simp) fun _ => by simp) (by simp)

@[simp] theorem still_prepareFlush (b : Bool) : Keeps Still (prepareFlush b : M C T _) := by
  simp [prepareFlush]

@[simp] theorem still_flushTree (b : Bool) : Keeps Still (flushTree cr b) :=
  keeps_bind keeps_get fun _ => keeps_ite (keeps_bind (by simp) fun _ => by simp) (by simp)

@[simp] theorem still_internalFlush (b : Bool) : Keeps Still (internalFlush cr b) :=
  keeps_bind keeps_get fun _ => keeps_ite (keeps_bind (by simp) fun _ => by simp) (by simp)

end Flush

end ProtectedFs
