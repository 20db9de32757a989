/-
What the calls of a session do to the position.

Finding a data node, evicting and flushing leave the position alone, whatever the state and whatever
fails.  The other calls, but for `read` and `seek`, keep it inside the file and do not make the file
smaller (`Forth`).
-/
import LinuxSgx.ProtectedFs.Frames

namespace ProtectedFs

open Prog

variable {C T : Type}

/-! ### Finding a data node -/

@[simp] theorem still_freadNode (n : ℕ) : Keeps Still (freadNode n : M C T _) := by
  refine keeps_bind (fun _ => ⟨rfl, rfl, rfl⟩) fun o => ?_
  cases o.fault with
  | some f => simp
  | none =>
    cases o.forged with
    | some | none => simp

@[simp] theorem still_addToCache (nd : FileNode C T) : Keeps Still (addToCache nd) := by
  have hadd : Keeps Still (cacheAdd nd) :=
    keeps_bind_option still_call (fun _ => ⟨rfl, rfl, rfl⟩) (by simp)
  simp [addToCache, hadd]

@[simp] theorem still_allocNode : Keeps Still (allocNode : M C T _) := by
  simp [allocNode]

@[simp] theorem still_decryptFailed (e : ErrorCode) : Keeps Still (decryptFailed e : M C T _) := by
  simp [decryptFailed]

@[simp] theorem still_gcmDecrypt {P : Type} (aead : Aead C T P) (key : Key) (c : C) (t : T) :
    Keeps Still (gcmDecrypt aead key c t) := by
  refine keeps_bind_option still_call ?_ (by simp)
  cases aead.decrypt key c t with
  | some | none => simp

@[simp] theorem still_loadNode {P : Type} (aead : Aead C T P)
    (slotOf : MhtNode T → GcmCryptoData T) (mk : C → P → FileNode C T) (k : ℕ) (parent : MhtPtr) :
    Keeps Still (loadNode aead slotOf mk k parent) := by
  refine keeps_bind still_allocNode fun _ => keeps_ite
    (keeps_bind (still_freadNode k) fun r => ?_) (by simp)
  cases r with
  | error e => simp
  | ok cipher =>
    refine keeps_bind (keeps_derefMht parent) fun nd =>
      keeps_bind (still_gcmDecrypt _ _ _ _) fun r => ?_
    cases r with
    | error | ok => simp

section Lookup

variable (cr : Crypto C T) [Inhabited C] [Inhabited T]

@[simp] theorem still_readMhtNode (fuel m : ℕ) : Keeps Still (readMhtNode cr fuel m) := by
  induction fuel generalizing m with
  | zero => simp [readMhtNode]
  | succ fuel ih =>
    rw [readMhtNode]
    refine keeps_ite (by simp) (keeps_bind keeps_get fun s => ?_)
    cases s.file.cache.find (1 + m * (1 + attachedDataNodesCount)) with
    | some a => simp
    | none =>
      exact keeps_bind_option (ih _) (by simp) (by simp [loadMhtNode])

@[simp] theorem still_appendMhtNode (m : ℕ) : Keeps Still (appendMhtNode cr m) :=
  keeps_bind_option (still_readMhtNode cr _ _) (by simp) (by simp)

@[simp] theorem still_getMhtNode : Keeps Still (getMhtNode cr) := by
  exact keeps_bind keeps_get fun s => by simp

@[simp] theorem still_appendDataNode : Keeps Still (appendDataNode cr) :=
  keeps_bind_option (still_getMhtNode cr) (by simp) (by simp)

@[simp] theorem still_readDataNode : Keeps Still (readDataNode cr) := by
  refine keeps_bind keeps_get fun s => keeps_bind keeps_get fun s₁ => keeps_bind (by simp) fun _ => ?_
  cases s₁.file.cache.find (getNodeNumbers s.file.offset).physicalDataNodeNumber with
  | some a => simp
  | none =>
    exact keeps_bind_option (still_getMhtNode cr) (by simp) (by simp [loadDataNode])

omit [Inhabited C] [Inhabited T] in
@[simp] theorem still_bumpParents (fuel : ℕ) (p : MhtPtr) :
    Keeps Still (bumpParents fuel p : M C T _) := by
  induction fuel generalizing p with
  | zero => exact keeps_failure
  | succ fuel ih => simp [bumpParents, ih]

@[simp] theorem still_lookupDataNode : Keeps Still (lookupDataNode cr) := by
  intro s
  rw [lookupDataNode, wp_bind, wp_get, wp_ite]
  exact ⟨fun _ => keeps_bind_option (still_appendDataNode cr) (by simp) (by simp) s,
    fun _ => keeps_bind_option (still_readDataNode cr) (by simp) (by simp) s⟩

omit [Inhabited C] [Inhabited T] in
@[simp] theorem still_evict (fuel : ℕ) : Keeps Still (evict cr fuel) := by
  induction fuel with
  | zero => exact keeps_failure
  | succ fuel ih =>
    refine keeps_bind keeps_get fun s => keeps_ite (by simp) ?_
    cases s.file.cache.getLast with
    | none => simp
    | some a =>
      exact keeps_bind (keeps_deref a) fun nd => keeps_ite (by simp [ih]) (by simp [freeNode, ih])

-- unfolding it would compute with the size of a node in unary
attribute [local irreducible] lookupDataNode in
@[simp] theorem still_getDataNode : Keeps Still (getDataNode cr) := by
  unfold getDataNode
  refine keeps_bind keeps_get fun s => keeps_ite (by simp) ?_
  exact keeps_bind (still_lookupDataNode cr) fun node => by simp

end Lookup

/-! ### Calls that leave the position alone -/

section Calls

variable (cr : Crypto C T)

@[simp] theorem still_markDirty (a : Addr) : Keeps Still (markDirty a : M C T _) :=
  keeps_bind (keeps_deref a) fun _ => by simp

theorem still_tell : Keeps Still (tell : M C T _) := by
  simp [tell]

theorem still_flush : Keeps Still (flush cr) :=
  keeps_bind keeps_get fun _ => by simp

@[simp] theorem still_dropClean (fuel : ℕ) : Keeps Still (dropClean fuel : M C T _) := by
  induction fuel with
  | zero => simp [dropClean]
  | succ fuel ih =>
    refine keeps_bind keeps_get fun _ => keeps_ite (by simp) (keeps_bind keeps_get fun s => ?_)
    cases s.file.cache.getLast with
    | none => simp
    | some a => exact keeps_bind (keeps_deref a) fun _ => by simp [freeNode, ih]

@[simp] theorem still_closeHandle : Keeps Still (closeHandle : M C T _) := by
  refine keeps_bind keeps_get fun _ => ?_
  exact keeps_ite (keeps_bind_option still_call (by simp) (by simp)) (by simp)

end Calls

/-! ### Calls that move the position -/

/-- The position is inside the file. -/
def Inside (s : St C T) : Prop := s.file.offset ≤ s.file.encryptedPartPlain.size

/-- The position stays inside the file, and the file does not shrink. -/
structure Forth (s s' : St C T) : Prop where
  inside : Inside s → Inside s'
  size : s.file.encryptedPartPlain.size ≤ s'.file.encryptedPartPlain.size

instance : Std.Refl (Forth (C := C) (T := T)) := ⟨fun _ => ⟨id, le_rfl⟩⟩

instance : IsTrans (St C T) Forth :=
  ⟨fun _ _ _ h h' => ⟨fun hi => h'.inside (h.inside hi), h.size.trans h'.size⟩⟩

theorem Still.inside {s s' : St C T} (h : Still s s') (hi : Inside s) : Inside s' := by
  rw [Inside, h.offset, h.size]
  exact hi

theorem Still.forth {s s' : St C T} (h : Still s s') : Forth s s' := ⟨h.inside, h.size.ge⟩

theorem forth_of_still {α : Type} {m : M C T α} (h : Keeps Still m) : Keeps Forth m :=
  h.mono fun _ _ h => h.forth

/-- The size follows the position. -/
theorem forth_advance (n : ℕ) : Keeps Forth (advance n : M C T _) := by
  intro s
  simp only [advance, wp_bind, wp_get]
  split_ifs with hlt hgt
  · exact ⟨fun _ => le_rfl, hgt.le⟩
  · exact ⟨fun _ => not_lt.mp hgt, le_rfl⟩
  · trivial

theorem forth_writeMetaData (data : List UInt8) : Keeps Forth (writeMetaData data : M C T _) :=
  keeps_bind keeps_get fun _ => keeps_ite
    (keeps_bind (keeps_modify fun _ => ⟨id, le_rfl⟩) fun _ =>
      keeps_bind (forth_advance _) fun _ =>
        keeps_bind (keeps_modify fun _ => ⟨id, le_rfl⟩) fun _ => keeps_pure _)
    (keeps_pure _)

theorem forth_writeNode (a : Addr) (data : List UInt8) : Keeps Forth (writeNode a data : M C T _) :=
  keeps_bind keeps_get fun _ => keeps_bind (forth_of_still (still_modifyMht (.addr a) _)) fun _ =>
    keeps_bind (forth_advance _) fun _ =>
      keeps_bind (forth_of_still (still_markDirty a)) fun _ => keeps_pure _

/-- An attempt to write, made under a condition, whose success changes the status. -/
theorem forth_modifyIf {c : Prop} [Decidable c] {m : M C T Bool} {f : St C T → St C T}
    {rest : M C T Unit} (h : Keeps Still m) (hf : ∀ s, Still s (f s)) (hrest : Keeps Forth rest) :
    Keeps Forth (do
      if c then
        if ← m then modify f
      rest : M C T Unit) := by
  refine keeps_ite (keeps_bind (forth_of_still h) fun ok => ?_) hrest
  exact keeps_ite (keeps_bind (keeps_modify fun s => (hf s).forth) fun _ => hrest) hrest

section Errors

variable (cr : Crypto C T)

theorem forth_clearError : Keeps Forth (clearError cr) := by
  refine keeps_bind keeps_get fun _ => keeps_ite (keeps_pure _)
    (forth_modifyIf (still_internalFlush cr true) (fun _ => ⟨rfl, rfl, rfl⟩) ?_)
  refine keeps_bind keeps_get fun _ =>
    forth_modifyIf (still_writeAllChangesToDisk true) (fun _ => ⟨rfl, rfl, rfl⟩) ?_
  exact keeps_bind keeps_get fun _ => keeps_ite (keeps_modify fun _ => ⟨id, le_rfl⟩) (keeps_pure _)

theorem forth_clearCache : Keeps Forth (clearCache cr) := by
  refine keeps_bind keeps_get fun _ => keeps_ite_then (forth_clearError cr)
    (forth_of_still (still_internalFlush cr true)) (keeps_bind keeps_get fun _ => ?_)
  exact keeps_ite (keeps_pure _) (keeps_bind keeps_get fun _ => forth_of_still (still_dropClean _))

theorem forth_preClose : Keeps Forth (preClose cr) := by
  refine keeps_bind keeps_get fun _ => keeps_ite_then (forth_clearError cr)
    (forth_of_still (still_internalFlush cr true)) (keeps_bind keeps_get fun _ => ?_)
  refine keeps_bind (forth_of_still still_closeHandle) fun closed => keeps_bind keeps_get fun _ => ?_
  exact forth_of_still (by simp)

end Errors

section Write

variable [Inhabited C] [Inhabited T] (cr : Crypto C T)

theorem forth_writeLoop (fuel : ℕ) (data : List UInt8) :
    Keeps Forth (writeLoop cr fuel data) := by
  induction fuel generalizing data with
  | zero => exact keeps_ite (keeps_pure _) keeps_failure
  | succ fuel ih =>
    rw [writeLoop]
    refine keeps_ite (keeps_pure _) (keeps_bind_option (forth_of_still (still_getDataNode cr)) ?_ ?_)
    · exact keeps_pure _
    · exact fun a => keeps_bind (forth_writeNode a data) fun rest => ih rest

theorem forth_write (ptr : Option Buffer) (size count : ℕ) :
    Keeps Forth (write cr ptr size count) := by
  cases ptr with
  | none => exact keeps_pure _
  | some buf =>
    have hfail : ∀ e, Keeps Forth (do
        setLastError e
        return 0 : M C T ℕ) := fun e => forth_of_still (by simp)
    refine keeps_ite (keeps_pure _) (keeps_ite (hfail _) (keeps_ite (hfail _) ?_))
    refine keeps_bind keeps_get fun s => keeps_ite (hfail _) (keeps_ite (hfail _) ?_)
    suffices hloop : Keeps Forth _ from
      keeps_ite (keeps_bind (keeps_modify fun _ => ⟨fun _ => le_rfl, le_rfl⟩) fun _ => hloop) hloop
    exact keeps_bind (forth_writeMetaData _) fun _ =>
      keeps_bind (forth_writeLoop cr _ _) fun _ => keeps_pure _

end Write

end ProtectedFs
