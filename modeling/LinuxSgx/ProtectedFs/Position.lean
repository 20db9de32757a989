/-
The position in the file.

The position, the size and the end-of-file mark change only in `write`, `read`, `seek` and
`clear_error` themselves.

A call that follows a dangling pointer has no outcome here, nor has a write past
`INT64_MAX`; the statements are about all calls that have one.

* **`position_inside`** — in every state of every session the position is inside the
  file, the file does not shrink, a read that comes to the end too early marks it,
  and a seek clears the mark and moves by exact arithmetic.
-/
import LinuxSgx.ProtectedFs.CallFrames


namespace ProtectedFs

open Prog

variable {C T : Type}

section Moves

variable (cr : Crypto C T)

/-! ### Reading -/

/-- The bytes read and the bytes left account for the way of the position. -/
structure Moved (left : ℕ) (s : St C T) (left' : ℕ) (s' : St C T) : Prop where
  offset : s'.file.offset + left' = s.file.offset + left
  le : left' ≤ left
  size : s'.file.encryptedPartPlain.size = s.file.encryptedPartPlain.size

theorem moved_readNode (a : Addr) (left : ℕ) (s : St C T) :
    wp True (readNode a left) (fun bytes s' => bytes.length ≤ left ∧
      Moved left s (left - bytes.length) s') s := by
  have hn : min left (nodeSize - (s.file.offset - mdUserDataSize) % nodeSize) ≤ left :=
    min_le_left _ _
  simp only [readNode, wp_bind, wp_get]
  refine wp_mono (keeps_deref (R := Still) a s) fun nd s₁ hstill => ?_
  simp only [wp_modify, wp_pure, Bytes.length_copyOut]
  refine ⟨hn, ?_, Nat.sub_le _ _, hstill.size⟩
  dsimp only
  rw [hstill.offset]
  omega

theorem moved_readLoop [Inhabited C] [Inhabited T] (fuel left : ℕ) (out : List UInt8) (s : St C T) :
    wp True (readLoop cr fuel left out) (fun r s' => Moved left s r.1 s') s := by
  induction fuel generalizing left out s with
  | zero =>
    rw [readLoop, wp_ite]
    exact ⟨fun _ => ⟨rfl, le_rfl, rfl⟩, fun _ => trivial⟩
  | succ fuel ih =>
    rw [readLoop, wp_ite]
    refine ⟨fun _ => ⟨rfl, le_rfl, rfl⟩, fun _ => ?_⟩
    rw [wp_bind]
    refine wp_mono (still_getDataNode cr s) fun r s₁ h₁ => ?_
    cases r with
    | none => exact ⟨by rw [h₁.offset], le_rfl, h₁.size⟩
    | some a =>
      rw [wp_bind]
      refine wp_mono (moved_readNode a left s₁) ?_
      rintro bytes s₂ ⟨-, h₂⟩
      refine wp_mono (ih (left - bytes.length) (out ++ bytes) s₂) fun r s₃ h₃ => ?_
      refine ⟨?_, h₃.le.trans h₂.le, h₃.size.trans (h₂.size.trans h₁.size)⟩
      rw [h₃.offset, h₂.offset, h₁.offset]

theorem moved_readMetaData (left : ℕ) (s : St C T) :
    wp True (readMetaData left) (fun r s' => Moved left s r.1 s') s := by
  simp only [readMetaData, wp_bind, wp_get]
  rw [wp_ite]
  refine ⟨fun _ => ?_, fun _ => ⟨rfl, le_rfl, rfl⟩⟩
  refine ⟨?_, Nat.sub_le _ _, rfl⟩
  dsimp only
  omega

/-- The arguments and the state pass the checks of `read`. -/
structure Reads (s : St C T) (size count : ℕ) : Prop where
  size_pos : size ≠ 0
  count_pos : count ≠ 0
  size_le : size ≤ uint32Max
  count_le : count ≤ uint32Max
  status : s.file.fileStatus = .ok
  mode : (s.file.openMode.read || s.file.openMode.update) = true

/-- A read that returns too little and comes to the end of the file marks it. -/
def Marks (s : St C T) (size count n : ℕ) (s' : St C T) : Prop :=
  Reads s size count → n < count → s'.file.offset = s'.file.encryptedPartPlain.size →
    s'.file.endOfFile = true

theorem spec_read [Inhabited C] [Inhabited T] (ptr : Option Bool) (size count : ℕ) (s : St C T) :
    wp True (read cr ptr size count) (fun r s' => Forth s s' ∧
      (ptr = some false → Inside s → Marks s size count r.1 s')) s := by
  have hrefl : Forth s s := Std.Refl.refl (r := Forth) s
  have herr : ∀ e, (ptr = some false → ¬Reads s size count) →
      wp True (do
        setLastError e
        return (0, []) : M C T (ℕ × List UInt8)) (fun r s' => Forth s s' ∧
          (ptr = some false → Inside s → Marks s size count r.1 s')) s := by
    intro e hno
    exact wp_mono (forth_of_still (by simp) s) fun _ s' h =>
      ⟨h, fun hp _ hr => absurd hr (hno hp)⟩
  cases ptr with
  | none => exact ⟨hrefl, by simp⟩
  | some outside =>
    rw [read, wp_ite]
    refine ⟨fun h0 => ⟨hrefl, fun _ _ hr => (h0.elim hr.size_pos hr.count_pos).elim⟩, fun _ => ?_⟩
    rw [wp_ite]
    refine ⟨fun hbig => herr _ fun _ hr => ?_, fun _ => ?_⟩
    · have := hr.size_le
      have := hr.count_le
      omega
    rw [wp_ite]
    refine ⟨fun hout => herr _ fun hp => ?_, fun _ => ?_⟩
    · rw [Option.some.injEq] at hp
      rw [hp] at hout
      cases hout
    rw [wp_bind, wp_get, wp_ite]
    refine ⟨fun hst => herr _ fun _ hr => hst hr.status, fun _ => ?_⟩
    rw [wp_ite]
    refine ⟨fun hmode => herr _ fun _ hr => ?_, fun _ => ?_⟩
    · have := hr.mode
      revert hmode this
      cases s.file.openMode.read <;> cases s.file.openMode.update <;> simp
    rw [wp_ite]
    refine ⟨fun heof => ⟨hrefl, fun _ _ _ _ _ => heof⟩, fun _ => ?_⟩
    rw [wp_ite]
    refine ⟨fun _ => ?_, fun hne => ?_⟩
    · simp only [wp_bind, wp_modify, wp_pure]
      exact ⟨⟨id, le_rfl⟩, fun _ _ _ _ _ => rfl⟩
    -- the loop: the request is cut down to what is left in the file
    set attempted := min (size * count) (s.file.encryptedPartPlain.size - s.file.offset)
    rw [wp_bind]
    refine wp_mono (moved_readMetaData attempted s) ?_
    rintro ⟨rest, out⟩ s₁ h₁
    rw [wp_bind]
    refine wp_mono (moved_readLoop cr attempted rest out s₁) ?_
    rintro ⟨left, out'⟩ s₂ h₂
    have hoff : s₂.file.offset + left = s.file.offset + attempted := h₂.offset.trans h₁.offset
    have hsize := h₂.size.trans h₁.size
    have hforth : Forth s s₂ := by
      refine ⟨fun hin => ?_, hsize.ge⟩
      unfold Inside at *
      omega
    rw [wp_ite]
    refine ⟨fun _ => ?_, fun hno => ⟨hforth, fun _ hin hr hlt hend => ?_⟩⟩
    · simp only [wp_bind, wp_modify, wp_pure]
      exact ⟨⟨hforth.inside, hforth.size⟩, fun _ _ _ _ _ => rfl⟩
    · unfold Inside at hin
      -- at the end of the file nothing is left, so the request was not cut down
      have hleft : left = 0 := by omega
      have hall : attempted = size * count := by
        by_contra hne
        exact hno ⟨hleft, hne⟩
      have hn : (attempted - left) / size = count := by
        rw [hall, hleft, Nat.sub_zero, Nat.mul_div_cancel_left _ (Nat.pos_of_ne_zero hr.size_pos)]
      omega

/-! ### Seeking -/

/-- The position that `origin` names. -/
def SeekOrigin.base (s : St C T) : SeekOrigin → ℕ
  | .set => 0
  | .cur => s.file.offset
  | .fromEnd => s.file.encryptedPartPlain.size
  | .other => 0

theorem seekTarget_le {offset size target : ℕ} {d : ℤ} {origin : SeekOrigin}
    (h : seekTarget offset size d origin = some target) : target ≤ size := by
  cases origin <;> simp only [seekTarget] at h <;> grind

/-- An accepted sum did not wrap around: the position and the offset are both in
the range of `int64_t`, so their sum could only have wrapped to a negative value. -/
theorem seekTarget_exact {s : St C T} {target : ℕ} {d : ℤ} {origin : SeekOrigin}
    (hin : Inside s) (hsize : s.file.encryptedPartPlain.size < 2 ^ 63)
    (hd : -2 ^ 63 ≤ d) (hd' : d < 2 ^ 63)
    (h : seekTarget s.file.offset s.file.encryptedPartPlain.size d origin = some target) :
    (target : ℤ) = origin.base s + d := by
  unfold Inside at hin
  cases origin with
  | set | fromEnd =>
    simp only [seekTarget, Option.ite_none_right_eq_some, Option.some.injEq] at h
    simp only [SeekOrigin.base]
    omega
  | cur =>
    have hsum := Int.bmod_def (s.file.offset + d) (2 ^ 64)
    change (if 0 ≤ wrap64 (s.file.offset + d) ∧
      wrap64 (s.file.offset + d) ≤ s.file.encryptedPartPlain.size then
        some (wrap64 (s.file.offset + d)).toNat else none) = some target at h
    rw [wrap64, Option.ite_none_right_eq_some, Option.some.injEq] at h
    simp only [SeekOrigin.base]
    split_ifs at hsum <;> omega
  | other => simp only [seekTarget, reduceCtorEq] at h

/-- What a successful seek does. -/
structure Sought (s : St C T) (d : ℤ) (origin : SeekOrigin) (s' : St C T) : Prop where
  endOfFile : s'.file.endOfFile = false
  exact : Inside s → s.file.encryptedPartPlain.size < 2 ^ 63 → -2 ^ 63 ≤ d → d < 2 ^ 63 →
    (s'.file.offset : ℤ) = origin.base s + d

theorem spec_seek (d : ℤ) (origin : SeekOrigin) (s : St C T) :
    wp True (seek d origin) (fun r s' => Forth s s' ∧ (r = true → Sought s d origin s')) s := by
  have herr : ∀ e, wp True (do
      setLastError e
      return false : M C T Bool) (fun r s' => Forth s s' ∧ (r = true → Sought s d origin s')) s := by
    intro e
    exact ⟨⟨id, le_rfl⟩, fun h => Bool.noConfusion h⟩
  rw [seek, wp_bind, wp_get, wp_ite]
  refine ⟨fun _ => herr _, fun _ => ?_⟩
  cases ht : seekTarget s.file.offset s.file.encryptedPartPlain.size d origin with
  | none => exact herr _
  | some target =>
    refine ⟨⟨fun _ => seekTarget_le ht, le_rfl⟩, fun _ => ⟨rfl, fun hin hsize hd hd' => ?_⟩⟩
    exact seekTarget_exact hin hsize hd hd' ht

end Moves

/-! ### Opening

The constructor sets the position to zero, and to the end of the file only as its
last step. -/

/-- The position is the same. -/
def Unmoved (s s' : St C T) : Prop := s'.file.offset = s.file.offset

instance : Std.Refl (Unmoved (C := C) (T := T)) := ⟨fun _ => rfl⟩

instance : IsTrans (St C T) Unmoved := ⟨fun _ _ _ h h' => Eq.trans h' h⟩

section Opening

variable (cr : Crypto C T)

theorem unmoved_of_still {α : Type} {m : M C T α} (h : Keeps Still m) : Keeps Unmoved m :=
  h.mono fun _ _ h => h.offset

@[simp] theorem unmoved_call : Keeps Unmoved (call : M C T _) := unmoved_of_still still_call

@[simp] theorem unmoved_setLastError (e : ErrorCode) : Keeps Unmoved (setLastError e : M C T _) :=
  unmoved_of_still (still_setLastError e)

@[simp] theorem unmoved_iff {s s' : St C T} : Unmoved s s' ↔ s'.file.offset = s.file.offset := Iff.rfl

@[simp] theorem unmoved_freadMetaNode : Keeps Unmoved (freadMetaNode : M C T _) := by
  simp [freadMetaNode]

@[simp] theorem unmoved_doFileRecovery : Keeps Unmoved (doFileRecovery : M C T _) := by
  refine keeps_bind_option unmoved_call (keeps_bind keeps_get fun s => ?_) (by simp)
  cases s.store.recovery with
  | none | some nodes => simp

@[simp] theorem unmoved_fileRecovery : Keeps Unmoved (fileRecovery : M C T _) := by
  refine keeps_bind unmoved_call fun _ => keeps_ite (keeps_pure _)
    (keeps_bind (by simp) fun _ => keeps_bind unmoved_doFileRecovery fun _ => ?_)
  refine keeps_ite (keeps_bind unmoved_call fun _ => keeps_ite (keeps_pure _)
    (keeps_bind (by simp) fun _ => keeps_bind keeps_get fun _ => ?_)) (keeps_pure _)
  refine keeps_bind keeps_get fun _ => keeps_ite (keeps_pure _) ?_
  refine keeps_bind unmoved_freadMetaNode fun r => ?_
  cases r with
  | error e | ok m => simp

theorem unmoved_recoverIfNeeded : Keeps Unmoved (recoverIfNeeded : M C T _) := by
  refine keeps_bind keeps_get fun _ => keeps_ite ?_ (keeps_pure _)
  refine keeps_bind unmoved_fileRecovery fun _ => ?_
  simp

theorem unmoved_readRootMht : Keeps Unmoved (readRootMht cr) := by
  refine keeps_bind keeps_get fun s => keeps_ite ?_ (keeps_pure _)
  refine keeps_bind (unmoved_of_still (still_freadNode 1)) fun r => ?_
  cases r with
  | error e => simp
  | ok cipher =>
    refine keeps_bind (unmoved_of_still (still_gcmDecrypt _ _ _ _)) fun r => ?_
    cases r with
    | error e | ok plain => simp

theorem unmoved_restoreCurrentMetaDataKey (importKey : Option Key) :
    Keeps Unmoved (restoreCurrentMetaDataKey cr importKey) := by
  cases importKey with
  | some k => simp [restoreCurrentMetaDataKey]
  | none =>
    refine keeps_bind keeps_get fun _ => keeps_ite
      (unmoved_of_still (still_generateSecureBlobFromUserKdk cr true)) ?_
    exact keeps_bind keeps_get fun _ => keeps_ite (by simp)
      (keeps_bind (unmoved_of_still still_cryptoCall) fun _ => by simp)

theorem unmoved_unsealMetaData (name : List Char) (importKey : Option Key) :
    Keeps Unmoved (unsealMetaData cr name importKey) := by
  refine keeps_bind keeps_get fun _ => keeps_ite (by simp) ?_
  refine keeps_bind (unmoved_restoreCurrentMetaDataKey cr importKey) fun _ =>
    keeps_ite (keeps_bind keeps_get fun s => ?_) (keeps_pure _)
  refine keeps_bind (unmoved_of_still (still_gcmDecrypt _ _ _ _)) fun r => ?_
  cases r with
  | error e => simp
  | ok e => exact keeps_bind (by simp) fun _ => keeps_ite (by simp) (unmoved_readRootMht cr)

theorem unmoved_initExistingFile (name : List Char) (importKey : Option Key) :
    Keeps Unmoved (initExistingFile cr name importKey) := by
  refine keeps_bind unmoved_freadMetaNode fun r => ?_
  cases r with
  | error e => simp
  | ok m =>
    refine keeps_bind (by simp) fun _ => keeps_ite (by simp) (keeps_ite (by simp) ?_)
    exact keeps_bind unmoved_recoverIfNeeded fun _ =>
      keeps_ite (unmoved_unsealMetaData cr name importKey) (keeps_pure _)

theorem unmoved_checkOpenArgs (args : OpenArgs) : Keeps Unmoved (checkOpenArgs cr args) := by
  refine keeps_ite (by simp) (keeps_ite (by simp) (keeps_ite (by simp) ?_))
  refine keeps_bind (unmoved_of_still still_cryptoCall) fun _ => keeps_ite ?_ (keeps_pure _)
  refine keeps_bind (unmoved_of_still (still_initSessionMasterKey cr)) fun _ =>
    keeps_ite ?_ (keeps_pure _)
  cases args.kdkKey
  on_goal 2 => refine keeps_bind (by simp) fun _ => ?_
  -- the name and the mode, with a key of the user and without
  all_goals
    cases cleanupFilename args.filename with
    | error e => simp
    | ok name =>
      refine keeps_ite (by simp) ?_
      cases parseMode args.mode with
      | none | some mode => simp

theorem unmoved_prepareFile (mode : OpenMode) : Keeps Unmoved (prepareFile mode : M C T _) := by
  refine keeps_bind_option unmoved_call (keeps_bind keeps_get fun _ => ?_) (by simp)
  exact keeps_ite (keeps_bind (unmoved_of_still (still_callEffect _)) fun _ => by simp) (keeps_pure _)

theorem inside_of_zero {s : St C T} (h : s.file.offset = 0) : Inside s := by
  rw [Inside, h]
  exact Nat.zero_le _

/-- An existing file that is opened for appending starts at its end. -/
theorem inside_initFile (name : List Char) (importKey : Option Key) {s : St C T}
    (h : s.file.offset = 0) : wp True (initFile cr name importKey) (fun _ s' => Inside s') s := by
  rw [initFile, wp_bind, wp_get, wp_ite]
  refine ⟨fun _ => ?_, fun _ => inside_of_zero h⟩
  rw [wp_ite]
  refine ⟨fun _ => inside_of_zero h, fun _ => ?_⟩
  rw [wp_bind]
  refine wp_mono (unmoved_initExistingFile cr name importKey s) fun r s₁ h₁ => ?_
  have hzero : s₁.file.offset = 0 := h₁.trans h
  rw [wp_ite]
  refine ⟨fun _ => ?_, fun _ => inside_of_zero hzero⟩
  rw [wp_modify]
  split_ifs
  · exact le_rfl
  · exact inside_of_zero hzero

theorem inside_protectedFsFile (args : OpenArgs) [Inhabited C] [Inhabited T] (s : St C T) :
    wp True (protectedFsFile cr args) (fun _ s' => Inside s') s := by
  rw [protectedFsFile, wp_bind, initFields, wp_modify, wp_bind]
  refine wp_mono (unmoved_checkOpenArgs cr args _) ?_
  rintro (_ | ⟨name, mode⟩) s₁ (h₁ : s₁.file.offset = 0)
  · exact inside_of_zero h₁
  rw [wp_bind, wp_modify, wp_bind]
  refine wp_mono (unmoved_prepareFile mode _) ?_
  rintro (_ | found) s₂ (h₂ : s₂.file.offset = s₁.file.offset)
  · exact inside_of_zero (h₂.trans h₁)
  rw [wp_ite]
  refine ⟨fun _ => inside_of_zero (h₂.trans h₁), fun _ => ?_⟩
  rw [wp_bind, wp_modify, wp_bind]
  refine wp_mono (unmoved_of_still (still_callEffect _) _) ?_
  rintro (_ | f) s₃ (h₃ : s₃.file.offset = s₂.file.offset)
  · rw [wp_bind, wp_modify]
    exact inside_initFile cr name args.importKey (h₃.trans (h₂.trans h₁))
  · exact inside_of_zero (h₃.trans (h₂.trans h₁))

end Opening

/-! ### Sessions -/

section Sessions

/-- What a call does with the position: it stays inside the file, which does not
shrink; a read that returns too little and has come to the end has marked it; a seek
that succeeds clears the mark. -/
structure Steps (s : St C T) (op : Op) (r : Reply) (s' : St C T) : Prop where
  inside : s'.file.offset ≤ s'.file.encryptedPartPlain.size
  size : s.file.encryptedPartPlain.size ≤ s'.file.encryptedPartPlain.size
  read : ∀ size count n out, op = .read (some false) size count → r = .bytes n out →
    Reads s size count → n < count → s'.file.offset = s'.file.encryptedPartPlain.size →
    s'.file.endOfFile = true
  seek : ∀ d origin, op = .seek d origin → r = .result true → Sought s d origin s'

theorem steps_of_forth {s s' : St C T} {op : Op} {r : Reply} (hin : Inside s) (h : Forth s s')
    (hread : ∀ ptr size count, op ≠ .read ptr size count) (hseek : ∀ d o, op ≠ .seek d o) :
    Steps s op r s' :=
  ⟨h.inside hin, h.size, fun size count _ _ hop => absurd hop (hread _ size count),
    fun d o hop => absurd hop (hseek d o)⟩

variable [Inhabited C] [Inhabited T] (cr : Crypto C T)

theorem steps_run (op : Op) {s : St C T} (hin : Inside s) :
    wp True (op.run cr) (fun r s' => Steps s op r s') s := by
  have hforth : ∀ {α : Type} {m : M C T α} {f : α → Reply}, Keeps Forth m →
      (∀ ptr size count, op ≠ .read ptr size count) → (∀ d o, op ≠ .seek d o) →
      wp True (do return f (← m) : M C T Reply) (fun r s' => Steps s op r s') s := by
    intro α m f hm hread hseek
    rw [wp_bind]
    exact wp_mono (hm s) fun _ s' h => steps_of_forth hin h hread hseek
  cases op with
  | write ptr size count => exact hforth (forth_write cr ptr size count) (by simp) (by simp)
  | read ptr size count =>
    rw [Op.run, wp_bind]
    refine wp_mono (spec_read cr ptr size count s) ?_
    rintro ⟨n, out⟩ s' ⟨hf, hr⟩
    refine ⟨hf.inside hin, hf.size, fun size' count' n' out' hop hrep hreads hlt hend => ?_, by simp⟩
    cases hop
    cases hrep
    exact hr rfl hin hreads hlt hend
  | seek d origin =>
    rw [Op.run, wp_bind]
    refine wp_mono (spec_seek d origin s) ?_
    rintro r s' ⟨hf, hr⟩
    refine ⟨hf.inside hin, hf.size, by simp, fun d' origin' hop hrep => ?_⟩
    cases hop
    exact hr (Reply.result.inj hrep)
  | tell => exact hforth (forth_of_still still_tell) (by simp) (by simp)
  | flush => exact hforth (forth_of_still (still_flush cr)) (by simp) (by simp)
  | clearError => exact hforth (f := fun _ => .nothing) (forth_clearError cr) (by simp) (by simp)
  | clearCache => exact hforth (forth_clearCache cr) (by simp) (by simp)
  | preClose => exact hforth (forth_preClose cr) (by simp) (by simp)

theorem inside_runOps (ops : List Op) {s : St C T} (hin : Inside s) :
    wp True (runOps cr ops) (fun _ s' => Inside s') s := by
  induction ops generalizing s with
  | nil => exact hin
  | cons op ops ih =>
    rw [runOps, wp_bind]
    refine wp_mono (steps_run cr op hin) fun r s₁ h₁ => ?_
    rw [wp_bind]
    exact wp_mono (ih h₁.inside) fun _ _ h => h

/-- After any session on any file, whatever fails in it, the position is inside the
file, and every further call keeps it there. -/
theorem position_inside {store : Store C T} {outcome : ℕ → Outcome C} {args : OpenArgs}
    {ops : List Op} {rs : List Reply} {s : St C T}
    (h : session cr args ops (St.initial store outcome) = some (rs, s)) :
    s.file.offset ≤ s.file.encryptedPartPlain.size ∧
      ∀ op r s', Op.run cr op s = some (r, s') → Steps s op r s' := by
  have hin : Inside s := by
    have hs : wp True (session cr args ops) (fun _ s' => Inside s') (St.initial store outcome) := by
      rw [session, wp_bind]
      exact wp_mono (inside_protectedFsFile cr args _) fun _ _ h₁ => inside_runOps cr ops h₁
    exact wp_true_iff.mp hs rs s h
  exact ⟨hin, fun op r s' hop => wp_true_iff.mp (steps_run cr op hin) r s' hop⟩

/-- Three bytes are written to a new file; asked for five, a read returns three. -/
theorem position_inside_short_read :
    ∃ rs s out s', session Crypto.transparent ⟨['f'], ['w', '+'], none, none⟩
        [.write (some ⟨[1, 2, 3], false⟩) 1 3, .seek 0 .set]
        (St.initial ⟨false, 0, default, default, none⟩ fun _ => ⟨none, true, none, 7⟩) =
          some (rs, s) ∧
      Op.run Crypto.transparent (.read (some false) 1 5) s = some (.bytes 3 out, s') ∧
      s'.file.offset = s'.file.encryptedPartPlain.size ∧ s'.file.endOfFile = true := by
  have hrun : ((session Crypto.transparent ⟨['f'], ['w', '+'], none, none⟩
      [.write (some ⟨[1, 2, 3], false⟩) 1 3, .seek 0 .set]
      (St.initial ⟨false, 0, default, default, none⟩ fun _ => ⟨none, true, none, 7⟩)).bind
        fun p => (Op.run Crypto.transparent (.read (some false) 1 5) p.2).map fun q =>
          (q.1, p.2.file.fileStatus, p.2.file.openMode.update, q.2.file.offset,
            q.2.file.encryptedPartPlain.size)) =
      some (.bytes 3 [1, 2, 3], .ok, true, 3, 3) := by
    decide +kernel
  obtain ⟨⟨rs, s⟩, hs, hread⟩ := Option.bind_eq_some_iff.mp hrun
  obtain ⟨⟨r, s'⟩, hop, hq⟩ := Option.map_eq_some_iff.mp hread
  simp only [Prod.mk.injEq] at hq
  obtain ⟨rfl, hstatus, hupdate, hoff, hsize⟩ := hq
  have hend : s'.file.offset = s'.file.encryptedPartPlain.size := hoff.trans hsize.symm
  refine ⟨rs, s, [1, 2, 3], s', hs, hop, hend, ?_⟩
  refine ((position_inside Crypto.transparent hs).2 _ _ s' hop).read 1 5 3 [1, 2, 3] rfl rfl ?_
    (by decide) hend
  exact ⟨by decide, by decide, by decide, by decide, hstatus, by simp [hupdate]⟩

end Sessions

end ProtectedFs
