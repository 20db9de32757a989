/-
The local variables of a trusted bridge (`gen_tbridge_local_vars` of `CodeGen.ml`).

Each local variable is declared once and after the ones that its value depends on.  So after the
declarations every field of the marshalling structure was read at most once, and a length is that of
the local copies, which the rest of the bridge uses.

* `Orderly` — declarations that do not repeat one another and name what is declared before;
* `orderly_genLocalVars` — the generated declarations are orderly;
* `Declared` — what holds after some declarations;
* **`declared_locals`** — what holds after all of them.
-/
import LinuxSgx.Edger8r.Bridge

open CInt Function List

namespace Edger8r

/-! ### Traces -/

def Event.field? : Event → Option Field
  | .readField f _ => some f
  | _ => none

/-- The fields that were read, in order. -/
def fieldsRead (tr : List Event) : List Field := tr.filterMap Event.field?

theorem fieldsRead_append (tr tr' : List Event) :
    fieldsRead (tr ++ tr') = fieldsRead tr ++ fieldsRead tr' := filterMap_append

theorem mem_fieldsRead {tr : List Event} {f : Field} :
    f ∈ fieldsRead tr ↔ ∃ v, Event.readField f v ∈ tr := by
  rw [fieldsRead, mem_filterMap]
  constructor
  · rintro ⟨e, he, hf⟩
    cases e with
    | readField f' v =>
      cases hf
      exact ⟨v, he⟩
    | check | alloc | read | call | write => cases hf
  · rintro ⟨v, hv⟩
    exact ⟨_, hv, rfl⟩

/-! ### Declarations in order -/

/-- The fields that a declaration reads. -/
def Stmt.fields : Stmt → List Field
  | .tmp x => [.parm x]
  | .len _ (.strLen y) => [.strLen y]
  | _ => []

/-- A length depends on the local copy of a parameter. -/
def LenExpr.Named (e : LenExpr) (s : String) : Prop :=
  match e with
  | .attrs _ attr => attr.size.Names s
  | _ => False

/-- A declaration that may follow others. -/
def Fresh (a : List Stmt) : Stmt → Prop
  | .tmp x => Stmt.tmp x ∉ a
  | .len x e => (∀ e', Stmt.len x e' ∉ a) ∧ (∀ s, e.Named s → Stmt.tmp s ∈ a) ∧
      ∀ y, e = .strLen y → y = x
  | .inPtr _ => True
  | _ => False

/-- Declarations, each of which may follow the ones before. -/
def Orderly : List Stmt → List Stmt → Prop
  | _, [] => True
  | a, st :: b => Fresh a st ∧ Orderly (a ++ [st]) b

theorem orderly_append {a b c : List Stmt} :
    Orderly a (b ++ c) ↔ Orderly a b ∧ Orderly (a ++ b) c := by
  induction b generalizing a with
  | nil => rw [nil_append, append_nil, Orderly, true_and]
  | cons st b ih => rw [List.cons_append, Orderly, Orderly, ih, and_assoc, List.append_assoc,
      singleton_append]

/-- What holds after some declarations: the local copies are the values that were read, and lengths
are those of the local copies. -/
structure Declared (M : Machine) (plist : List PDecl) (a : List Stmt) (s : State) : Prop where
  nodup : (a.flatMap Stmt.fields).Nodup
  fields : fieldsRead s.trace = a.flatMap Stmt.fields
  reads : ∀ e ∈ s.trace, ∃ f v, e = Event.readField f v
  parms : ∀ x v, Event.readField (.parm x) v ∈ s.trace → s.tmp x = v
  strs : ∀ x v, Event.readField (.strLen x) v ∈ s.trace → s.len x = ptrOf v
  own : ∀ x y, Stmt.len x (.strLen y) ∈ a → y = x
  lens : ∀ x e, Stmt.len x e ∈ a → (∀ y, e ≠ .strLen y) →
    s.len x = e.eval M plist s.tmp ∧ ∀ n, e.Named n → Stmt.tmp n ∈ a
  inn : s.inn = fun _ => false
  elems : s.elems = fun _ => []

theorem declared_init (M : Machine) (plist : List PDecl) : Declared M plist [] State.init where
  nodup := nodup_nil
  fields := rfl
  reads _ he := absurd he not_mem_nil
  parms _ _ he := absurd he not_mem_nil
  strs _ _ he := absurd he not_mem_nil
  own _ _ he := absurd he not_mem_nil
  lens _ _ he := absurd he not_mem_nil
  inn := rfl
  elems := rfl

section Step

variable {M : Machine} {h : Host} {plist : List PDecl} {a : List Stmt} {s : State}

variable {x : String}

theorem Stmt.mem_fields {st : Stmt} {f : Field} : f ∈ st.fields ↔
    (∃ x, st = .tmp x ∧ f = .parm x) ∨ ∃ x y, st = .len x (.strLen y) ∧ f = .strLen y := by
  cases st with
  | len x e => cases e <;> simp [fields]
  | _ => simp [fields]

theorem mem_fields_parm : Field.parm x ∈ a.flatMap Stmt.fields ↔ Stmt.tmp x ∈ a := by
  simp [mem_flatMap, Stmt.mem_fields]

variable {y : String}

theorem mem_fields_strLen :
    Field.strLen y ∈ a.flatMap Stmt.fields ↔ ∃ x, Stmt.len x (.strLen y) ∈ a := by
  simp [mem_flatMap, Stmt.mem_fields]

theorem flatMap_concat (st : Stmt) :
    (a ++ [st]).flatMap Stmt.fields = a.flatMap Stmt.fields ++ st.fields := by
  rw [flatMap_append, flatMap_singleton]

/-- A length does not depend on local copies that it does not name. -/
theorem eval_update {e : LenExpr} {v : ℤ} {tmp : String → ℤ} (hx : ¬e.Named x) :
    e.eval M plist (update tmp x v) = e.eval M plist tmp := by
  cases e with
  | sizeof | strLen => rfl
  | attrs ty attr =>
    rw [LenExpr.eval, LenExpr.eval, lengthOf, lengthOf, (lenValue_congr M.undef _ fun s hs => ?_).1]
    have hne : s ≠ x := fun heq => hx (heq ▸ hs)
    rw [valuesOf, valuesOf, update_of_ne hne]

/-- A field is read that was not read before. -/
theorem Declared.read (hd : Declared M plist a s) {st : Stmt} {f : Field} {v : ℤ}
    (hst : st.fields = [f]) (hfresh : f ∉ a.flatMap Stmt.fields) :
    ((a ++ [st]).flatMap Stmt.fields).Nodup ∧
      fieldsRead (s.trace ++ [.readField f v]) = (a ++ [st]).flatMap Stmt.fields ∧
      ∀ e ∈ s.trace ++ [.readField f v], ∃ f v, e = Event.readField f v := by
  rw [flatMap_concat, hst, fieldsRead_append, hd.fields]
  refine ⟨List.Nodup.append hd.nodup (nodup_singleton f) (disjoint_singleton.mpr hfresh), rfl, ?_⟩
  intro e he
  rcases mem_append.mp he with he | he
  · exact hd.reads e he
  · exact ⟨_, _, mem_singleton.mp he⟩

theorem Declared.tmp (hd : Declared M plist a s) (hfresh : Stmt.tmp x ∉ a) :
    Declared M plist (a ++ [.tmp x]) (exec M h plist (.tmp x) s).1 := by
  obtain ⟨hnodup, hfields, hreads⟩ := hd.read (v := h.field s.time (.parm x))
    (show (Stmt.tmp x).fields = _ from rfl) (mem_fields_parm.not.mpr hfresh)
  refine ⟨hnodup, hfields, hreads, fun y v hy => ?_, fun y v hy => ?_, fun y z hy => ?_,
    fun y e hy hstr => ?_, hd.inn, hd.elems⟩
  · show update s.tmp x _ y = v
    rcases mem_append.mp hy with hold | hy
    · -- an older read is of another field
      have hne : y ≠ x := by
        rintro rfl
        refine hfresh (mem_fields_parm.mp ?_)
        rw [← hd.fields]
        exact mem_fieldsRead.mpr ⟨v, hold⟩
      rw [update_of_ne hne]
      exact hd.parms y v hold
    · cases mem_singleton.mp hy
      exact update_self _ _ _
  · rcases mem_append.mp hy with hy | hy
    · exact hd.strs y v hy
    · cases mem_singleton.mp hy
  · rcases mem_append.mp hy with hy | hy
    · exact hd.own y z hy
    · cases mem_singleton.mp hy
  · rcases mem_append.mp hy with hy | hy
    · obtain ⟨hlen, hnamed⟩ := hd.lens y e hy hstr
      refine ⟨?_, fun n hn => mem_append_left _ (hnamed n hn)⟩
      have hx : ¬e.Named x := fun hx => hfresh (hnamed x hx)
      show s.len y = e.eval M plist (update s.tmp x _)
      rw [eval_update hx, hlen]
    · cases mem_singleton.mp hy

/-- The length of another string was read before. -/
theorem Declared.ne_of_strLen (hd : Declared M plist a s) {v : ℤ} (hfresh : ∀ e', Stmt.len x e' ∉ a)
    (hy : Event.readField (.strLen y) v ∈ s.trace) : y ≠ x := by
  rintro rfl
  have hmem : Field.strLen y ∈ a.flatMap Stmt.fields := by
    rw [← hd.fields]
    exact mem_fieldsRead.mpr ⟨v, hy⟩
  obtain ⟨z, hz⟩ := mem_fields_strLen.mp hmem
  obtain rfl := hd.own z y hz
  exact hfresh _ hz

theorem Declared.len (hd : Declared M plist a s) {e : LenExpr} (hfresh : ∀ e', Stmt.len x e' ∉ a)
    (hnamed : ∀ n, e.Named n → Stmt.tmp n ∈ a) (hstr : ∀ y, e ≠ .strLen y) :
    Declared M plist (a ++ [.len x e]) (exec M h plist (.len x e) s).1 := by
  have hexec : (exec M h plist (.len x e) s).1 =
      { s with len := update s.len x (e.eval M plist s.tmp) } := by
    cases e with
    | sizeof | attrs => rfl
    | strLen y => exact absurd rfl (hstr y)
  have hfields : (a ++ [Stmt.len x e]).flatMap Stmt.fields = a.flatMap Stmt.fields := by
    rw [flatMap_concat]
    cases e with
    | sizeof | attrs => exact append_nil _
    | strLen y => exact absurd rfl (hstr y)
  rw [hexec]
  refine ⟨hfields ▸ hd.nodup, hfields ▸ hd.fields, hd.reads, hd.parms, ?_, ?_, ?_, hd.inn, hd.elems⟩
  · intro y v hy
    show update s.len x _ y = ptrOf v
    rw [update_of_ne (hd.ne_of_strLen hfresh hy)]
    exact hd.strs y v hy
  · intro y z hy
    rcases mem_append.mp hy with hy | hy
    · exact hd.own y z hy
    · cases mem_singleton.mp hy
      exact absurd rfl (hstr z)
  · intro y e' hy hstr'
    show update s.len x _ y = _ ∧ _
    rcases mem_append.mp hy with hold | hy
    · obtain ⟨hlen, hn⟩ := hd.lens y e' hold hstr'
      have hne : y ≠ x := by
        rintro rfl
        exact hfresh _ hold
      rw [update_of_ne hne]
      exact ⟨hlen, fun n hnn => mem_append_left _ (hn n hnn)⟩
    · cases mem_singleton.mp hy
      exact ⟨update_self _ _ _, fun n hn => mem_append_left _ (hnamed n hn)⟩

theorem Declared.strLen (hd : Declared M plist a s) (hfresh : ∀ e', Stmt.len x e' ∉ a) :
    Declared M plist (a ++ [.len x (.strLen x)]) (exec M h plist (.len x (.strLen x)) s).1 := by
  have hnew : Field.strLen x ∉ a.flatMap Stmt.fields := by
    rw [mem_fields_strLen]
    rintro ⟨z, hz⟩
    obtain rfl := hd.own z x hz
    exact hfresh _ hz
  obtain ⟨hnodup, hfields, hreads⟩ := hd.read (v := h.field s.time (.strLen x))
    (show (Stmt.len x (.strLen x)).fields = _ from rfl) hnew
  refine ⟨hnodup, hfields, hreads, fun y v hy => ?_, fun y v hy => ?_, fun y z hy => ?_,
    fun y e hy hstr => ?_, hd.inn, hd.elems⟩
  · rcases mem_append.mp hy with hy | hy
    · exact hd.parms y v hy
    · cases mem_singleton.mp hy
  · show update s.len x _ y = ptrOf v
    rcases mem_append.mp hy with hold | hy
    · rw [update_of_ne (hd.ne_of_strLen hfresh hold)]
      exact hd.strs y v hold
    · cases mem_singleton.mp hy
      exact update_self _ _ _
  · rcases mem_append.mp hy with hy | hy
    · exact hd.own y z hy
    · cases mem_singleton.mp hy
      rfl
  · rcases mem_append.mp hy with hold | hy
    · obtain ⟨hlen, hn⟩ := hd.lens y e hold hstr
      have hne : y ≠ x := by
        rintro rfl
        exact hfresh _ hold
      refine ⟨?_, fun n hnn => mem_append_left _ (hn n hnn)⟩
      show update s.len x _ y = _
      rw [update_of_ne hne]
      exact hlen
    · cases mem_singleton.mp hy
      exact absurd rfl (hstr x)

theorem Declared.inPtr (hd : Declared M plist a s) (x : String) :
    Declared M plist (a ++ [.inPtr x]) (exec M h plist (.inPtr x) s).1 := by
  have hfields : (a ++ [Stmt.inPtr x]).flatMap Stmt.fields = a.flatMap Stmt.fields := by
    rw [flatMap_concat]
    exact append_nil _
  have hmem : ∀ y e, Stmt.len y e ∈ a ++ [Stmt.inPtr x] → Stmt.len y e ∈ a := by
    intro y e hy
    rcases mem_append.mp hy with hy | hy
    · exact hy
    · cases mem_singleton.mp hy
  refine ⟨hfields ▸ hd.nodup, hfields ▸ hd.fields, hd.reads, hd.parms, hd.strs,
    fun y z hy => hd.own y z (hmem y _ hy), fun y e hy hstr => ?_, ?_, hd.elems⟩
  · obtain ⟨hlen, hn⟩ := hd.lens y e (hmem y e hy) hstr
    exact ⟨hlen, fun n hnn => mem_append_left _ (hn n hnn)⟩
  · show update s.inn x false = _
    rw [hd.inn]
    exact update_eq_self x (fun _ => false)

/-- A declaration that may follow others keeps what holds after them. -/
theorem Declared.step (hd : Declared M plist a s) {st : Stmt} (hfresh : Fresh a st) :
    (exec M h plist st s).2 = none ∧ Declared M plist (a ++ [st]) (exec M h plist st s).1 := by
  cases st with
  | tmp x => exact ⟨rfl, hd.tmp hfresh⟩
  | len x e =>
    obtain ⟨hlen, hnamed, hown⟩ := hfresh
    cases e with
    | strLen y =>
      obtain rfl := hown y rfl
      exact ⟨rfl, hd.strLen hlen⟩
    | sizeof | attrs => exact ⟨rfl, hd.len hlen hnamed nofun⟩
  | inPtr x => exact ⟨rfl, hd.inPtr x⟩
  | checkOverflow | checkPtr | clone | call | writeBack => exact hfresh.elim

/-- Orderly declarations are run to their end. -/
theorem Declared.execAll (hd : Declared M plist a s) {b : List Stmt} (hb : Orderly a b) :
    ∃ s', execAll M h plist b s = (s', none) ∧ Declared M plist (a ++ b) s' := by
  induction b generalizing a s with
  | nil => exact ⟨s, rfl, (append_nil a).symm ▸ hd⟩
  | cons st b ih =>
    obtain ⟨hfresh, hb⟩ := hb
    obtain ⟨hok, hd'⟩ := hd.step (h := h) hfresh
    obtain ⟨s', hrun, hs'⟩ := ih hd' hb
    refine ⟨s', ?_, ?_⟩
    · rw [Edger8r.execAll, show exec M h plist st s = ((exec M h plist st s).1, none) from
        Prod.ext rfl hok]
      exact hrun
    · rwa [List.append_assoc, singleton_append] at hs'

end Step

/-! ### The generated declarations -/

/-- A local copy of a pointer is declared. -/
def hasTmp (pd : PDecl) : Bool := isPtr pd.1 && (!isForeignArray pd.1 || ptrHasDirection pd.1)

/-- The cache after some declarations; `I` are the integers among the parameters, and `D` the
pointers with a local copy. -/
structure Cached (I D : String → Prop) (a : List Stmt) (cache : List String) : Prop where
  tmp : ∀ y ∈ cache, Stmt.tmp y ∈ a
  ints : ∀ y ∈ cache, I y
  of_tmp : ∀ y, Stmt.tmp y ∈ a → y ∈ cache ∨ D y
  of_len : ∀ y e, Stmt.len y e ∈ a → D y
  apart : ∀ y, D y → ¬I y

section Generated

variable {I D : String → Prop} {a : List Stmt} {cache : List String}

theorem cached_genTempVar (hc : Cached I D a cache) {v : Option AttrValue}
    (hI : ∀ s, v = some (.aString s) → I s) :
    Orderly a (genTempVar cache v).1 ∧
      Cached I D (a ++ (genTempVar cache v).1) (genTempVar cache v).2 ∧
      (∀ s, v = some (.aString s) → s ∈ (genTempVar cache v).2) ∧
      (∀ st ∈ (genTempVar cache v).1, ∃ y, st = .tmp y) ∧ cache ⊆ (genTempVar cache v).2 := by
  have hskip : Orderly a [] ∧ Cached I D (a ++ []) cache ∧
      (∀ st ∈ ([] : List Stmt), ∃ y, st = .tmp y) ∧ cache ⊆ cache := by
    rw [append_nil]
    exact ⟨trivial, hc, fun st hst => absurd hst not_mem_nil, List.Subset.refl _⟩
  obtain ⟨h₁, h₂, h₃, h₄⟩ := hskip
  rcases v with _ | (s | n)
  · exact ⟨h₁, h₂, fun s hs => (by cases hs), h₃, h₄⟩
  · rw [genTempVar]
    split_ifs with hs
    · exact ⟨h₁, h₂, fun s' hs' => (by cases hs'; exact hs), h₃, h₄⟩
    · -- a name that is not in the cache is an integer without a local copy
      have hfresh : Stmt.tmp s ∉ a := fun hmem =>
        (hc.of_tmp s hmem).elim hs fun hD => hc.apart s hD (hI s rfl)
      refine ⟨⟨hfresh, trivial⟩, ⟨?_, ?_, ?_, ?_, hc.apart⟩, fun s' hs' => (by
        cases hs'; exact mem_cons_self), fun st hst => ⟨s, mem_singleton.mp hst⟩,
        subset_cons_self _ _⟩
      · intro y hy
        rcases mem_cons.mp hy with rfl | hy
        · exact mem_append_right _ (mem_singleton_self _)
        · exact mem_append_left _ (hc.tmp y hy)
      · exact forall_mem_cons.mpr ⟨hI s rfl, hc.ints⟩
      · intro y hy
        rcases mem_append.mp hy with hy | hy
        · exact (hc.of_tmp y hy).imp_left (mem_cons_of_mem s)
        · cases mem_singleton.mp hy
          exact .inl mem_cons_self
      · intro y e hy
        rcases mem_append.mp hy with hy | hy
        · exact hc.of_len y e hy
        · cases mem_singleton.mp hy
  · exact ⟨h₁, h₂, fun s hs => (by cases hs), h₃, h₄⟩

theorem cached_genTmpSize (hc : Cached I D a cache) {attr : PtrAttr}
    (hI : ∀ s, attr.size.Names s → I s) :
    Orderly a (genTmpSize cache attr).1 ∧
      Cached I D (a ++ (genTmpSize cache attr).1) (genTmpSize cache attr).2 ∧
      (∀ s, attr.size.Names s → s ∈ (genTmpSize cache attr).2) ∧
      (∀ st ∈ (genTmpSize cache attr).1, ∃ y, st = .tmp y) ∧
      cache ⊆ (genTmpSize cache attr).2 := by
  obtain ⟨h₁, h₂, h₃, h₄, h₅⟩ := cached_genTempVar hc fun s hs => hI s (.inl hs)
  obtain ⟨k₁, k₂, k₃, k₄, k₅⟩ := cached_genTempVar h₂ fun s hs => hI s (.inr hs)
  rw [List.append_assoc] at k₂
  refine ⟨orderly_append.mpr ⟨h₁, k₁⟩, k₂, ?_, ?_, List.Subset.trans h₅ k₅⟩
  · rintro s (hs | hs)
    · exact k₅ (h₃ s hs)
    · exact k₃ s hs
  · intro st hst
    rcases mem_append.mp hst with hst | hst
    · exact h₄ st hst
    · exact k₄ st hst

variable {x : String}

theorem not_strLen_attrs {ty : AType} {attr : PtrAttr} {y : String}
    (h : genPtrSize ty attr x = .strLen y) : y = x := by
  rw [genPtrSize] at h
  split_ifs at h
  cases h
  rfl

theorem named_genPtrSize {ty : AType} {attr : PtrAttr} {s : String}
    (h : (genPtrSize ty attr x).Named s) : attr.size.Names s := by
  rw [genPtrSize] at h
  split_ifs at h
  · exact h.elim
  · exact h.elim
  · exact h

/-- Another declaration for the pointer `x`. -/
theorem Cached.concat (hc : Cached I D a cache) (hx : D x) {st : Stmt}
    (hst : (∃ e, st = .len x e) ∨ st = .inPtr x ∨ st = .tmp x) : Cached I D (a ++ [st]) cache where
  tmp y hy := mem_append_left _ (hc.tmp y hy)
  ints := hc.ints
  of_tmp y hy := by
    rcases mem_append.mp hy with hy | hy
    · exact hc.of_tmp y hy
    · obtain rfl := mem_singleton.mp hy
      rcases hst with ⟨e, he⟩ | he | he
      · cases he
      · cases he
      · cases he
        exact .inr hx
  of_len y e hy := by
    rcases mem_append.mp hy with hy | hy
    · exact hc.of_len y e hy
    · obtain rfl := mem_singleton.mp hy
      rcases hst with ⟨e', he⟩ | he | he
      · cases he
        exact hx
      · cases he
      · cases he
  apart := hc.apart

theorem Cached.mono (hc : Cached I D a cache) (hx : ¬I x) :
    Cached I (fun y => D y ∨ y = x) a cache where
  tmp := hc.tmp
  ints := hc.ints
  of_tmp y hy := (hc.of_tmp y hy).imp_right .inl
  of_len y e hy := .inl (hc.of_len y e hy)
  apart y hy := hy.elim (hc.apart y) fun heq => heq ▸ hx

theorem cached_doGenLocalVar (hc : Cached I D a cache) {ty : AType} {attr : PtrAttr} (hx : ¬D x)
    (hptr : ¬I x) (hI : ∀ s, attr.size.Names s → I s) :
    Orderly a (doGenLocalVar cache ty attr x).1 ∧
      Cached I (fun y => D y ∨ y = x) (a ++ (doGenLocalVar cache ty attr x).1)
        (doGenLocalVar cache ty attr x).2 := by
  have hfresh : Stmt.tmp x ∉ a := fun hmem =>
    (hc.of_tmp x hmem).elim (fun hmem => hptr (hc.ints x hmem)) hx
  have hlen : ∀ e, Stmt.len x e ∉ a := fun e hmem => hx (hc.of_len x e hmem)
  have hD : (fun y => D y ∨ y = x) x := .inr rfl
  have hc₁ : Cached I (fun y => D y ∨ y = x) (a ++ [.tmp x]) cache :=
    (hc.mono hptr).concat hD (.inr (.inr rfl))
  -- the pointer `_in_x` comes last
  have hlast : ∀ {b : List Stmt} {cache' : List String},
      Cached I (fun y => D y ∨ y = x) b cache' →
      Orderly b (if attr.direction = .ptrNoDirection then [] else [Stmt.inPtr x]) ∧
      Cached I (fun y => D y ∨ y = x)
        (b ++ if attr.direction = .ptrNoDirection then [] else [Stmt.inPtr x]) cache' := by
    intro b cache' hb
    split_ifs
    · exact ⟨trivial, (append_nil b).symm ▸ hb⟩
    · exact ⟨⟨trivial, trivial⟩, hb.concat hD (.inr (.inl rfl))⟩
  simp only [doGenLocalVar]
  rw [← singleton_append, orderly_append, orderly_append, ← List.append_assoc,
    ← List.append_assoc]
  by_cases hchk : attr.chkptr = true
  · simp only [hchk, if_true]
    obtain ⟨h₁, h₂, h₃, h₄, -⟩ := cached_genTmpSize hc₁ hI
    have hlen' : ∀ e, Stmt.len x e ∉ a ++ [Stmt.tmp x] ++ (genTmpSize cache attr).1 := by
      intro e hmem
      rcases mem_append.mp hmem with hmem | hmem
      · rcases mem_append.mp hmem with hmem | hmem
        · exact hlen e hmem
        · cases mem_singleton.mp hmem
      · obtain ⟨y, hy⟩ := h₄ _ hmem
        cases hy
    have h₅ : Orderly (a ++ [Stmt.tmp x] ++ (genTmpSize cache attr).1)
        [Stmt.len x (genPtrSize ty attr x)] :=
      ⟨⟨hlen', fun s hs => h₂.tmp s (h₃ s (named_genPtrSize hs)), fun y hy => not_strLen_attrs hy⟩,
        trivial⟩
    have h₆ := hlast (h₂.concat hD (.inl ⟨genPtrSize ty attr x, rfl⟩))
    refine ⟨⟨⟨hfresh, trivial⟩, orderly_append.mpr ⟨h₁, h₅⟩, h₆.1⟩, ?_⟩
    simpa only [List.append_assoc] using h₆.2
  · simp only [hchk, Bool.false_eq_true, if_false]
    obtain ⟨h₁, h₂⟩ := hlast hc₁
    simp only [append_nil]
    exact ⟨⟨⟨hfresh, trivial⟩, trivial, h₁⟩, h₂⟩

theorem cached_genLocalVar (hc : Cached I D a cache) {pd : PDecl} (hx : ¬D pd.2.identifier)
    (hptr : isPtr pd.1 = true → ¬I pd.2.identifier)
    (hI : ∀ ty attr, pd.1 = .ptPtr ty attr → ∀ s, attr.size.Names s → I s) :
    Orderly a (genLocalVar cache pd).1 ∧
      Cached I (fun y => D y ∨ hasTmp pd = true ∧ y = pd.2.identifier)
        (a ++ (genLocalVar cache pd).1) (genLocalVar cache pd).2 := by
  have hskip : hasTmp pd = false → Orderly a [] ∧
      Cached I (fun y => D y ∨ hasTmp pd = true ∧ y = pd.2.identifier) (a ++ []) cache := by
    intro hno
    simp only [hno, Bool.false_eq_true, false_and, or_false, append_nil]
    exact ⟨trivial, hc⟩
  obtain ⟨pt, declr⟩ := pd
  cases pt with
  | ptVal ty => exact hskip rfl
  | ptPtr ty attr =>
    have hnot := hptr rfl
    simp only [genLocalVar]
    split_ifs with hary
    · by_cases hdir : attr.direction = .ptrNoDirection
      · have hno : hasTmp (.ptPtr ty attr, declr) = false := by
          simp only [hasTmp, hary, ptrHasDirection, hdir, isPtr]
          rfl
        rw [genLocalVarForForeignArray]
        simp only [hdir]
        exact hskip hno
      · have hyes : hasTmp (.ptPtr ty attr, declr) = true := by
          simp only [hasTmp, hary, ptrHasDirection, isPtr]
          simpa using hdir
        have hstmts : genLocalVarForForeignArray ty attr declr.identifier =
            [.tmp declr.identifier, .len declr.identifier (.sizeof ty), .inPtr declr.identifier] := by
          rw [genLocalVarForForeignArray]
          split
          · exact absurd ‹_› hdir
          · rfl
        simp only [hyes, true_and, hstmts]
        have hfresh : Stmt.tmp declr.identifier ∉ a := fun hmem =>
          (hc.of_tmp _ hmem).elim (fun hmem => hnot (hc.ints _ hmem)) hx
        have hlen : ∀ e, Stmt.len declr.identifier e ∉ a ++ [Stmt.tmp declr.identifier] := by
          intro e hmem
          rcases mem_append.mp hmem with hmem | hmem
          · exact hx (hc.of_len _ e hmem)
          · cases mem_singleton.mp hmem
        have hD : (fun y => D y ∨ y = declr.identifier) declr.identifier := .inr rfl
        refine ⟨⟨hfresh, ⟨hlen, fun s hs => hs.elim, nofun⟩, trivial, trivial⟩, ?_⟩
        have hcached := (((hc.mono hnot).concat hD (.inr (.inr rfl))).concat hD
          (.inl ⟨.sizeof ty, rfl⟩)).concat hD (.inr (.inl rfl))
        rwa [List.append_assoc, List.append_assoc] at hcached
    · have hyes : hasTmp (.ptPtr ty attr, declr) = true := by
        simp only [hasTmp, hary, isPtr]
        rfl
      simp only [hyes, true_and]
      exact cached_doGenLocalVar hc hx hnot (hI ty attr rfl)

/-- The generated declarations are orderly. -/
theorem orderly_genLocalVars (hc : Cached I D a cache) {l : List PDecl}
    (hnodup : (l.map fun pd => pd.2.identifier).Nodup) (hD : ∀ pd ∈ l, ¬D pd.2.identifier)
    (hptr : ∀ pd ∈ l, isPtr pd.1 = true → ¬I pd.2.identifier)
    (hI : ∀ pd ∈ l, ∀ ty attr, pd.1 = .ptPtr ty attr → ∀ s, attr.size.Names s → I s) :
    Orderly a (genLocalVars cache l).1 ∧
      Cached I (fun y => D y ∨ ∃ pd ∈ l, hasTmp pd = true ∧ y = pd.2.identifier)
        (a ++ (genLocalVars cache l).1) (genLocalVars cache l).2 := by
  induction l generalizing a D cache with
  | nil =>
    simp only [genLocalVars, append_nil, not_mem_nil, false_and, exists_false, or_false]
    exact ⟨trivial, hc⟩
  | cons pd l ih =>
    obtain ⟨hne, hnodup⟩ := nodup_cons.mp hnodup
    obtain ⟨h₁, h₂⟩ := cached_genLocalVar hc (hD pd mem_cons_self) (hptr pd mem_cons_self)
      (hI pd mem_cons_self)
    have hrest : ∀ pd' ∈ l, ¬(D pd'.2.identifier ∨ hasTmp pd = true ∧
        pd'.2.identifier = pd.2.identifier) := by
      rintro pd' hmem (hDd | ⟨-, heq⟩)
      · exact hD pd' (mem_cons_of_mem _ hmem) hDd
      · exact hne (List.mem_map.mpr ⟨pd', hmem, heq⟩)
    obtain ⟨h₃, h₄⟩ := ih h₂ hnodup hrest (fun pd' hmem => hptr pd' (mem_cons_of_mem _ hmem))
      (fun pd' hmem => hI pd' (mem_cons_of_mem _ hmem))
    refine ⟨orderly_append.mpr ⟨h₁, h₃⟩, ?_⟩
    simp only [genLocalVars]
    rw [List.append_assoc] at h₄
    simpa only [exists_mem_cons_iff, or_assoc] using h₄

theorem subset_genLocalVars (cache : List String) {l : List PDecl} {pd : PDecl} (h : pd ∈ l) :
    ∃ cache', (genLocalVar cache' pd).1 ⊆ (genLocalVars cache l).1 := by
  induction l generalizing cache with
  | nil => cases h
  | cons pd' l ih =>
    rcases mem_cons.mp h with rfl | h
    · exact ⟨cache, subset_append_left _ _⟩
    · obtain ⟨cache', hsub⟩ := ih (genLocalVar cache pd').2 h
      exact ⟨cache', List.Subset.trans hsub (subset_append_right _ _)⟩

end Generated

/-! ### Accepted declarations -/

/-- What the checks of the parser leave. -/
structure PtrAttr.WellFormed (attr : PtrAttr) : Prop where
  array : attr.isary = true → attr.size = emptyPtrSize ∧
    (attr.chkptr = true → attr.direction ≠ .ptrNoDirection)
  sized : attr.size ≠ emptyPtrSize → attr.isstr = false ∧ attr.iswstr = false ∧
    attr.direction ≠ .ptrNoDirection ∧ attr.chkptr = true

theorem hasStrAttr_eq_ok {attr : PtrAttr} {b : Bool} (h : hasStrAttr attr = .ok b) :
    b = (attr.isstr || attr.iswstr) := by
  rw [hasStrAttr] at h
  split_ifs at h
  cases h
  rfl

theorem wellFormed_of_checkParamPtrAttr {attr attr' : PtrAttr}
    (h : checkParamPtrAttr attr = .ok attr') : attr' = attr ∧ attr.WellFormed := by
  rw [checkParamPtrAttr] at h
  split_ifs at h with hary
  · rw [checkInvalidAryAttr] at h
    split_ifs at h with hsize hptr hdir
    · cases h
      rw [ne_eq, not_not] at hsize
      refine ⟨rfl, fun _ => ⟨hsize, fun hchk hno => hdir ?_⟩, fun hne => absurd hsize hne⟩
      rw [hchk, hno]
      rfl
    · rw [Checks.bind_eq_ok] at h
      obtain ⟨b, -, h⟩ := h
      split_ifs at h
  · rw [Checks.bind_eq_ok] at h
    obtain ⟨attr₁, h₁, h₂⟩ := h
    rw [checkInvalidPtrSize, Checks.bind_eq_ok] at h₁
    obtain ⟨b, hb, h₁⟩ := h₁
    split_ifs at h₁ with hsize
    rw [Checks.bind_eq_ok] at h₁
    obtain ⟨b', hb', h₁⟩ := h₁
    split_ifs at h₁ with hdir
    cases h₁
    rw [checkPtrDir] at h₂
    split_ifs at h₂ with huser hchk
    rw [Checks.bind_eq_ok] at h₂
    obtain ⟨b'', -, h₂⟩ := h₂
    split_ifs at h₂
    cases h₂
    refine ⟨rfl, fun hyes => absurd hyes hary, fun hne => ?_⟩
    have hb := hasStrAttr_eq_ok hb
    have hdir' : attr.direction ≠ .ptrNoDirection := by
      intro hno
      refine hdir ?_
      rw [decide_eq_true hne, decide_eq_true hno]
      rfl
    have hstr : (attr.isstr || attr.iswstr) = false := by
      rw [← hb]
      refine Bool.eq_false_of_not_eq_true fun hyes => hsize ?_
      rw [hyes, decide_eq_true hne]
      rfl
    rw [Bool.or_eq_false_iff] at hstr
    refine ⟨hstr.1, hstr.2, hdir', ?_⟩
    refine Bool.eq_true_of_not_eq_false fun hno => huser ?_
    rw [hno, decide_eq_true hdir']
    rfl

theorem Parsed.wellFormed {ty : AType} {attr : PtrAttr} {declr : Declarator}
    (h : Parsed (.ptPtr ty attr, declr)) : attr.WellFormed := by
  generalize hpd : (ParamType.ptPtr ty attr, declr) = pd at h
  cases h with
  | val => cases hpd
  | attributed h =>
    rw [attributedParamType, Checks.bind_eq_ok] at h
    obtain ⟨attr₁, h₁, h⟩ := h
    obtain ⟨rfl, hwf⟩ := wellFormed_of_checkParamPtrAttr h₁
    -- every branch that succeeds has the attributes that were checked
    split_ifs at h
    all_goals split at h <;> cases h <;> cases hpd <;> exact hwf
  | const h =>
    rw [constParamType, Checks.bind_eq_ok] at h
    obtain ⟨attr₁, h₁, h⟩ := h
    obtain ⟨rfl, hwf⟩ := wellFormed_of_checkParamPtrAttr h₁
    cases h
    cases hpd
    exact ⟨hwf.array, hwf.sized⟩

section Accepted

variable {env : CEnv} {fd : FuncDecl} {ty : AType} {attr : PtrAttr} {declr : Declarator}

/-- The name is that of an integer. -/
def IntName (env : CEnv) (plist : List PDecl) (s : String) : Prop :=
  (intTypeOf env plist s).isSome = true

theorem FuncDecl.Accepted.not_intName (hfd : fd.Accepted env)
    (hmem : (ParamType.ptPtr ty attr, declr) ∈ fd.plist) : ¬IntName env fd.plist declr.identifier := by
  intro hint
  rw [IntName, intTypeOf] at hint
  rcases hfind : fd.plist.find? (fun pd => pd.2.identifier = declr.identifier) with _ | pd
  · rw [hfind] at hint
    cases hint
  · have hfound : pd.2.identifier = declr.identifier := by simpa using List.find?_some hfind
    have hpd : pd = (ParamType.ptPtr ty attr, declr) :=
      inj_on_of_nodup_map hfd.nodup (List.mem_of_find?_eq_some hfind) hmem hfound
    rw [hfind, hpd] at hint
    cases hint

/-- A parameter with dimensions has no attributes of size. -/
theorem FuncDecl.Accepted.of_isArray (hfd : fd.Accepted env)
    (hmem : (ParamType.ptPtr ty attr, declr) ∈ fd.plist) (hary : declr.isArray = true) :
    attr.size = emptyPtrSize ∧ attr.isary = false := by
  have hcheck := hfd.checked _ hmem
  rw [checkPtrAttr, Checks.bind_eq_ok] at hcheck
  obtain ⟨-, -, hcheck⟩ := hcheck
  rw [Checks.bind_eq_ok] at hcheck
  obtain ⟨-, -, hcheck⟩ := hcheck
  rw [Checks.bind_eq_ok] at hcheck
  obtain ⟨-, -, hcheck⟩ := hcheck
  simp only [checkArrayDims, hary, if_true] at hcheck
  split_ifs at hcheck with hsize hcount hisary
  rcases hps : attr.size with ⟨size, count⟩
  rw [hps] at hsize hcount
  refine ⟨?_, Bool.eq_false_of_not_eq_true hisary⟩
  rw [emptyPtrSize, PtrSize.mk.injEq]
  exact ⟨Option.not_isSome_iff_eq_none.mp hsize, Option.not_isSome_iff_eq_none.mp hcount⟩

variable {pd : PDecl}

/-- The attributes of an array are numbers. -/
theorem names_convArrayToPtr {s : String} (h : (convArrayToPtr pd).1 = .ptPtr ty attr)
    (hs : attr.size.Names s) :
    ∃ ty' attr', pd.1 = .ptPtr ty' attr' ∧ attr'.size.Names s := by
  rcases pd with ⟨_ | ⟨ty', attr'⟩, declr⟩
  · cases h
  · simp only [convArrayToPtr] at h
    split at h
    · cases h
      rcases hs with hs | hs
      · cases hs
      · cases hs
    · cases h
      exact ⟨_, _, rfl, hs⟩

/-- A parameter and its conversion are foreign arrays at the same time. -/
theorem FuncDecl.Accepted.hasTmp_conv (hfd : fd.Accepted env) (hmem : pd ∈ fd.plist) :
    hasTmp (convArrayToPtr pd) = hasTmp pd := by
  rcases pd with ⟨_ | ⟨ty, attr⟩, declr⟩
  · rfl
  · simp only [convArrayToPtr]
    split_ifs with hary
    · have hnot := (hfd.of_isArray hmem hary).2
      have hforeign : isForeignArray (.ptPtr ty attr) = false := by
        cases ty with
        | foreign => exact hnot
        | _ => rfl
      simp only [hasTmp, isPtr, hforeign]
      rfl
    · rfl

/-- The declarations of a bridge. -/
abbrev FuncDecl.locals (fd : FuncDecl) : List Stmt := (genTbridgeLocalVars fd.plist).1

/-- The parameters that have a declaration for a length. -/
abbrev FuncDecl.cache (fd : FuncDecl) : List String := (genTbridgeLocalVars fd.plist).2

theorem FuncDecl.Accepted.cached (hfd : fd.Accepted env) :
    Orderly [] fd.locals ∧
      Cached (IntName env fd.plist) (fun y => ∃ pd ∈ fd.plist, hasTmp pd = true ∧ y = pd.2.identifier)
        fd.locals fd.cache := by
  have hnil : Cached (IntName env fd.plist) (fun _ => False) [] [] :=
    ⟨nofun, nofun,
      nofun, nofun, fun _ h => h.elim⟩
  have hnames : (fd.plist.map convArrayToPtr).map (fun pd => pd.2.identifier) =
      fd.plist.map fun pd => pd.2.identifier := by
    rw [List.map_map]
    exact map_congr_left fun pd _ => convArrayToPtr_identifier pd
  have hptr : ∀ pd ∈ fd.plist.map convArrayToPtr, isPtr pd.1 = true →
      ¬IntName env fd.plist pd.2.identifier := by
    intro pd hmem hptr
    obtain ⟨⟨pt, declr⟩, hpd, rfl⟩ := List.mem_map.mp hmem
    rw [convArrayToPtr_identifier]
    cases pt with
    | ptVal => cases hptr
    | ptPtr ty attr => exact hfd.not_intName hpd
  have hint : ∀ pd ∈ fd.plist.map convArrayToPtr, ∀ ty attr, pd.1 = .ptPtr ty attr →
      ∀ s, attr.size.Names s → IntName env fd.plist s := by
    intro pd hmem ty attr hpt s hs
    obtain ⟨⟨pt, declr⟩, hpd, rfl⟩ := List.mem_map.mp hmem
    obtain ⟨ty', attr', hpt', hs'⟩ := names_convArrayToPtr hpt hs
    obtain rfl : pt = .ptPtr ty' attr' := hpt'
    exact hfd.ints ty' attr' declr hpd s hs'
  obtain ⟨h₁, h₂⟩ := orderly_genLocalVars hnil (hnames ▸ hfd.nodup) (fun _ _ h => h) hptr hint
  refine ⟨h₁, ?_⟩
  have hsame : (fun y => False ∨ ∃ pd ∈ fd.plist.map convArrayToPtr, hasTmp pd = true ∧
      y = pd.2.identifier) = fun y => ∃ pd ∈ fd.plist, hasTmp pd = true ∧ y = pd.2.identifier := by
    funext y
    rw [false_or, eq_iff_iff]
    constructor
    · rintro ⟨_, hmem, htmp, rfl⟩
      obtain ⟨pd, hpd, rfl⟩ := List.mem_map.mp hmem
      exact ⟨pd, hpd, hfd.hasTmp_conv hpd ▸ htmp, convArrayToPtr_identifier pd⟩
    · rintro ⟨pd, hpd, htmp, rfl⟩
      exact ⟨_, List.mem_map_of_mem hpd, (hfd.hasTmp_conv hpd).trans htmp,
        (convArrayToPtr_identifier pd).symm⟩
  rw [hsame] at h₂
  exact h₂

/-- A pointer with a local copy. -/
theorem FuncDecl.Accepted.tmp_mem (hfd : fd.Accepted env) (hmem : pd ∈ fd.plist)
    (htmp : hasTmp pd = true) : Stmt.tmp pd.2.identifier ∈ fd.locals := by
  obtain ⟨cache, hsub⟩ := subset_genLocalVars [] (List.mem_map_of_mem (f := convArrayToPtr) hmem)
  refine hsub ?_
  rw [← hfd.hasTmp_conv hmem] at htmp
  rw [← convArrayToPtr_identifier]
  generalize convArrayToPtr pd = pd at htmp
  rcases pd with ⟨_ | ⟨ty, attr⟩, declr⟩
  · cases htmp
  · simp only [genLocalVar]
    split_ifs with hary
    · rw [genLocalVarForForeignArray]
      split
      · rename_i hdir
        simp only [hasTmp, hary, ptrHasDirection, hdir] at htmp
        cases htmp
      · exact mem_cons_self
    · exact mem_cons_self

/-- The length of a pointer with attributes of size. -/
theorem FuncDecl.Accepted.len_mem (hfd : fd.Accepted env)
    (hmem : (ParamType.ptPtr ty attr, declr) ∈ fd.plist) (hsize : attr.size ≠ emptyPtrSize)
    (hchk : attr.chkptr = true) (hary : attr.isary = false) (hstr : attr.isstr = false)
    (hwstr : attr.iswstr = false) :
    Stmt.len declr.identifier (.attrs ty attr) ∈ fd.locals := by
  obtain ⟨cache, hsub⟩ := subset_genLocalVars [] (List.mem_map_of_mem (f := convArrayToPtr) hmem)
  refine hsub ?_
  have hdims : ¬declr.isArray = true := fun h => hsize (hfd.of_isArray hmem h).1
  have hforeign : ¬isForeignArray (.ptPtr ty attr) = true := by
    cases ty with
    | foreign =>
      rw [isForeignArray, hary]
      exact Bool.false_ne_true
    | _ => exact Bool.false_ne_true
  simp only [convArrayToPtr, if_neg hdims, genLocalVar, if_neg hforeign, doGenLocalVar, hchk, if_true,
    genPtrSize, hary, hstr, hwstr, Bool.or_self, Bool.false_eq_true, if_false]
  exact mem_cons_of_mem _ (mem_append_left _ (mem_append_right _
    (mem_singleton_self _)))

/-- **Local variables.**  The declarations of a bridge are run to their end. -/
theorem declared_locals (M : Machine) (h : Host) (hfd : fd.Accepted M.env) :
    ∃ s, execAll M h fd.plist fd.locals State.init = (s, none) ∧
      Declared M fd.plist fd.locals s :=
  (declared_init M fd.plist).execAll hfd.cached.1

end Accepted

end Edger8r
