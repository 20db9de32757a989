/-
Linked lists of nodes (`node.cpp`).

A `Node` has a key, a value and a link; a pool has a pointer to the first one.  A new
node is linked in behind the first one, so that the pointer to the list changes only if the
list was empty or its first node is taken out.

* `Rep n l` — the nodes that are linked from the head hold the pairs of `l`;
* `bind`, `unbind`, `collect` — what the pools do with their lists, with their effect on `l`.
-/
import LinuxSgx.Lib.Fifo


namespace Urts

open List Function

/-- A list with the memory of its nodes; `fresh` is the address of the next node. -/
structure NodeList (K V : Type) where
  head : Option ℕ
  key : ℕ → K
  value : ℕ → V
  next : ℕ → Option ℕ
  fresh : ℕ

namespace NodeList

variable {K V : Type} {n n' : NodeList K V} {k : K} {v : V}

/-- The nodes linked from the head, in the order of the links. -/
structure Linked (n : NodeList K V) (ps : List ℕ) : Prop where
  path : LinkPath n.next n.head ps none
  nodup : ps.Nodup
  lt : ∀ p ∈ ps, p < n.fresh

/-- The pair in a node. -/
def pair (n : NodeList K V) (p : ℕ) : K × V := (n.key p, n.value p)

/-- The list holds the pairs of `l`. -/
def Rep (n : NodeList K V) (l : List (K × V)) : Prop := ∃ ps, n.Linked ps ∧ l = ps.map n.pair

/-! ### The operations -/

/-- `Node::Find`. -/
def findFrom [DecidableEq K] (n : NodeList K V) (k : K) : ℕ → Option ℕ → Option ℕ
  | 0, _ => none
  | _ + 1, none => none
  | m + 1, some c => if n.key c = k then some c else n.findFrom k m (n.next c)

def find [DecidableEq K] (n : NodeList K V) (k : K) : Option ℕ := n.findFrom k (n.fresh + 1) n.head

def findValue [DecidableEq K] (n : NodeList K V) (k : K) : Option V := (n.find k).map n.value

/-- A new node without a link. -/
def alloc (n : NodeList K V) (k : K) (v : V) : NodeList K V :=
  { n with
    key := update n.key n.fresh k
    value := update n.value n.fresh v
    next := update n.next n.fresh none
    fresh := n.fresh + 1 }

/-- A new node in an empty list, or `Node::InsertNext` on the first one, which fails if the key
is there already. -/
def bind [DecidableEq K] (n : NodeList K V) (k : K) (v : V) : NodeList K V × Bool :=
  match n.head with
  | none => ({ n.alloc k v with head := some n.fresh }, true)
  | some h =>
    match n.find k with
    | some _ => (n, false)
    | none =>
      let next := update (update n.next n.fresh (n.next h)) h (some n.fresh)
      ({ n.alloc k v with next := next }, true)

/-- The loop of `Node::Remove`: the node with the key, and the links without it. -/
def removeFrom [DecidableEq K] (n : NodeList K V) (k : K) : ℕ → ℕ → ℕ → Option (ℕ × (ℕ → Option ℕ))
  | 0, _, _ => none
  | m + 1, p, c =>
    if n.key c = k then some (c, update n.next p (n.next c))
    else
      match n.next c with
      | none => none
      | some d => n.removeFrom k m c d

/-- `Node::Remove`, with the pointer to the list corrected by the caller if it was the first
node. -/
def unbind [DecidableEq K] (n : NodeList K V) (k : K) : NodeList K V × Option V :=
  match n.head with
  | none => (n, none)
  | some h =>
    match n.removeFrom k (n.fresh + 1) h h with
    | none => (n, none)
    | some (c, next) =>
      ({ n with next := next, head := if c = h then next c else some h }, some (n.value c))

/-- The node in front of `c`, if there is one, is linked to the one behind it. -/
def relink (next : ℕ → Option ℕ) (c : ℕ) : Option ℕ → ℕ → Option ℕ
  | none => next
  | some p => update next p (next c)

/-- The list without the node `c`. -/
def skip (n : NodeList K V) (pre : Option ℕ) (c : ℕ) : NodeList K V :=
  { n with
    head := if n.head = some c then n.next c else n.head
    next := relink n.next c pre }

/-- The loop of `garbage_collect`: nodes that satisfy `dead` are taken out, their values in the
order in which they are met. -/
def collectFrom (dead : K → V → Bool) :
    ℕ → Option ℕ → Option ℕ → NodeList K V → NodeList K V × List V
  | 0, _, _, n => (n, [])
  | _ + 1, _, none, n => (n, [])
  | m + 1, pre, some c, n =>
    if dead (n.key c) (n.value c) then
      let r := collectFrom dead m pre (n.next c) (n.skip pre c)
      (r.1, n.value c :: r.2)
    else collectFrom dead m (some c) (n.next c) n

def collect (dead : K → V → Bool) (n : NodeList K V) : NodeList K V × List V :=
  collectFrom dead (n.fresh + 1) none n.head n

/-- All values, in the order of the links. -/
def values (n : NodeList K V) : List V := ((walk n.next (n.fresh + 1) n.head).getD []).map n.value

/-- All pairs, in the order of the links. -/
def pairs (n : NodeList K V) : List (K × V) := ((walk n.next (n.fresh + 1) n.head).getD []).map n.pair

def empty (k : K) (v : V) : NodeList K V := ⟨none, fun _ => k, fun _ => v, fun _ => none, 0⟩

/-- The list after all its nodes were deleted. -/
def clear (n : NodeList K V) : NodeList K V := { n with head := none }

/-! ### What compares no keys -/

theorem rep_empty {v : V} : (empty k v).Rep [] := by
  refine ⟨[], ⟨rfl, nodup_nil, fun p hp => ?_⟩, rfl⟩
  cases hp

variable {ps : List ℕ}

/-- A list of addresses below `fresh` is shorter than the bound on the loops. -/
theorem Linked.length_lt (h : n.Linked ps) : ps.length < n.fresh + 1 := by
  have hsub : ps ⊆ List.range n.fresh := fun p hp => mem_range.mpr (h.lt p hp)
  have hle := (subperm_of_subset h.nodup hsub).length_le
  rw [length_range] at hle
  omega

variable {l : List (K × V)}

theorem pairs_eq (h : n.Rep l) : n.pairs = l := by
  obtain ⟨ps, hps, rfl⟩ := h
  rw [pairs, walk_of_path hps.path hps.length_lt]
  rfl

theorem values_eq (h : n.Rep l) : n.values = l.map Prod.snd := by
  rw [← pairs_eq h, values, pairs, List.map_map]
  rfl

theorem rep_clear : n.clear.Rep [] := by
  refine ⟨[], ⟨rfl, nodup_nil, fun p hp => ?_⟩, rfl⟩
  cases hp

/-- A new pair behind the first one. -/
def insertSecond (e : K × V) : List (K × V) → List (K × V)
  | [] => [e]
  | x :: l => x :: e :: l

theorem mem_insertSecond {e x : K × V} : x ∈ insertSecond e l ↔ x = e ∨ x ∈ l := by
  cases l with
  | nil => simp [insertSecond]
  | cons y l =>
    simp only [insertSecond, mem_cons]
    exact or_left_comm

theorem insertSecond_perm {e : K × V} : (insertSecond e l).Perm (e :: l) := by
  cases l with
  | nil => exact List.Perm.refl _
  | cons x l => exact List.Perm.swap _ _ _

/-- If the node `c` is skipped, the pointer to the list changes or the link in front of it. -/
theorem Linked.skip {kept rest : List ℕ} {c : ℕ} (h : n.Linked (kept ++ c :: rest)) :
    (n.skip kept.getLast? c).Linked (kept ++ rest) := by
  have hsub : (kept ++ rest).Sublist (kept ++ c :: rest) :=
    List.Sublist.append_left (sublist_cons_self c rest) kept
  refine ⟨?_, h.nodup.sublist hsub, fun p hp => h.lt p (hsub.mem hp)⟩
  rcases eq_nil_or_concat kept with rfl | ⟨kept, q, rfl⟩
  · show LinkPath n.next (if n.head = some c then n.next c else n.head) rest none
    rw [if_pos h.path.1]
    exact h.path.2
  · rw [concat_eq_append] at h ⊢
    have hpath := h.path
    have hnd := h.nodup
    have hne : n.head ≠ some c := by
      intro hc
      refine (nodup_append.mp hnd).2.2 c ?_ c mem_cons_self rfl
      rw [hc] at hpath
      cases kept with
      | nil =>
        cases hpath.1
        exact mem_singleton_self _
      | cons x kept =>
        cases hpath.1
        exact mem_cons_self
    show LinkPath (relink n.next c (kept ++ [q]).getLast?)
      (if n.head = some c then n.next c else n.head) _ none
    rw [List.append_assoc, singleton_append] at hpath hnd
    rw [if_neg hne, List.getLast?_concat, List.append_assoc, singleton_append]
    exact hpath.unlink hnd

variable {dead : K → V → Bool}

/-- The loop of the garbage collection; `kept` are the nodes it has passed. -/
theorem collectFrom_spec (m : ℕ) :
    ∀ {n : NodeList K V} {kept rest : List ℕ}, n.Linked (kept ++ rest) → rest.length < m →
      ∃ n', collectFrom dead m kept.getLast? rest.head? n
          = (n', (rest.filter fun c => dead (n.key c) (n.value c)).map n.value) ∧
        n'.Linked (kept ++ rest.filter fun c => !dead (n.key c) (n.value c)) ∧
        n'.key = n.key ∧ n'.value = n.value := by
  induction m with
  | zero =>
    intro n kept rest _ hm
    cases hm
  | succ m ih =>
    intro n kept rest h hm
    cases rest with
    | nil => exact ⟨n, rfl, h, rfl, rfl⟩
    | cons c rest =>
      have hm := Nat.lt_of_succ_lt_succ hm
      -- the node that the loop looks at next
      have hnext : n.next c = rest.head? := by
        obtain ⟨q, -, -, hrest⟩ := linkPath_append.mp h.path
        cases rest with
        | nil => exact hrest
        | cons d rest => exact hrest.1
      rw [List.head?_cons, collectFrom]
      by_cases hdead : dead (n.key c) (n.value c) = true
      · have hfilter : (c :: rest).filter (fun c => dead (n.key c) (n.value c))
            = c :: rest.filter fun c => dead (n.key c) (n.value c) := filter_cons_of_pos hdead
        obtain ⟨n', hn', hl, hkey, hval⟩ := ih h.skip hm
        refine ⟨n', ?_, ?_, hkey, hval⟩
        · rw [if_pos hdead, hfilter]
          show ((collectFrom dead m _ (n.next c) _).1, n.value c :: _) = _
          rw [hnext, hn']
          rfl
        · rw [filter_cons_of_neg (by simpa using hdead)]
          exact hl
      · rw [if_neg hdead, hnext]
        rw [append_cons] at h
        obtain ⟨n', hn', hl, hkey, hval⟩ := ih h hm
        rw [List.getLast?_concat] at hn'
        refine ⟨n', ?_, ?_, hkey, hval⟩
        · rw [hn', filter_cons_of_neg (by simpa using hdead)]
        · rw [filter_cons_of_pos (by simpa using hdead), append_cons]
          exact hl

theorem collect_spec (h : n.Rep l) :
    (n.collect dead).2 = (l.filter fun e => dead e.1 e.2).map Prod.snd ∧
      (n.collect dead).1.Rep (l.filter fun e => !dead e.1 e.2) := by
  obtain ⟨ps, hps, rfl⟩ := h
  have hhead : n.head = ps.head? := by
    cases ps with
    | nil => exact hps.path
    | cons c ps => exact hps.path.1
  have hps' : n.Linked ([] ++ ps) := hps
  obtain ⟨n', hn', hl, hkey, hval⟩ := collectFrom_spec (n.fresh + 1) hps' hps.length_lt
  have hcollect : n.collect dead = (n', (ps.filter fun c => dead (n.key c) (n.value c)).map n.value) := by
    rw [collect, hhead]
    exact hn'
  rw [hcollect]
  refine ⟨?_, ps.filter fun c => !dead (n.key c) (n.value c), hl, ?_⟩
  · rw [List.filter_map, List.map_map]
    rfl
  · rw [List.filter_map]
    refine map_congr_left fun c _ => ?_
    rw [pair, pair, hkey, hval]

/-! ### What looks for a key -/

variable [DecidableEq K]

theorem findFrom_eq (m : ℕ) :
    ∀ {p : Option ℕ} {ps : List ℕ}, LinkPath n.next p ps none → ps.length < m →
      n.findFrom k m p = ps.find? fun c => n.key c = k := by
  induction m with
  | zero =>
    intro p ps _ hm
    cases hm
  | succ m ih =>
    intro p ps h hm
    cases ps with
    | nil =>
      rw [show p = none from h]
      rfl
    | cons c ps =>
      obtain ⟨rfl, h⟩ := h
      rw [findFrom, List.find?_cons, ih h (Nat.lt_of_succ_lt_succ hm)]
      split <;> simp_all

theorem find_eq (h : n.Linked ps) : n.find k = ps.find? fun c => n.key c = k :=
  findFrom_eq _ h.path h.length_lt

theorem findValue_eq (h : n.Rep l) : n.findValue k = (l.find? fun e => e.1 = k).map Prod.snd := by
  obtain ⟨ps, hps, rfl⟩ := h
  rw [findValue, find_eq hps, List.find?_map, Option.map_map]
  rfl

theorem find_eq_none_iff (h : n.Linked ps) :
    n.find k = none ↔ k ∉ (ps.map n.pair).map Prod.fst := by
  rw [find_eq h, List.find?_eq_none]
  simp [pair]

/-- A pair is added, unless its key is there already. -/
theorem bind_spec (h : n.Rep l) :
    if k ∈ l.map Prod.fst then n.bind k v = (n, false)
    else (n.bind k v).2 = true ∧ (n.bind k v).1.Rep (insertSecond (k, v) l) := by
  obtain ⟨ps, hps, rfl⟩ := h
  have hnew : ∀ p ∈ ps, p ≠ n.fresh := fun p hp => (hps.lt p hp).ne
  have hpairs : ps.map (n.alloc k v).pair = ps.map n.pair := by
    refine map_congr_left fun p hp => ?_
    simp [pair, alloc, update_of_ne (hnew p hp)]
  have hfresh : (n.alloc k v).pair n.fresh = (k, v) := by
    simp [pair, alloc]
  cases ps with
  | nil =>
    -- the first node of the list
    have hhead : n.head = none := hps.path
    rw [if_neg (by simp)]
    rw [bind, hhead]
    refine ⟨rfl, [n.fresh], ⟨⟨rfl, ?_⟩, nodup_singleton _, ?_⟩, ?_⟩
    · exact update_self (β := fun _ => Option ℕ) n.fresh none n.next
    · intro p hp
      cases mem_singleton.mp hp
      exact Nat.lt_succ_self _
    · exact congrArg (· :: []) hfresh.symm
  | cons c ps =>
    have hhead : n.head = some c := hps.path.1
    have hfind := find_eq_none_iff (k := k) hps
    by_cases hk : k ∈ ((c :: ps).map n.pair).map Prod.fst
    · rw [if_pos hk]
      cases hf : n.find k with
      | none => exact absurd hk (hfind.mp hf)
      | some d =>
        rw [bind, hhead]
        show (match n.find k with | some _ => _ | none => _) = _
        rw [hf]
    · rw [if_neg hk]
      have hbind : n.bind k v = ({ n.alloc k v with
          next := update (update n.next n.fresh (n.next c)) c (some n.fresh) },
          true) := by
        rw [bind, hhead]
        show (match n.find k with | some _ => _ | none => _) = _
        rw [hfind.mpr hk]
      rw [hbind]
      have hnot : n.fresh ∉ c :: ps := fun hp => hnew _ hp rfl
      have hnd := nodup_cons.mp hps.nodup
      refine ⟨rfl, c :: n.fresh :: ps, ⟨hps.path.insertSecond hnd.1 hnot, ?_, ?_⟩, ?_⟩
      · rw [nodup_cons, nodup_cons]
        refine ⟨fun hc => ?_, fun hf => hnot (mem_cons_of_mem c hf), hnd.2⟩
        rcases mem_cons.mp hc with hc | hc
        · exact hnew c mem_cons_self hc
        · exact hnd.1 hc
      · intro p hp
        rcases mem_cons.mp hp with rfl | hp
        · exact Nat.lt_succ_of_lt (hps.lt p mem_cons_self)
        · rcases mem_cons.mp hp with rfl | hp
          · exact Nat.lt_succ_self _
          · exact Nat.lt_succ_of_lt (hps.lt p (mem_cons_of_mem c hp))
      · rw [← hpairs, map_cons, insertSecond, ← hfresh]
        rfl

theorem removeFrom_eq_none (m : ℕ) :
    ∀ {p c : ℕ} {ps : List ℕ}, LinkPath n.next (some c) (c :: ps) none →
      (∀ d ∈ c :: ps, n.key d ≠ k) → n.removeFrom k m p c = none := by
  induction m with
  | zero => exact fun _ _ => rfl
  | succ m ih =>
    intro p c ps h hk
    rw [removeFrom, if_neg (hk c mem_cons_self)]
    cases ps with
    | nil => rw [show n.next c = none from h.2]
    | cons d ps =>
      rw [show n.next c = some d from h.2.1]
      exact ih ⟨rfl, h.2.2⟩ fun e he => hk e (mem_cons_of_mem c he)

variable {qs : List ℕ}

/-- The loop stops at the first node `d` with the key; `q` is the node in front of it. -/
theorem removeFrom_eq_some {d q : ℕ} (hd : n.key d = k) (m : ℕ) :
    ∀ {p c : ℕ} {ps : List ℕ}, LinkPath n.next (some p) (ps ++ q :: d :: qs) none → n.next p = some c →
      (∀ e ∈ ps ++ [q], e ≠ p → n.key e ≠ k) → (ps ++ [q]).Nodup → ps.length < m →
      n.removeFrom k m p c = some (d, update n.next q (n.next d)) := by
  induction m with
  | zero =>
    intro p c ps _ _ _ _ hm
    cases hm
  | succ m ih =>
    intro p c ps h hc hk hnd hm
    cases ps with
    | nil =>
      obtain ⟨hp, hq, -⟩ := h
      cases hp
      rw [hq] at hc
      cases hc
      rw [removeFrom, if_pos hd]
    | cons p' ps =>
      obtain ⟨hp, h⟩ := h
      cases hp
      rw [List.cons_append, nodup_cons] at hnd
      -- the key is not at the current node, so the loop goes one on
      have hcmem : c ∈ ps ++ [q] ∧ LinkPath n.next (some c) (ps ++ q :: d :: qs) none := by
        rw [hc] at h
        cases ps with
        | nil =>
          cases h.1
          exact ⟨mem_singleton_self _, h⟩
        | cons e ps =>
          cases h.1
          exact ⟨mem_cons_self, h⟩
      have hkc : n.key c ≠ k :=
        hk c (mem_cons_of_mem p hcmem.1) fun he => hnd.1 (he ▸ hcmem.1)
      obtain ⟨e, he⟩ : ∃ e, n.next c = some e := by
        have h := hcmem.2
        cases ps with
        | nil =>
          cases h.1
          exact ⟨d, h.2.1⟩
        | cons x ps =>
          cases h.1
          cases ps with
          | nil => exact ⟨q, h.2.1⟩
          | cons y ps => exact ⟨y, h.2.1⟩
      rw [removeFrom, if_neg hkc, he]
      refine ih hcmem.2 he (fun x hx hxc => hk x (mem_cons_of_mem p hx) ?_) hnd.2
        (Nat.lt_of_succ_lt_succ hm)
      exact fun hxp => hnd.1 (hxp ▸ hx)

/-- `Remove` skips the first node `d` with the key. -/
theorem unbind_eq_skip {d : ℕ} (h : n.Linked (ps ++ d :: qs)) (hps : ∀ e ∈ ps, n.key e ≠ k)
    (hd : n.key d = k) :
    n.unbind k = (n.skip ps.getLast? d, some (n.value d)) := by
  have hpath := h.path
  rcases eq_nil_or_concat ps with rfl | ⟨ps, q, rfl⟩
  · have hhead : n.head = some d := hpath.1
    have hremove : n.removeFrom k (n.fresh + 1) d d = some (d, n.next) := by
      rw [removeFrom, if_pos hd, update_eq_self]
    rw [unbind, hhead]
    show (match n.removeFrom k (n.fresh + 1) d d with | none => _ | some (_, _) => _) = _
    rw [hremove]
    show ({ n with next := n.next, head := if d = d then n.next d else some d }, _) = _
    rw [if_pos rfl, skip, if_pos hhead]
    rfl
  · rw [concat_eq_append] at h hps hpath ⊢
    have hnd := h.nodup
    have hlt := h.length_lt
    obtain ⟨b, e, hb, he⟩ : ∃ b e, n.head = some b ∧ n.next b = some e ∧ b ∈ ps ++ [q] := by
      cases ps with
      | nil => exact ⟨q, d, hpath.1, hpath.2.1, mem_singleton_self q⟩
      | cons b ps =>
        cases ps with
        | nil => exact ⟨b, q, hpath.1, hpath.2.1, mem_cons_self⟩
        | cons e ps => exact ⟨b, e, hpath.1, hpath.2.1, mem_cons_self⟩
    have hbd : d ≠ b := fun hdb => hps b he.2 (hdb ▸ hd)
    -- the first round of the loop looks at the first node with itself in front of it
    have hremove : n.removeFrom k (n.fresh + 1) b b
        = some (d, update n.next q (n.next d)) := by
      rw [removeFrom, if_neg (hps b he.2), he.1]
      rw [List.append_assoc, singleton_append, hb] at hpath
      refine removeFrom_eq_some hd _ hpath he.1 (fun x hx _ => hps x hx) ?_ ?_
      · exact (nodup_append.mp hnd).1
      · simp only [length_append, length_cons, length_nil] at hlt
        omega
    rw [unbind, hb]
    show (match n.removeFrom k (n.fresh + 1) b b with | none => _ | some (_, _) => _) = _
    rw [hremove, List.getLast?_concat]
    show ({ n with next := _, head := if d = b then _ else some b }, _) = _
    rw [if_neg hbd, skip, if_neg (fun hbd' => hbd (Option.some.inj (hbd'.symm.trans hb))), hb]
    rfl

/-- The first pair with the key is taken out. -/
theorem unbind_spec (h : n.Rep l) :
    (n.unbind k).2 = (l.find? fun e => e.1 = k).map Prod.snd ∧
      (n.unbind k).1.Rep (l.eraseP fun e => e.1 = k) := by
  obtain ⟨ps, hps, rfl⟩ := h
  rw [List.find?_map, eraseP_map, Option.map_map]
  by_cases hk : ∃ d ∈ ps, n.key d = k
  · obtain ⟨d, hd, hdk⟩ := hk
    obtain ⟨d, as, bs, has, hdk, rfl, herase⟩ := exists_of_eraseP
      (p := (fun e : K × V => decide (e.1 = k)) ∘ n.pair) hd (decide_eq_true hdk)
    have hne : ∀ e ∈ as, n.key e ≠ k := fun e he hek => has e he (decide_eq_true hek)
    rw [unbind_eq_skip hps hne (of_decide_eq_true hdk), herase]
    constructor
    · rw [List.find?_append, List.find?_eq_none.mpr has, List.find?_cons_of_pos hdk]
      rfl
    · exact ⟨as ++ bs, hps.skip, rfl⟩
  · have hnone : ∀ d ∈ ps, n.key d ≠ k := fun d hd hdk => hk ⟨d, hd, hdk⟩
    have hunbind : n.unbind k = (n, none) := by
      cases ps with
      | nil => rw [unbind, show n.head = none from hps.path]
      | cons c ps =>
        have hpath := hps.path
        rw [show n.head = some c from hpath.1] at hpath
        rw [unbind, show n.head = some c from hps.path.1]
        show (match n.removeFrom k (n.fresh + 1) c c with | none => _ | some (_, _) => _) = _
        rw [removeFrom_eq_none _ hpath hnone]
    have hfalse : ∀ d ∈ ps, ¬ ((fun e : K × V => decide (e.1 = k)) ∘ n.pair) d = true :=
      fun d hd hdk => hnone d hd (of_decide_eq_true hdk)
    rw [hunbind, List.find?_eq_none.mpr hfalse, eraseP_of_forall_not hfalse]
    exact ⟨rfl, ps, hps, rfl⟩

/-- With unique keys, the first pair with the key is the pair. -/
theorem perm_eraseP (hkeys : (l.map Prod.fst).Nodup) (h : (k, v) ∈ l) :
    l.Perm ((k, v) :: l.eraseP fun e => e.1 = k) := by
  obtain ⟨e, l₁, l₂, -, he, hl, herase⟩ := exists_of_eraseP
    (p := fun e : K × V => decide (e.1 = k)) h (decide_eq_true rfl)
  have hmem : e ∈ l := hl ▸ mem_append_right l₁ mem_cons_self
  have hev : e = (k, v) := inj_on_of_nodup_map hkeys hmem h (of_decide_eq_true he)
  rw [herase, ← hev]
  exact hl ▸ perm_middle

theorem findValue_eq_none (h : n.Rep l) : n.findValue k = none ↔ k ∉ l.map Prod.fst := by
  rw [findValue_eq h, Option.map_eq_none_iff, List.find?_eq_none, List.mem_map]
  constructor
  · rintro hnone ⟨e, he, rfl⟩
    exact hnone e he (decide_eq_true rfl)
  · intro hnone e he hek
    exact hnone ⟨e, he, of_decide_eq_true hek⟩

theorem mem_of_findValue (h : n.Rep l) (hv : n.findValue k = some v) : (k, v) ∈ l := by
  rw [findValue_eq h] at hv
  obtain ⟨e, he, rfl⟩ := Option.map_eq_some_iff.mp hv
  have hkey : e.1 = k := by simpa using List.find?_some he
  rw [← hkey]
  exact List.mem_of_find?_eq_some he

end NodeList

end Urts
