/-
Operations on attestation contexts that overlap.

Every thread is in the middle of one operation.  An operation reads the pointer to its item from
the table under the lock of the table; it uses the pointer later, under the lock of the item, and
`sgx_ra_get_msg3_trusted` once without any lock.  `sgx_ra_close` holds only the lock of the table.

A pointer is kept with the number of the item it was read for.  The number is not in the code: it
tells whether the memory still belongs to the item when the pointer is used.

* `Pc`, `Action`, `step` — where a thread is, and the sections as steps;
* `Action.access` — the pointer a step uses;
* `Quiet` — no context is closed while an operation on it is in flight;
* **`no_use_of_closed`** — then every pointer is used for the item it was read for, and the keys
  that are written were computed for that item;
* **`keys_of_closed_item`** — otherwise the keys of a closed item are written into its successor.
-/
import LinuxSgx.KeyExchange.Authenticated
import Mathlib.Data.Fintype.Basic

open Runs

namespace KeyExchange.InFlight

/-! ### The steps -/

/-- A pointer to an item, with the number of the item. -/
structure Handle where
  addr : ℕ
  gen : ℕ
  deriving DecidableEq

/-- What an operation returns. -/
inductive Reply where
  | none
  | context (context : ℕ)
  | gA (gA : Bytes)
  | report (report nonce : Bytes)
  | msg3 (m : Msg3)
  | key (key : Bytes)

/-- Where a thread is: between two operations, or in front of the next section of one. -/
inductive Pc where
  | done (r : Except Status Reply)
  | draw (x : InitArgs)
  | alloc (x : InitArgs)
  | insert (addr : ℕ)
  | getGa (h : Handle)
  | snapshot (h : Handle) (m : Msg2) (qeTarget : TargetInfo)
  | verify (h : Handle) (x : Snapshot) (m : Msg2) (qeTarget : TargetInfo)
  | commit (h : Handle) (keys : Keys) (m : Msg2) (qeTarget : TargetInfo) (nonce : Bytes)
  | msg3 (h : Handle) (x : Msg3Args)
  | nonce (h : Handle) (x : Msg3Args) (y : Bytes × Bytes × Bytes)
  | getKeys (h : Handle) (type : KeyType) (within : Bool)

/-- The pointer that an operation still holds. -/
def Pc.handle : Pc → Option Handle
  | .getGa h => some h
  | .snapshot h _ _ => some h
  | .verify h _ _ _ => some h
  | .commit h _ _ _ _ => some h
  | .msg3 h _ => some h
  | .nonce h _ _ => some h
  | .getKeys h _ _ => some h
  | _ => none

structure Threads (T : Type) where
  db : Db
  pc : T → Pc

/-- The sections.  The first group starts an operation. -/
inductive Action (T : Type) where
  | initEx (t : T) (x : InitArgs)
  | getGa (t : T) (context : ℕ) (valid : Bool)
  | procMsg2 (t : T) (context : ℕ) (valid : Bool) (m : Msg2) (qeTarget : TargetInfo)
  | getMsg3 (t : T) (context : ℕ) (x : Msg3Args)
  | getKeys (t : T) (context : ℕ) (type : KeyType) (valid within : Bool)
  | close (t : T) (context : ℕ)
  | draw (t : T) (rand : Option UInt64)
  | alloc (t : T) (f : Faults) (malloc : Option ℕ)
  | insert (t : T) (grow : Bool)
  | drawKey (t : T) (f : Faults) (priv : Bytes)
  | snapshot (t : T)
  | verify (t : T) (f : Faults) (nonce : Bytes)
  | commit (t : T) (f : Faults)
  | readItem (t : T)
  | readNonce (t : T) (f : Faults)
  | readKey (t : T)

section Step

variable {T : Type} [DecidableEq T]

def Threads.empty : Threads T := ⟨Db.empty, fun _ => .done (.ok .none)⟩

def Threads.setPc (s : Threads T) (t : T) (pc : Pc) : Threads T :=
  { s with pc := Function.update s.pc t pc }

/-- The end of an operation. -/
def Threads.finish (s : Threads T) (t : T) (r : Except Status Reply) : Threads T :=
  s.setPc t (.done r)

/-- A new operation starts with the pointer to its item. -/
def Threads.fetch (s : Threads T) (t : T) (context : ℕ) (valid : Bool) (next : Handle → Pc) :
    Option (Threads T) :=
  match s.pc t with
  | .done _ =>
    match (if valid then s.db.fetch context else none) with
    | none => some (s.finish t (.error .invalidParameter))
    | some addr => some (s.setPc t (next ⟨addr, (s.db.cell addr).gen⟩))
  | _ => none

/-- One section of one thread.  The cookie is drawn until it is not zero, and `malloc` returns
memory that is not in use. -/
def step (cr : Crypto) (a : Action T) (s : Threads T) : Option (Threads T) :=
  match a with
  | .initEx t x =>
    match s.pc t with
    | .done _ => some (s.setPc t (if s.db.cookie = 0 then .draw x else .alloc x))
    | _ => none
  | .draw t rand =>
    match s.pc t, rand with
    | .draw _, none => some (s.finish t (.error .unexpected))
    | .draw x, some rand =>
      if rand = 0 then none
      else some ({ s with db := s.db.setCookie rand }.setPc t (.alloc x))
    | _, _ => none
  | .alloc t f malloc =>
    match s.pc t with
    | .alloc x =>
      match checkInit cr f x, malloc with
      | .error e, _ => some (s.finish t (.error e))
      | .ok _, none => some (s.finish t (.error .outOfMemory))
      | .ok pubKey, some addr =>
        if (s.db.cell addr).live then none
        else
          some ({ s with db := s.db.alloc addr (Db.newItem s.db.cookie pubKey x.deriveKeyCb) }.setPc t
            (.insert addr))
    | _ => none
  | .insert t grow =>
    match s.pc t with
    | .insert addr =>
      let r := s.db.insert grow addr
      some ({ s with db := r.1 }.finish t (r.2.map .context))
    | _ => none
  | .getGa t context valid => s.fetch t context valid .getGa
  | .drawKey t f priv =>
    match s.pc t with
    | .getGa h =>
      match getGaItem cr f priv (s.db.cell h.addr).item with
      | .error e => some (s.finish t (.error e))
      | .ok (it, gA) => some ({ s with db := s.db.setItem h.addr it }.finish t (.ok (.gA gA)))
    | _ => none
  | .procMsg2 t context valid m qeTarget => s.fetch t context valid (.snapshot · m qeTarget)
  | .snapshot t =>
    match s.pc t with
    | .snapshot h m qeTarget =>
      match KeyExchange.snapshot s.db.cookie (s.db.cell h.addr).item with
      | .error e => some (s.finish t (.error e))
      | .ok x => some (s.setPc t (.verify h x m qeTarget))
    | _ => none
  | .verify t f nonce =>
    match s.pc t with
    | .verify h x m qeTarget =>
      match verifyMsg2 cr f x m with
      | .error e => some (s.finish t (.error e))
      | .ok keys => some (s.setPc t (.commit h keys m qeTarget nonce))
    | _ => none
  | .commit t f =>
    match s.pc t with
    | .commit h keys m qeTarget nonce =>
      let r := commitMsg2 cr f m keys qeTarget nonce (s.db.cell h.addr).item
      some ({ s with db := s.db.setItem h.addr r.1 }.finish t (r.2.map (.report · nonce)))
    | _ => none
  | .getMsg3 t context x => s.fetch t context (x.valid ∧ x.quoteSize ≠ 0) (.msg3 · x)
  | .readItem t =>
    match s.pc t with
    | .msg3 h x =>
      match (do checkMsg3 x; getMsg3Item x.report (s.db.cell h.addr).item) with
      | .error e => some (s.finish t (.error e))
      | .ok y => some (s.setPc t (.nonce h x y))
    | _ => none
  | .readNonce t f =>
    match s.pc t with
    | .nonce h x y =>
      let r := finishMsg3 cr f x.report x.quote (s.db.cell h.addr).item.quoteNonce y
      some (s.finish t (r.map .msg3))
    | _ => none
  | .getKeys t context type valid within => s.fetch t context valid (.getKeys · type within)
  | .readKey t =>
    match s.pc t with
    | .getKeys h type within =>
      let r := if within then getKeysItem type (s.db.cell h.addr).item else .error .invalidParameter
      some (s.finish t (r.map .key))
    | _ => none
  | .close t context =>
    match s.pc t with
    | .done _ =>
      let r := s.db.close context
      some ({ s with db := r.1 }.finish t (r.2.map fun _ => .none))
    | _ => none

/-- The pointer that a section uses. -/
def Action.access (s : Threads T) : Action T → Option Handle
  | .drawKey t _ _ => (s.pc t).handle
  | .snapshot t => (s.pc t).handle
  | .commit t _ => (s.pc t).handle
  | .readItem t => (s.pc t).handle
  | .readNonce t _ => (s.pc t).handle
  | .readKey t => (s.pc t).handle
  | _ => none

/-- A context is closed only while no operation holds a pointer to its item. -/
def Quiet [Fintype T] (s : Threads T) : Action T → Prop
  | .close _ context => ∀ t, ∀ h ∈ (s.pc t).handle, s.db.fetch context ≠ some h.addr
  | _ => True

instance [Fintype T] (s : Threads T) (a : Action T) : Decidable (Quiet s a) := by
  cases a <;> unfold Quiet <;> infer_instance

end Step

/-! ### The invariant -/

/-- The pointer is still in the table, and for the same item. -/
def Holds (db : Db) (h : Handle) : Prop :=
  (∃ c, db.fetch c = some h.addr) ∧ (db.cell h.addr).gen = h.gen

/-- A new item that is not in the table yet. -/
def Unlisted (db : Db) (addr : ℕ) : Prop :=
  (db.cell addr).live = true ∧ ∀ c, db.fetch c ≠ some addr

/-- The keys an item is checked with. -/
def exchange (db : Db) (h : Handle) : Snapshot := (db.cell h.addr).item.exchange db.cookie

/-- What is known of a thread: its pointer is good, and what it has computed belongs to the item. -/
def Pc.Ok (cr : Crypto) (db : Db) : Pc → Prop
  | .done _ => True
  | .draw _ => True
  | .alloc _ => db.cookie ≠ 0
  | .insert addr => db.cookie ≠ 0 ∧ Unlisted db addr
  | .getGa h => Holds db h
  | .snapshot h _ _ => Holds db h
  | .verify h x _ _ => Holds db h ∧ (db.cell h.addr).item.state ≠ .inited ∧ x = exchange db h
  | .commit h keys m _ _ => Holds db h ∧ (db.cell h.addr).item.state ≠ .inited ∧
      ∃ f, verifyMsg2 cr f (exchange db h) m = .ok keys
  | .msg3 h _ => Holds db h
  | .nonce h _ _ => Holds db h
  | .getKeys h _ _ => Holds db h

variable {T : Type} [DecidableEq T] {cr : Crypto} {db db' : Db} {s s' : Threads T} {t : T}
  {pc : Pc} {context addr : ℕ}

structure Inv (cr : Crypto) (s : Threads T) : Prop where
  live : ∀ c addr, s.db.fetch c = some addr → (s.db.cell addr).live = true
  distinct : ∀ c d addr, s.db.fetch c = some addr → s.db.fetch d = some addr → c = d
  drawn : ∀ c addr, s.db.fetch c = some addr → s.db.cookie ≠ 0
  thread : ∀ t, (s.pc t).Ok cr s.db
  owner : ∀ t u addr, s.pc t = .insert addr → s.pc u = .insert addr → t = u

/-- What a change of the table and of the items has to keep for a thread with the pointer `h`. -/
def Keeps (db db' : Db) (h : Handle) : Prop :=
  Holds db' h ∧ ((db.cell h.addr).item.state ≠ .inited →
    (db'.cell h.addr).item.state ≠ .inited ∧ exchange db' h = exchange db h)

/-- A change by another thread. -/
theorem Pc.Ok.transfer (h : pc.Ok cr db) (hcookie : db.cookie ≠ 0 → db'.cookie ≠ 0)
    (hheld : ∀ x, pc.handle = some x → Holds db x → Keeps db db' x)
    (hown : ∀ addr, pc = .insert addr → Unlisted db addr → Unlisted db' addr) : pc.Ok cr db' := by
  cases pc with
  | done | draw => exact trivial
  | alloc x => exact hcookie h
  | insert addr => exact ⟨hcookie h.1, hown addr rfl h.2⟩
  | getGa x | snapshot x | msg3 x | nonce x | getKeys x => exact (hheld x rfl h).1
  | verify x y m qeTarget =>
    obtain ⟨hx, hstate, hy⟩ := h
    obtain ⟨hx', hkeep⟩ := hheld x rfl hx
    obtain ⟨hstate', heq⟩ := hkeep hstate
    exact ⟨hx', hstate', hy.trans heq.symm⟩
  | commit x keys m qeTarget nonce =>
    obtain ⟨hx, hstate, f, hf⟩ := h
    obtain ⟨hx', hkeep⟩ := hheld x rfl hx
    obtain ⟨hstate', heq⟩ := hkeep hstate
    rw [← heq] at hf
    exact ⟨hx', hstate', f, hf⟩

variable {x : Handle}

theorem Pc.Ok.holds (h : pc.Ok cr db) (hx : pc.handle = some x) : Holds db x := by
  cases pc with
  | done | draw | alloc | insert => cases hx
  | getGa | snapshot | msg3 | nonce | getKeys => cases hx; exact h
  | verify | commit => cases hx; exact h.1

/-! ### Steps that change one thread only -/

@[simp] theorem pc_setPc_self : (s.setPc t pc).pc t = pc := Function.update_self ..

theorem pc_setPc_of_ne {u : T} (hu : u ≠ t) : (s.setPc t pc).pc u = s.pc u :=
  Function.update_of_ne hu ..

/-- The new table with the other threads as they were, and one thread that goes on. -/
theorem Inv.setPc {db : Db} (hlive : ∀ c addr, db.fetch c = some addr → (db.cell addr).live = true)
    (hdistinct : ∀ c d addr, db.fetch c = some addr → db.fetch d = some addr → c = d)
    (hdrawn : ∀ c addr, db.fetch c = some addr → db.cookie ≠ 0)
    (hothers : ∀ u, u ≠ t → (s.pc u).Ok cr db) (hself : pc.Ok cr db)
    (howner : ∀ t u addr, s.pc t = .insert addr → s.pc u = .insert addr → t = u)
    (hnew : ∀ addr, pc = .insert addr → ∀ u, u ≠ t → s.pc u ≠ .insert addr) :
    Inv cr ({ s with db := db }.setPc t pc) where
  live := hlive
  distinct := hdistinct
  drawn := hdrawn
  thread := by
    intro u
    by_cases hu : u = t
    · rw [hu, pc_setPc_self]
      exact hself
    · rw [pc_setPc_of_ne hu]
      exact hothers u hu
  owner := by
    intro u u' addr hu hu'
    by_cases hut : u = t
    · by_cases hut' : u' = t
      · rw [hut, hut']
      · rw [hut, pc_setPc_self] at hu
        rw [pc_setPc_of_ne hut'] at hu'
        exact absurd hu' (hnew addr hu u' hut')
    · rw [pc_setPc_of_ne hut] at hu
      by_cases hut' : u' = t
      · rw [hut', pc_setPc_self] at hu'
        exact absurd hu (hnew addr hu' u hut)
      · rw [pc_setPc_of_ne hut'] at hu'
        exact howner u u' addr hu hu'

/-- A step that changes neither the table nor an item. -/
theorem Inv.goOn (h : Inv cr s) (hself : pc.Ok cr s.db) (hnew : ∀ addr, pc ≠ .insert addr) :
    Inv cr (s.setPc t pc) :=
  Inv.setPc h.live h.distinct h.drawn (fun u _ => h.thread u) hself h.owner
    (fun addr heq => absurd heq (hnew addr))

theorem Inv.finish (h : Inv cr s) (r : Except Status Reply) : Inv cr (s.finish t r) :=
  h.goOn trivial nofun

theorem Inv.fetch (h : Inv cr s) {valid : Bool} {next : Handle → Pc}
    (hstep : s.fetch t context valid next = some s') (hok : ∀ x, Holds s.db x → (next x).Ok cr s.db)
    (hnew : ∀ x addr, next x ≠ .insert addr) : Inv cr s' := by
  rw [Threads.fetch] at hstep
  split at hstep
  · split at hstep
    · cases hstep
      exact h.finish _
    · rename_i addr hfetch
      cases hstep
      obtain ⟨-, haddr⟩ := Option.ite_none_right_eq_some.mp hfetch
      exact h.goOn (hok _ ⟨⟨context, haddr⟩, rfl⟩) (hnew _)
  · cases hstep

/-! ### Steps that change an item -/

/-- An item that has left its first state keeps the keys it is checked with. -/
def Advances (it it' : Item) : Prop :=
  it.state ≠ .inited → it'.state ≠ .inited ∧ ∀ cookie, it'.exchange cookie = it.exchange cookie

variable {it : Item}

theorem keeps_setItem (hadv : Advances (db.cell addr).item it) (hx : Holds db x) :
    Keeps db (db.setItem addr it) x := by
  by_cases heq : x.addr = addr
  · have hcell : (db.setItem addr it).cell x.addr = { db.cell x.addr with item := it } := by
      rw [heq]
      exact cell_setItem_self it
    refine ⟨⟨hx.1, ?_⟩, ?_⟩
    · rw [hcell]
      exact hx.2
    · intro hstate
      rw [heq] at hstate
      obtain ⟨hstate', hex⟩ := hadv hstate
      rw [hcell, exchange, hcell, exchange, heq]
      exact ⟨hstate', hex db.cookie⟩
  · have hcell : (db.setItem addr it).cell x.addr = db.cell x.addr := cell_setItem_of_ne heq it
    refine ⟨⟨hx.1, ?_⟩, ?_⟩
    · rw [hcell]
      exact hx.2
    · intro hstate
      rw [hcell, exchange, hcell]
      exact ⟨hstate, rfl⟩

theorem live_setItem {a : ℕ} : ((db.setItem addr it).cell a).live = (db.cell a).live := by
  by_cases heq : a = addr
  · rw [heq, cell_setItem_self]
  · rw [cell_setItem_of_ne heq]

/-- An operation writes its item and returns. -/
theorem Inv.setItem (h : Inv cr s) (r : Except Status Reply)
    (hadv : Advances (s.db.cell addr).item it) :
    Inv cr ({ s with db := s.db.setItem addr it }.finish t r) := by
  refine Inv.setPc ?_ h.distinct h.drawn ?_ trivial h.owner nofun
  · intro c a hc
    rw [live_setItem]
    exact h.live c a hc
  · intro u _
    refine (h.thread u).transfer (fun hne => hne) (fun x _ hx => keeps_setItem hadv hx) ?_
    intro a _ ha
    exact ⟨by rw [live_setItem]; exact ha.1, ha.2⟩

theorem advances_getGaItem {f : Faults} {priv : Bytes} {it' : Item} {gA : Bytes}
    (h : getGaItem cr f priv it = .ok (it', gA)) : Advances it it' := by
  obtain ⟨hstate, -⟩ := require_bind.mp h
  intro hne
  exact absurd hstate hne

theorem advances_commitMsg2 {f : Faults} {m : Msg2} {keys : Keys} {qeTarget : TargetInfo}
    {nonce : Bytes} :
    Advances it (commitMsg2 cr f m keys qeTarget nonce it).1 := by
  intro hne
  by_cases hstate : it.state = .getGaed
  · rcases commitMsg2_eq cr f m keys qeTarget nonce hstate with ⟨e, heq⟩ | ⟨r, heq⟩
    · rw [heq]
      exact ⟨hne, fun _ => rfl⟩
    · rw [heq]
      exact ⟨nofun, fun _ => rfl⟩
  · rw [commitMsg2, if_pos hstate]
    exact ⟨hne, fun _ => rfl⟩

/-! ### Steps that change the table -/

/-- The items in the table are as they were. -/
theorem keeps_of_eq (hx : Holds db x) (hfetch : ∃ c, db'.fetch c = some x.addr)
    (hcell : db'.cell x.addr = db.cell x.addr) (hcookie : db'.cookie = db.cookie) :
    Keeps db db' x := by
  refine ⟨⟨hfetch, ?_⟩, ?_⟩
  · rw [hcell]
    exact hx.2
  · intro hstate
    rw [hcell, exchange, hcell, hcookie]
    exact ⟨hstate, rfl⟩

/-- A step that puts no new item into the table and leaves those that are in use. -/
theorem Inv.change (h : Inv cr s)
    (hback : ∀ d a, db.fetch d = some a → s.db.fetch d = some a ∧ db.cell a = s.db.cell a)
    (hcookie : db.cookie = s.db.cookie)
    (hheld : ∀ u x, (s.pc u).handle = some x → ∃ d, db.fetch d = some x.addr)
    (hown : ∀ u a, u ≠ t → s.pc u = .insert a → db.cell a = s.db.cell a) (hself : pc.Ok cr db)
    (hnew : ∀ addr, pc = .insert addr → ∀ u, u ≠ t → s.pc u ≠ .insert addr) :
    Inv cr ({ s with db := db }.setPc t pc) := by
  refine Inv.setPc (fun d a hd => ?_) (fun d d' a hd hd' => ?_) (fun d a hd => ?_) (fun u hu => ?_)
    hself h.owner hnew
  · rw [(hback d a hd).2]
    exact h.live d a (hback d a hd).1
  · exact h.distinct d d' a (hback d a hd).1 (hback d' a hd').1
  · rw [hcookie]
    exact h.drawn d a (hback d a hd).1
  · refine (h.thread u).transfer (fun hne => hcookie ▸ hne) (fun x hx hholds => ?_) fun a ha hun => ?_
    · obtain ⟨d, hd⟩ := hheld u x hx
      exact keeps_of_eq hholds ⟨d, hd⟩ (hback d _ hd).2 hcookie
    · rw [Unlisted, hown u a hu ha]
      exact ⟨hun.1, fun d hd => hun.2 d (hback d a hd).1⟩

/-- The cookie is written while the table is empty, or not at all. -/
theorem Inv.draw (h : Inv cr s) {rand : UInt64} {x : InitArgs} (hrand : rand ≠ 0) :
    Inv cr ({ s with db := s.db.setCookie rand }.setPc t (.alloc x)) := by
  by_cases hzero : s.db.cookie = 0
  · have hdb : s.db.setCookie rand = { s.db with cookie := rand } := if_pos hzero
    rw [hdb]
    refine Inv.setPc h.live h.distinct (fun _ _ _ => hrand) ?_ hrand h.owner
      nofun
    intro u _
    refine (h.thread u).transfer (fun hne => absurd hzero hne) ?_ (fun _ _ ha => ha)
    intro y _ hy
    obtain ⟨⟨c, hc⟩, -⟩ := hy
    exact absurd hzero (h.drawn c y.addr hc)
  · have hdb : s.db.setCookie rand = s.db := if_neg hzero
    rw [hdb]
    exact h.goOn hzero nofun

/-- New memory is not in use, so no item and no other new item is in it. -/
theorem Inv.alloc (h : Inv cr s) (hdead : (s.db.cell addr).live ≠ true)
    (hcookie : s.db.cookie ≠ 0) :
    Inv cr ({ s with db := s.db.alloc addr it }.setPc t (.insert addr)) := by
  have hcell : ∀ a, (s.db.cell a).live = true → (s.db.alloc addr it).cell a = s.db.cell a := by
    intro a ha
    refine Function.update_of_ne ?_ ..
    intro heq
    rw [heq] at ha
    exact hdead ha
  have hnew : (s.db.alloc addr it).cell addr = ⟨true, s.db.nextGen, it⟩ := Function.update_self ..
  have hlisted : ∀ c, s.db.fetch c ≠ some addr := fun c hc => hdead (h.live c addr hc)
  refine h.change (fun d a hd => ⟨hd, hcell a (h.live d a hd)⟩) rfl
    (fun u x hx => ((h.thread u).holds hx).1) (fun u a _ hu => ?_) ⟨hcookie, ?_, hlisted⟩ ?_
  · have hok := h.thread u
    rw [hu] at hok
    exact hcell a hok.2.1
  · rw [hnew]
  · intro a heq u _ hu
    cases heq
    have hok := h.thread u
    rw [hu] at hok
    exact hdead hok.2.1

/-- The new item is put into an empty slot, or its memory is given back. -/
theorem Inv.insert (h : Inv cr s) {grow : Bool} (r : Except Status Reply)
    (hpc : s.pc t = .insert addr) :
    Inv cr ({ s with db := (s.db.insert grow addr).1 }.finish t r) := by
  have hok := h.thread t
  rw [hpc] at hok
  obtain ⟨hcookie, hlive, hlisted⟩ := hok
  -- another new item lies somewhere else
  have hother : ∀ u, u ≠ t → ∀ a, s.pc u = .insert a → a ≠ addr := by
    intro u hu a ha heq
    rw [heq] at ha
    exact hu (h.owner u t addr ha hpc)
  rcases insert_spec s.db grow addr with ⟨e, heq⟩ | ⟨db, c, heq, hnone, hsome, hfetch, hcell, hck⟩
  · rw [heq]
    have hkeep : ∀ a, a ≠ addr → (s.db.free addr).cell a = s.db.cell a :=
      fun a ha => Function.update_of_ne ha ..
    have hne : ∀ c a, s.db.fetch c = some a → a ≠ addr := by
      intro c a hc ha
      rw [ha] at hc
      exact hlisted c hc
    exact h.change (fun d a hd => ⟨hd, hkeep a (hne d a hd)⟩) rfl
      (fun u x hx => ((h.thread u).holds hx).1) (fun u a hu ha => hkeep a (hother u hu a ha)) trivial
      nofun
  · rw [heq]
    -- the slots other than `c` are as they were
    have hback : ∀ d a, db.fetch d = some a → d = c ∧ a = addr ∨ d ≠ c ∧ s.db.fetch d = some a := by
      intro d a hd
      by_cases hdc : d = c
      · rw [hdc, hsome] at hd
        exact .inl ⟨hdc, (Option.some.inj hd).symm⟩
      · rw [hfetch d hdc] at hd
        exact .inr ⟨hdc, hd⟩
    have hforth : ∀ d a, s.db.fetch d = some a → db.fetch d = some a := by
      intro d a hd
      have hdc : d ≠ c := by
        intro hdc
        rw [hdc, hnone] at hd
        cases hd
      rw [hfetch d hdc]
      exact hd
    refine Inv.setPc ?_ ?_ ?_ ?_ trivial h.owner nofun
    · intro d a hd
      show (db.cell a).live = true
      rw [hcell]
      rcases hback d a hd with ⟨-, ha⟩ | ⟨-, hd⟩
      · rw [ha]
        exact hlive
      · exact h.live d a hd
    · intro d d' a hd hd'
      rcases hback d a hd with ⟨hdc, ha⟩ | ⟨-, hd⟩
      · rcases hback d' a hd' with ⟨hdc', -⟩ | ⟨-, hd'⟩
        · rw [hdc, hdc']
        · rw [ha] at hd'
          exact absurd hd' (hlisted d')
      · rcases hback d' a hd' with ⟨-, ha⟩ | ⟨-, hd'⟩
        · rw [ha] at hd
          exact absurd hd (hlisted d)
        · exact h.distinct d d' a hd hd'
    · intro _ _ _
      show db.cookie ≠ 0
      rw [hck]
      exact hcookie
    · intro u hu
      refine (h.thread u).transfer ?_ ?_ ?_
      · intro hne
        show db.cookie ≠ 0
        rw [hck]
        exact hne
      · intro x _ hx
        obtain ⟨d, hd⟩ := hx.1
        exact keeps_of_eq hx ⟨d, hforth d _ hd⟩ (congrFun hcell _) hck
      · intro a ha hun
        refine ⟨?_, ?_⟩
        · show (db.cell a).live = true
          rw [hcell]
          exact hun.1
        · intro d hd
          rcases hback d a hd with ⟨-, haddr⟩ | ⟨-, hd⟩
          · exact hother u hu a ha haddr
          · exact hun.2 d hd

/-- An item that no operation uses is closed. -/
theorem Inv.close (h : Inv cr s) (r : Except Status Reply)
    (hquiet : ∀ u x, (s.pc u).handle = some x → s.db.fetch context ≠ some x.addr) :
    Inv cr ({ s with db := (s.db.close context).1 }.finish t r) := by
  cases hfetch : s.db.fetch context with
  | none =>
    have heq : (s.db.close context).1 = s.db := by rw [Db.close, hfetch]
    rw [heq]
    exact h.finish r
  | some addr =>
    obtain ⟨hself, hother, hcell, hcookie⟩ := close_spec hfetch
    refine h.change (fun d a hd => ?_) hcookie (fun u x hx => ?_) (fun u a _ hu => hcell a ?_) trivial
      (by simp)
    · have hdc : d ≠ context := by
        rintro rfl
        rw [hself] at hd
        cases hd
      rw [hother d hdc] at hd
      refine ⟨hd, hcell a ?_⟩
      rintro rfl
      exact hdc (h.distinct d context a hd hfetch)
    · obtain ⟨d, hd⟩ := ((h.thread u).holds hx).1
      refine ⟨d, (hother d ?_).trans hd⟩
      rintro rfl
      exact hquiet u x hx hd
    · rintro rfl
      have hok := h.thread u
      rw [hu] at hok
      exact hok.2.2 context hfetch

/-! ### The result -/

/-- **The step lemma.** -/
theorem Inv.step [Fintype T] {a : Action T} (h : Inv cr s) (hquiet : Quiet s a)
    (hstep : InFlight.step cr a s = some s') : Inv cr s' := by
  cases a <;> simp only [InFlight.step] at hstep
  case getGa | procMsg2 | getMsg3 | getKeys =>
    exact h.fetch hstep (fun _ hx => hx) nofun
  case draw t rand =>
    split at hstep
    · cases hstep
      exact h.finish _
    · split_ifs at hstep with hzero
      cases hstep
      exact h.draw hzero
    · cases hstep
  -- every other section is only for a thread that has come to it
  all_goals
    split at hstep
    case h_2 => cases hstep
    rename_i hpc
    have hok := h.thread ‹T›
    rw [hpc] at hok
  · cases hstep
    by_cases hzero : s.db.cookie = 0
    · rw [if_pos hzero]
      exact h.goOn trivial (by simp)
    · rw [if_neg hzero]
      exact h.goOn hzero (by simp)
  · cases hstep
    exact h.close _ hquiet
  · -- alloc
    split at hstep
    · cases hstep
      exact h.finish _
    · cases hstep
      exact h.finish _
    · split_ifs at hstep with hlive
      cases hstep
      exact h.alloc hlive hok
  · cases hstep
    exact h.insert _ hpc
  · -- drawKey
    split at hstep <;> cases hstep
    · exact h.finish _
    · exact h.setItem _ (advances_getGaItem ‹_›)
  · -- snapshot
    split at hstep <;> cases hstep
    · exact h.finish _
    · rename_i hy
      rw [KeyExchange.snapshot] at hy
      split_ifs at hy with hstate
      cases hy
      refine h.goOn ⟨hok, ?_, rfl⟩ (by simp)
      rw [not_not.mp hstate]
      simp
  · -- verify
    obtain ⟨hholds, hstate, rfl⟩ := hok
    split at hstep <;> cases hstep
    · exact h.finish _
    · exact h.goOn ⟨hholds, hstate, _, ‹_›⟩ (by simp)
  · cases hstep
    exact h.setItem _ advances_commitMsg2
  · -- readItem
    split at hstep <;> cases hstep
    · exact h.finish _
    · exact h.goOn hok (by simp)
  iterate 2
    cases hstep
    exact h.finish _

omit [DecidableEq T] in
theorem Inv.empty : Inv cr (Threads.empty : Threads T) where
  live := nofun
  distinct := nofun
  drawn := nofun
  thread := fun _ => trivial
  owner := nofun

theorem inv_of_run [Fintype T] {l : List (Action T)}
    (hrun : run (only Quiet (InFlight.step cr)) l Threads.empty = some s) : Inv cr s :=
  invariant_of_run (fun _ _ _ h hstep =>
    have ⟨hquiet, hstep⟩ := only_eq_some.mp hstep
    h.step hquiet hstep) hrun .empty

omit [DecidableEq T] in
/-- The thread whose section an access belongs to. -/
theorem exists_handle_of_access {a : Action T} (h : a.access s = some x) :
    ∃ t, (s.pc t).handle = some x := by
  cases a with
  | drawKey t | snapshot t | commit t | readItem t | readNonce t | readKey t => exact ⟨t, h⟩
  | _ => cases h

/-- **No use of a closed context.**  If no context is closed while an operation on it is in flight,
then every access is to an item that has not been closed and is the one the operation started with;
and the keys that are about to be written were computed from a message checked with the keys of
the very item they are written to. -/
theorem no_use_of_closed [Fintype T] {l : List (Action T)}
    (hrun : run (only Quiet (InFlight.step cr)) l Threads.empty = some s) :
    (∀ (a : Action T) x, a.access s = some x →
      (s.db.cell x.addr).live = true ∧ (s.db.cell x.addr).gen = x.gen) ∧
    (∀ t x keys m qeTarget nonce, s.pc t = .commit x keys m qeTarget nonce →
      ∃ f, verifyMsg2 cr f (exchange s.db x) m = .ok keys) := by
  have hinv : Inv cr s := inv_of_run hrun
  refine ⟨?_, ?_⟩
  · intro a x hx
    obtain ⟨t, ht⟩ := exists_handle_of_access hx
    obtain ⟨⟨c, hc⟩, hgen⟩ := (hinv.thread t).holds ht
    exact ⟨hinv.live c x.addr hc, hgen⟩
  · intro t x keys m qeTarget nonce hpc
    have hok := hinv.thread t
    rw [hpc] at hok
    exact hok.2.2

/-- The thread `t` makes the context 0 for a service provider, up to the public key. -/
def opening (t : Bool) (pubKey priv : Bytes) : List (Action Bool) :=
  [.initEx t ⟨some pubKey, true, true, 0, true⟩, .draw t (some 7),
   .alloc t (fun _ => none) (some 100), .insert t true, .getGa t 0 true,
   .drawKey t (fun _ => none) priv]

/-- A message is checked, up to the last part of `sgx_ra_proc_msg2_trusted`. -/
def checking (t : Bool) : List (Action Bool) :=
  [.procMsg2 t 0 true plainMsg2 ⟨[], []⟩, .snapshot t, .verify t (fun _ => none) []]

theorem no_use_of_closed_checking :
    ∃ s, run (only Quiet (InFlight.step plain)) (opening false [1] [2] ++ checking false)
        Threads.empty = some s ∧
      (∀ (a : Action Bool) x, a.access s = some x →
        (s.db.cell x.addr).live = true ∧ (s.db.cell x.addr).gen = x.gen) ∧
      (∀ t x keys m qeTarget nonce, s.pc t = .commit x keys m qeTarget nonce →
        ∃ f, verifyMsg2 plain f (exchange s.db x) m = .ok keys) := by
  obtain ⟨s, hs⟩ := Option.isSome_iff_exists.mp
    (by decide : (run (only Quiet (InFlight.step plain)) (opening false [1] [2] ++ checking false)
      Threads.empty).isSome = true)
  exact ⟨s, hs, no_use_of_closed hs⟩

/-- The context is closed and made again while a message is being checked. -/
def crossed : List (Action Bool) :=
  opening false [1] [2] ++ checking false ++ [.close true 0] ++
    [.initEx true ⟨some [9], true, true, 0, true⟩, .alloc true (fun _ => none) (some 100),
     .insert true true, .getGa true 0 true, .drawKey true (fun _ => none) [5]]

/-- The keys of the closed item, from a message of the service provider `[1]`, are written into the
next item of the context, which is for the service provider `[9]` and has another private key. -/
theorem keys_of_closed_item :
    (run (InFlight.step plain) crossed Threads.empty).map
        (fun s => ((Action.commit false (fun _ => none)).access s, (s.db.cell 100).gen)) =
      some (some ⟨100, 0⟩, 1) ∧
    (run (InFlight.step plain) (crossed ++ [.commit false (fun _ => none)]) Threads.empty).map
        (fun s => (s.db.fetch 0, (s.db.cell 100).item.state, (s.db.cell 100).item.spPubkey,
          (s.db.cell 100).item.a, (s.db.cell 100).item.skKey)) =
      some (some 100, .procMsg2ed, [9], [5], [2, 3]) := by
  refine ⟨?_, ?_⟩
  · decide
  · decide

end KeyExchange.InFlight
