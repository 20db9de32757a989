/-
The physical numbers of the nodes of a file.

`get_node_numbers` computes the numbers of a data node and of its MHT node from an
offset, `append_mht_node` and `read_mht_node` compute the number of an MHT node from
its index, and the recursion of `read_mht_node` goes up to the root, whose number is
set by `init_fields`.  All of it is arithmetic of `uint64_t`; `Assigned` collects
which node gets which number for the offsets below a given length, and `Hangs` under
which parent, and in which slot of it, the key of a node is kept.

* **`assigned_iff`** — the numbers, in terms of the number of data nodes;
* **`node_numbering`** — they are those of a prefix, each given once.
-/
import LinuxSgx.ProtectedFs.Runs

namespace ProtectedFs

/-! ### The arithmetic of the source -/

section Arithmetic

/-- What `get_node_numbers` computes. -/
structure NodeNumbers64 where
  mhtNodeNumber : UInt64
  dataNodeNumber : UInt64
  physicalMhtNodeNumber : UInt64
  physicalDataNodeNumber : UInt64

def getNodeNumbers64 (offset : UInt64) : NodeNumbers64 :=
  let dataNodeNumber := (offset - 3072) / 4096
  let mhtNodeNumber := dataNodeNumber / 96
  let physicalDataNodeNumber := dataNodeNumber + 1 + 1 + mhtNodeNumber
  let physicalMhtNodeNumber := physicalDataNodeNumber - dataNodeNumber % 96 - 1
  { mhtNodeNumber, dataNodeNumber, physicalMhtNodeNumber, physicalDataNodeNumber }

/-- `physical_node_number` in `append_mht_node` and `read_mht_node`. -/
def physicalNodeNumber64 (mhtNodeNumber : UInt64) : UInt64 := 1 + mhtNodeNumber * (1 + 96)

/-- The index of the parent in `append_mht_node` and `read_mht_node`. -/
def parentNumber64 (mhtNodeNumber : UInt64) : UInt64 := (mhtNodeNumber - 1) / 32

def NodeNumbers64.toNat (n : NodeNumbers64) : NodeNumbers :=
  { mhtNodeNumber := n.mhtNodeNumber.toNat
    dataNodeNumber := n.dataNodeNumber.toNat
    physicalMhtNodeNumber := n.physicalMhtNodeNumber.toNat
    physicalDataNodeNumber := n.physicalDataNodeNumber.toNat }

variable {offset m : UInt64}

/-- No operation wraps around: the model's numbers are those of the source. -/
theorem toNat_getNodeNumbers64 (h : 3072 ≤ offset.toNat) :
    (getNodeNumbers64 offset).toNat = getNodeNumbers offset.toNat := by
  have hlt : offset.toNat < 2 ^ 64 := offset.toNat_lt
  simp only [NodeNumbers64.toNat, getNodeNumbers64, getNodeNumbers, NodeNumbers.mk.injEq,
    mdUserDataSize, nodeSize,
    attachedDataNodesCount, UInt64.toNat_add, UInt64.toNat_sub, UInt64.toNat_div, UInt64.toNat_mod,
    UInt64.reduceToNat]
  omega

theorem toNat_dataNodeNumber (h : 3072 ≤ offset.toNat) :
    (getNodeNumbers64 offset).dataNodeNumber.toNat = (offset.toNat - 3072) / 4096 :=
  congrArg NodeNumbers.dataNodeNumber (toNat_getNodeNumbers64 h)

theorem toNat_mhtNodeNumber (h : 3072 ≤ offset.toNat) :
    (getNodeNumbers64 offset).mhtNodeNumber.toNat = (offset.toNat - 3072) / 4096 / 96 :=
  congrArg NodeNumbers.mhtNodeNumber (toNat_getNodeNumbers64 h)

theorem toNat_physicalNodeNumber64 (h : m.toNat ≤ 2 ^ 48) :
    (physicalNodeNumber64 m).toNat = physMht m.toNat := by
  simp only [physicalNodeNumber64, UInt64.toNat_add, UInt64.toNat_mul, UInt64.reduceToNat, physMht]
  omega

theorem toNat_parentNumber64 (h : m ≠ 0) :
    (parentNumber64 m).toNat = (m.toNat - 1) / 32 := by
  have hpos : m.toNat ≠ 0 := fun h0 => h (UInt64.toNat_inj.mp h0)
  have := m.toNat_lt
  simp only [parentNumber64, UInt64.toNat_sub, UInt64.toNat_div, UInt64.reduceToNat]
  omega

end Arithmetic

/-! ### Nodes and their numbers -/

/-- A node of the file, by its index among the nodes of its kind. -/
inductive NodeId where
  | metaData
  | mht (m : ℕ)
  | data (n : ℕ)
  deriving DecidableEq, Repr

section Numbers

variable {L : ℕ}

/-- The offset belongs to a data node of a file of length `L`. -/
def InNodes (L : ℕ) (offset : UInt64) : Prop := 3072 ≤ offset.toNat ∧ offset.toNat < L

/-- The indices of the MHT nodes that finding a data node of the file goes through:
the node to which it is attached and those above it. -/
inductive Visited (L : ℕ) : UInt64 → Prop
  | attached {offset : UInt64} (h : InNodes L offset) :
      Visited L (getNodeNumbers64 offset).mhtNodeNumber
  | above {m : UInt64} (h : Visited L m) (hm : m ≠ 0) : Visited L (parentNumber64 m)

/-- The physical numbers that are given to the nodes of a file of length `L`. -/
inductive Assigned (L : ℕ) : NodeId → ℕ → Prop
  | metaData : Assigned L .metaData 0
  /-- `physical_data_node_number` of `get_node_numbers` -/
  | data {offset : UInt64} (h : InNodes L offset) :
      Assigned L (.data (getNodeNumbers64 offset).dataNodeNumber.toNat)
        (getNodeNumbers64 offset).physicalDataNodeNumber.toNat
  /-- `physical_mht_node_number` of `get_node_numbers` -/
  | attached {offset : UInt64} (h : InNodes L offset) :
      Assigned L (.mht (getNodeNumbers64 offset).mhtNodeNumber.toNat)
        (getNodeNumbers64 offset).physicalMhtNodeNumber.toNat
  /-- `physical_node_number` of `append_mht_node` and `read_mht_node` -/
  | mht {m : UInt64} (h : Visited L m) : Assigned L (.mht m.toNat) (physicalNodeNumber64 m).toNat
  /-- `root_mht`, which is returned for index 0 -/
  | root (h : Visited L 0) : Assigned L (.mht 0) 1

/-- The place of a node's key and GMAC in its parent. -/
inductive SlotIx where
  | data (i : Fin 96)
  | mht (i : Fin 32)
  deriving DecidableEq

/-- Under which node, and in which slot of it, the key and the GMAC of a node are
kept by `update_all_data_and_mht_nodes`. -/
inductive Hangs (L : ℕ) : NodeId → NodeId → SlotIx → Prop
  | data {offset : UInt64} (h : InNodes L offset) :
      Hangs L (.data (getNodeNumbers64 offset).dataNodeNumber.toNat)
        (.mht (getNodeNumbers64 offset).mhtNodeNumber.toNat)
        (.data (Fin.ofNat 96 (getNodeNumbers64 offset).dataNodeNumber.toNat))
  | mht {m : UInt64} (h : Visited L m) (hm : m ≠ 0) :
      Hangs L (.mht m.toNat) (.mht (parentNumber64 m).toNat) (.mht (Fin.ofNat 32 (m.toNat - 1)))

/-- The number of data nodes of a file of the given size. -/
def dataCount (size : ℕ) : ℕ := (size - 3072 + 4095) / 4096

/-- The number of data nodes that offsets of 64 bits below `L` reach. -/
def nodeCount (L : ℕ) : ℕ := dataCount (min L (2 ^ 64))

theorem nodeCount_eq (L : ℕ) : nodeCount L = (min L (2 ^ 64) - 3072 + 4095) / 4096 := rfl

theorem nodeCount_lt (L : ℕ) : nodeCount L < 2 ^ 53 := by
  have := min_le_right L (2 ^ 64)
  rw [nodeCount_eq]
  omega

theorem InNodes.lt {offset : UInt64} (h : InNodes L offset) :
    (offset.toNat - 3072) / 4096 < nodeCount L := by
  have hlt : offset.toNat < min L (2 ^ 64) := lt_min h.2 offset.toNat_lt
  have := h.1
  rw [nodeCount_eq]
  omega

/-- Every data node is that of its first offset. -/
theorem exists_inNodes {n : ℕ} (hn : n < nodeCount L) :
    ∃ offset : UInt64, InNodes L offset ∧ (offset.toNat - 3072) / 4096 = n := by
  rw [nodeCount_eq] at hn
  have hlt : 3072 + 4096 * n < min L (2 ^ 64) := by omega
  have h64 : 3072 + 4096 * n < 2 ^ 64 := hlt.trans_le (min_le_right _ _)
  have hto : (UInt64.ofNat (3072 + 4096 * n)).toNat = 3072 + 4096 * n := by
    rw [UInt64.toNat_ofNat', Nat.mod_eq_of_lt h64]
  refine ⟨UInt64.ofNat (3072 + 4096 * n), ⟨?_, ?_⟩, ?_⟩ <;> rw [hto]
  · omega
  · exact hlt.trans_le (min_le_left _ _)
  · omega

theorem Visited.lt {m : UInt64} (h : Visited L m) : 96 * m.toNat < nodeCount L := by
  induction h with
  | attached h =>
    have := h.lt
    rw [toNat_mhtNodeNumber h.1]
    omega
  | above _ hm ih =>
    rw [toNat_parentNumber64 hm]
    omega

/-- The MHT nodes that are gone through are those with a data node attached. -/
theorem exists_visited {m : ℕ} (hm : 96 * m < nodeCount L) :
    ∃ m' : UInt64, Visited L m' ∧ m'.toNat = m := by
  obtain ⟨offset, hin, hn⟩ := exists_inNodes hm
  refine ⟨_, .attached hin, ?_⟩
  rw [toNat_mhtNodeNumber hin.1, hn]
  omega

/-- The numbers, in closed form. -/
theorem assigned_iff {x : NodeId} {k : ℕ} : Assigned L x k ↔
    x = .metaData ∧ k = 0 ∨ (∃ n < nodeCount L, x = .data n ∧ k = physData n) ∨
      ∃ m, 96 * m < nodeCount L ∧ x = .mht m ∧ k = physMht m := by
  have hnumbers : ∀ {offset : UInt64}, InNodes L offset →
      (getNodeNumbers64 offset).toNat = getNodeNumbers offset.toNat := fun h =>
    toNat_getNodeNumbers64 h.1
  constructor
  · intro h
    cases h with
    | metaData => exact .inl ⟨rfl, rfl⟩
    | @data offset h =>
      have heq := hnumbers h
      rw [getNodeNumbers_eq, NodeNumbers64.toNat, NodeNumbers.mk.injEq] at heq
      exact .inr (.inl ⟨_, h.lt, by rw [heq.2.1], heq.2.2.2⟩)
    | @attached offset h =>
      have heq := hnumbers h
      rw [getNodeNumbers_eq, NodeNumbers64.toNat, NodeNumbers.mk.injEq] at heq
      exact .inr (.inr ⟨_, heq.1 ▸ (Visited.attached h).lt, by rw [heq.1], heq.2.2.1⟩)
    | @mht m h =>
      have hlt := h.lt
      have := nodeCount_lt L
      exact .inr (.inr ⟨_, hlt, rfl, toNat_physicalNodeNumber64 (by omega)⟩)
    | root h => exact .inr (.inr ⟨0, h.lt, rfl, rfl⟩)
  · rintro (⟨rfl, rfl⟩ | ⟨n, hn, rfl, rfl⟩ | ⟨m, hm, rfl, rfl⟩)
    · exact .metaData
    · obtain ⟨offset, hin, hn'⟩ := exists_inNodes hn
      have heq := hnumbers hin
      rw [getNodeNumbers_eq, NodeNumbers64.toNat, NodeNumbers.mk.injEq, hn'] at heq
      have h := Assigned.data hin
      rwa [heq.2.1, heq.2.2.2] at h
    · obtain ⟨m', hv, rfl⟩ := exists_visited hm
      have hlt := hv.lt
      have := nodeCount_lt L
      rw [← toNat_physicalNodeNumber64 (by omega)]
      exact .mht hv

theorem hangs_iff {x p : NodeId} {i : SlotIx} : Hangs L x p i ↔
    (∃ n < nodeCount L, x = .data n ∧ p = .mht (n / 96) ∧ i = .data (Fin.ofNat 96 n)) ∨
      ∃ m, 1 ≤ m ∧ 96 * m < nodeCount L ∧ x = .mht m ∧ p = .mht ((m - 1) / 32) ∧
        i = .mht (Fin.ofNat 32 (m - 1)) := by
  constructor
  · intro h
    cases h with
    | @data offset h =>
      refine .inl ⟨_, h.lt, ?_, ?_, ?_⟩
      · rw [toNat_dataNodeNumber h.1]
      · rw [toNat_mhtNodeNumber h.1]
      · rw [toNat_dataNodeNumber h.1]
    | @mht m h hm =>
      refine .inr ⟨m.toNat, ?_, h.lt, rfl, by rw [toNat_parentNumber64 hm], rfl⟩
      rw [Nat.one_le_iff_ne_zero, ← UInt64.toNat_zero]
      exact fun h0 => hm (UInt64.toNat_inj.mp h0)
  · rintro (⟨n, hn, rfl, rfl, rfl⟩ | ⟨m, h1, hm, rfl, rfl, rfl⟩)
    · obtain ⟨offset, hin, hn'⟩ := exists_inNodes hn
      have h := Hangs.data hin
      rwa [toNat_dataNodeNumber hin.1, toNat_mhtNodeNumber hin.1, hn'] at h
    · obtain ⟨m', hv, rfl⟩ := exists_visited hm
      have h0 : m' ≠ 0 := by
        rintro rfl
        exact absurd h1 (by simp)
      have h := Hangs.mht hv h0
      rwa [toNat_parentNumber64 h0] at h

/-- The last physical number of the file. -/
def lastNumber (L : ℕ) : ℕ := if nodeCount L = 0 then 0 else physData (nodeCount L - 1)

theorem exists_assigned_iff {k : ℕ} : (∃ x, Assigned L x k) ↔ k ≤ lastNumber L := by
  simp only [assigned_iff, lastNumber, physData, physMht]
  constructor
  · rintro ⟨x, ⟨-, rfl⟩ | ⟨n, hn, -, rfl⟩ | ⟨m, hm, -, rfl⟩⟩
    · exact Nat.zero_le _
    · rw [if_neg (by omega)]
      omega
    · rw [if_neg (by omega)]
      omega
  · intro hk
    -- the number is 0, or it counts an MHT node or one of the 96 data nodes after it
    rcases Nat.eq_zero_or_pos k with rfl | hpos
    · exact ⟨.metaData, .inl ⟨rfl, rfl⟩⟩
    have hne : nodeCount L ≠ 0 := by
      intro h0
      rw [if_pos h0] at hk
      omega
    rw [if_neg hne] at hk
    by_cases hr : (k - 1) % 97 = 0
    · refine ⟨.mht ((k - 1) / 97), .inr (.inr ⟨(k - 1) / 97, ?_, rfl, ?_⟩)⟩ <;> omega
    · refine ⟨.data ((k - 1) / 97 * 96 + (k - 1) % 97 - 1), .inr (.inl ⟨_, ?_, rfl, ?_⟩)⟩ <;> omega

/-- **The numbers of the nodes are those of a prefix, each given once**: the formulas
agree where several give the number of one node, different nodes get different
numbers, the numbers are exactly `0 .. N`, and no two nodes share a slot of a node. -/
theorem node_numbering (L : ℕ) :
    (∀ x k k', Assigned L x k → Assigned L x k' → k = k') ∧
    (∀ x y k, Assigned L x k → Assigned L y k → x = y) ∧
    (∃ N, ∀ k, (∃ x, Assigned L x k) ↔ k ≤ N) ∧
    (∀ x p q i j, Hangs L x p i → Hangs L x q j → p = q ∧ i = j) ∧
    (∀ x y p i, Hangs L x p i → Hangs L y p i → x = y) ∧
    ∀ x k, Assigned L x k → x ≠ .metaData → x ≠ .mht 0 →
      ∃ p i l, Hangs L x p i ∧ Assigned L p l ∧ l < k := by
  refine ⟨?_, ?_, ⟨lastNumber L, fun k => exists_assigned_iff⟩, ?_, ?_, ?_⟩
  · intro x k k' h h'
    rw [assigned_iff] at h h'
    rcases h with ⟨rfl, rfl⟩ | ⟨n, -, rfl, rfl⟩ | ⟨m, -, rfl, rfl⟩ <;>
      rcases h' with ⟨hx, rfl⟩ | ⟨n', -, hx, rfl⟩ | ⟨m', -, hx, rfl⟩ <;> cases hx <;> rfl
  · intro x y k h h'
    rw [assigned_iff] at h h'
    rcases h with ⟨rfl, rfl⟩ | ⟨n, -, rfl, rfl⟩ | ⟨m, -, rfl, rfl⟩
    · rcases h' with ⟨rfl, -⟩ | ⟨n', -, rfl, hk⟩ | ⟨m', -, rfl, hk⟩
      · rfl
      · unfold physData at hk
        omega
      · unfold physMht at hk
        omega
    · rcases h' with ⟨rfl, hk⟩ | ⟨n', -, rfl, hk⟩ | ⟨m', -, rfl, hk⟩
      · unfold physData at hk
        omega
      · rw [physData_inj.mp hk]
      · exact absurd hk (physData_ne_physMht _ _)
    · rcases h' with ⟨rfl, hk⟩ | ⟨n', -, rfl, hk⟩ | ⟨m', -, rfl, hk⟩
      · unfold physMht at hk
        omega
      · exact absurd hk.symm (physData_ne_physMht _ _)
      · rw [physMht_inj.mp hk]
  · intro x p q i j h h'
    rw [hangs_iff] at h h'
    rcases h with ⟨n, -, rfl, rfl, rfl⟩ | ⟨m, -, -, rfl, rfl, rfl⟩ <;>
      rcases h' with ⟨n', -, hx, rfl, rfl⟩ | ⟨m', -, -, hx, rfl, rfl⟩ <;> cases hx <;>
        exact ⟨rfl, rfl⟩
  · intro x y p i h h'
    rw [hangs_iff] at h h'
    rcases h with ⟨n, -, rfl, rfl, rfl⟩ | ⟨m, hm, -, rfl, rfl, rfl⟩ <;>
      rcases h' with ⟨n', -, rfl, hp, hi⟩ | ⟨m', hm', -, rfl, hp, hi⟩
    · simp only [NodeId.mht.injEq, SlotIx.data.injEq, Fin.ofNat, Fin.mk.injEq] at hp hi
      congr 1
      omega
    · cases hi
    · cases hi
    · simp only [NodeId.mht.injEq, SlotIx.mht.injEq, Fin.ofNat, Fin.mk.injEq] at hp hi
      congr 1
      omega
  · intro x k h hmeta hroot
    rw [assigned_iff] at h
    rcases h with ⟨rfl, -⟩ | ⟨n, hn, rfl, rfl⟩ | ⟨m, hm, rfl, rfl⟩
    · exact absurd rfl hmeta
    · refine ⟨_, _, physMht (n / 96), hangs_iff.mpr (.inl ⟨n, hn, rfl, rfl, rfl⟩),
        assigned_iff.mpr (.inr (.inr ⟨n / 96, by omega, rfl, rfl⟩)), ?_⟩
      unfold physData physMht
      omega
    · have h1 : 1 ≤ m := Nat.one_le_iff_ne_zero.mpr fun h0 => hroot (by rw [h0])
      refine ⟨_, _, physMht ((m - 1) / 32), hangs_iff.mpr (.inr ⟨m, h1, hm, rfl, rfl, rfl⟩),
        assigned_iff.mpr (.inr (.inr ⟨(m - 1) / 32, by omega, rfl, rfl⟩)), ?_⟩
      unfold physMht
      omega

end Numbers

end ProtectedFs
