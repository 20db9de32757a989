/-
The on-disk and in-memory nodes of a protected file (`protected_fs_nodes.h`,
`protected_fs_file.h`).

A protected file is a sequence of 4 KB nodes.  Node 0 holds the meta data and
the first 3072 bytes of user data, node 1 the root of a Merkle hash tree (MHT);
every MHT node carries the key and the GMAC of 96 data nodes and of 32 child
MHT nodes.  What an AES-GCM ciphertext of a node is, and what a GMAC is, is
left to the two type parameters `C` and `T`; the plaintexts are the source's
structures.
-/
import LinuxSgx.Lib.Prog

namespace ProtectedFs

/-- `NODE_SIZE` -/
@[simp] abbrev nodeSize : ℕ := 4096
/-- `MD_USER_DATA_SIZE` -/
@[simp] abbrev mdUserDataSize : ℕ := 3072
/-- `ATTACHED_DATA_NODES_COUNT` -/
@[simp] abbrev attachedDataNodesCount : ℕ := 96
/-- `CHILD_MHT_NODES_COUNT` -/
@[simp] abbrev childMhtNodesCount : ℕ := 32
/-- `MAX_PAGES_IN_CACHE` -/
@[simp] abbrev maxPagesInCache : ℕ := 48
/-- `FILENAME_MAX_LEN` -/
abbrev filenameMaxLen : ℕ := 260
/-- `FULLNAME_MAX_LEN` -/
abbrev fullnameMaxLen : ℕ := 512 + filenameMaxLen

/-! ### Byte arrays -/

/-- A C array of `n` bytes. -/
abbrev Bytes (n : ℕ) := Fin n → UInt8

namespace Bytes

variable {n : ℕ}

/-- The byte at index `i`, `0` past the end. -/
def at' (b : Bytes n) (i : ℕ) : UInt8 := if h : i < n then b ⟨i, h⟩ else 0

/-- `memcpy(&b[off], src, len)` where `len` is the length of `src`. -/
def copyIn (b : Bytes n) (off : ℕ) (src : List UInt8) : Bytes n := fun i =>
  if off ≤ i.val ∧ i.val < off + src.length then src.getD (i.val - off) 0 else b i

/-- `memcpy(dst, &b[off], len)` -/
def copyOut (b : Bytes n) (off len : ℕ) : List UInt8 :=
  (List.range len).map fun j => b.at' (off + j)

@[simp] theorem length_copyOut (b : Bytes n) (off len : ℕ) :
    (b.copyOut off len).length = len := by
  simp [copyOut]

end Bytes

/-! ### Keys and the structures stored in nodes -/

/-- `sgx_aes_gcm_128bit_key_t` -/
abbrev Key := BitVec 128

/-- `gcm_crypto_data_t`: the key and the GMAC of one node. -/
structure GcmCryptoData (T : Type) where
  key : Key
  gmac : T

/-- `mht_node_t` -/
structure MhtNode (T : Type) where
  dataNodesCrypto : Fin 96 → GcmCryptoData T
  mhtNodesCrypto : Fin 32 → GcmCryptoData T

/-- `meta_data_encrypted_t`; `size` is an `int64_t` that is never negative. -/
structure MetaDataEncrypted (T : Type) where
  cleanFilename : List Char
  size : ℕ
  mhtKey : Key
  mhtGmac : T
  data : Bytes 3072
  size_lt : size < 2 ^ 63

/-- `meta_data_plain_t` -/
structure MetaDataPlain (T : Type) where
  fileId : ℕ
  majorVersion : ℕ
  minorVersion : ℕ
  metaDataKeyId : BitVec 256
  cpuSvn : BitVec 128
  isvSvn : BitVec 16
  useUserKdkKey : Bool
  metaDataGmac : T
  updateFlag : Bool

/-- `meta_data_node_t` -/
structure MetaDataNode (C T : Type) where
  plainPart : MetaDataPlain T
  encryptedPart : C

/-- The address of a node object on the enclave's heap. -/
abbrev Addr := ℕ

/-- A pointer to an MHT node: the member `root_mht` or a heap object. -/
inductive MhtPtr where
  | root
  | addr (a : Addr)
  deriving DecidableEq, Repr

/-- `FILE_MHT_NODE_TYPE` and `FILE_DATA_NODE_TYPE` -/
inductive NodeType where
  | mht
  | data
  deriving DecidableEq, Repr

/-- `file_mht_node_t` and `file_data_node_t`, which share their header; only the
plaintext that belongs to `type` is used. -/
structure FileNode (C T : Type) where
  type : NodeType
  nodeNumber : ℕ
  parent : MhtPtr
  needWriting : Bool
  newNode : Bool
  physicalNodeNumber : ℕ
  encrypted : C
  plainMht : MhtNode T
  plainData : Bytes 4096

/-- `recovery_node_t`: the number and the ciphertext of a node, or node 0. -/
inductive RecoveryNode (C T : Type) where
  | metaData (m : MetaDataNode C T)
  | node (physicalNodeNumber : ℕ) (nodeData : C)

section Zero

variable {C T : Type} [Inhabited C] [Inhabited T]

/-- A structure cleared by `memset`. -/
instance : Inhabited (GcmCryptoData T) := ⟨⟨0, default⟩⟩

instance : Inhabited (MhtNode T) := ⟨⟨fun _ => default, fun _ => default⟩⟩

instance : Inhabited (MetaDataEncrypted T) :=
  ⟨{ cleanFilename := [], size := 0, mhtKey := 0, mhtGmac := default, data := fun _ => 0,
     size_lt := by norm_num }⟩

instance : Inhabited (MetaDataPlain T) :=
  ⟨{ fileId := 0, majorVersion := 0, minorVersion := 0, metaDataKeyId := 0, cpuSvn := 0,
     isvSvn := 0, useUserKdkKey := false, metaDataGmac := default, updateFlag := false }⟩

instance : Inhabited (MetaDataNode C T) := ⟨⟨default, default⟩⟩

/-- A node object cleared by `memset`, with its type set. -/
def FileNode.zero (C T : Type) [Inhabited C] [Inhabited T] (type : NodeType) : FileNode C T :=
  { type := type, nodeNumber := 0, parent := .root, needWriting := false, newNode := false,
    physicalNodeNumber := 0, encrypted := default, plainMht := default,
    plainData := fun _ => 0 }

end Zero

/-! ### Node numbering -/

/-- What `get_node_numbers` computes from a file offset. -/
structure NodeNumbers where
  mhtNodeNumber : ℕ
  dataNodeNumber : ℕ
  physicalMhtNodeNumber : ℕ
  physicalDataNodeNumber : ℕ

def getNodeNumbers (offset : ℕ) : NodeNumbers :=
  let dataNodeNumber := (offset - mdUserDataSize) / nodeSize
  let mhtNodeNumber := dataNodeNumber / attachedDataNodesCount
  -- the meta data node, the MHT root and the MHT nodes in the middle come first
  let physicalDataNodeNumber := dataNodeNumber + 1 + 1 + mhtNodeNumber
  let physicalMhtNodeNumber :=
    physicalDataNodeNumber - dataNodeNumber % attachedDataNodesCount - 1
  { mhtNodeNumber, dataNodeNumber, physicalMhtNodeNumber, physicalDataNodeNumber }

/-- The physical node of data node `n`. -/
def physData (n : ℕ) : ℕ := n + 2 + n / 96

/-- The physical node of MHT node `m`. -/
def physMht (m : ℕ) : ℕ := 1 + m * 97

theorem getNodeNumbers_eq (offset : ℕ) :
    getNodeNumbers offset =
      { mhtNodeNumber := (offset - 3072) / 4096 / 96
        dataNodeNumber := (offset - 3072) / 4096
        physicalMhtNodeNumber := physMht ((offset - 3072) / 4096 / 96)
        physicalDataNodeNumber := physData ((offset - 3072) / 4096) } := by
  simp only [getNodeNumbers, NodeNumbers.mk.injEq, physMht, physData, mdUserDataSize, nodeSize,
    attachedDataNodesCount, true_and, and_true]
  omega

theorem physData_inj {n n' : ℕ} : physData n = physData n' ↔ n = n' := by
  unfold physData
  omega

theorem physMht_inj {m m' : ℕ} : physMht m = physMht m' ↔ m = m' := by
  unfold physMht
  omega

theorem physData_ne_physMht (n m : ℕ) : physData n ≠ physMht m := by
  unfold physData physMht
  omega

end ProtectedFs
