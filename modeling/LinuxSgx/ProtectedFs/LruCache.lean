/-
The cache of node objects (`lru_cache.h`, `lru_cache.cpp`).

The source keeps a list of keys, most recently used first, and a hash map from
a key to the object and to the key's place in the list.  The map's iterator
always points at the first occurrence of its key, so the list alone carries
that information.  Nothing here assumes that list and map agree: `add` with a
key that is already present leaves two list entries for one map entry, as the
source does, and a traversal stops at a list entry without a map entry.
-/
import LinuxSgx.ProtectedFs.Nodes

namespace ProtectedFs

/-- `lru_cache` -/
structure LruCache where
  list : List ℕ
  map : ℕ → Option Addr

namespace LruCache

def empty : LruCache := ⟨[], fun _ => none⟩

def add (c : LruCache) (key : ℕ) (data : Addr) : LruCache :=
  { list := key :: c.list, map := Function.update c.map key (some data) }

def find (c : LruCache) (key : ℕ) : Option Addr := c.map key

/-- The cache after `get`, which bumps its key to the head of the list; the
object itself is what `find` returns. -/
def get (c : LruCache) (key : ℕ) : LruCache :=
  match c.map key with
  | none => c
  | some _ => { c with list := key :: c.list.erase key }

def size (c : LruCache) : ℕ := c.list.length

def getLast (c : LruCache) : Option Addr :=
  match c.list.getLast? with
  | none => none
  | some key => c.map key

def removeLast (c : LruCache) : LruCache :=
  match c.list.getLast? with
  | none => c
  | some key => { list := c.list.dropLast, map := Function.update c.map key none }

/-- The objects that `get_first` and then `get_next` deliver until the first
null pointer. -/
def traverse (c : LruCache) : List Addr := go c.list
where
  go : List ℕ → List Addr
    | [] => []
    | key :: keys =>
      match c.map key with
      | none => []
      | some data => data :: go keys

end LruCache

end ProtectedFs
