import Ethcore.Trie.Trie
import Ethcore.Rlp.Encode

/-!
# Hashing and committing: `hasher.go` and `Trie.Hash`, `Trie.CommitTo`

`hash` collapses a node for storage: a short node's key goes to the compact encoding, and
every child is replaced by what hashing it gives (its hash node, or the child itself with
its own children collapsed when its encoding is under 32 bytes).  `store` encodes the
collapsed node and, from 32 bytes on (or when forced, at the root), replaces it by the hash
node of its Keccak-256 and writes it to the database.  Alongside, `hash` returns the node
to keep in memory: the original with its children's results cached in and its own hash
recorded in its flags.  A node whose hash is already cached is not hashed again; in commit
mode it is unloaded (replaced by its hash node) once its generation is old enough.

The encoding of a collapsed node (`rlp.Encode` of a `*shortNode`, a `*fullNode` through
its `EncodeRLP`, and of `hashNode` and `valueNode` as byte strings) is the Yellow Paper
encoding of the item `Node.toItem`.  Keccak-256 is the parameter `keccak`.

`hashChildren` takes the function that hashes a child, so that `hash` and
`hashChildren` share one description while `hash` stays structural.  The source hashes
the sixteen children of a root full node in parallel; they write distinct database
entries, and the model hashes them in order.
-/

set_option linter.dupNamespace false

namespace Ethcore
namespace Trie

/-- The RLP item of a node: a short node is the list of its key and its child, a full node
the list of its seventeen children, hash and value nodes the string of their bytes, and
nil (an empty interface) the empty list. -/
def Node.toItem : Node → Rlp.Item
  | .nil => .list []
  | .valueNode v => .bytes v
  | .hashNode h => .bytes h
  | .shortNode k v _ => .list [.bytes k, v.toItem]
  | .fullNode cs _ => .list (List.ofFn fun i => (cs i).toItem)

/-- `rlp.Encode` of a node. -/
def encodeNode (n : Node) : Bytes := n.toItem.encode

/-- `canUnload`: not dirty, and at least `cachelimit` generations old (in `uint16`
arithmetic, which wraps). -/
def NodeFlag.canUnload (f : NodeFlag) (cachegen cachelimit : UInt16) : Bool :=
  !f.dirty && cachegen - f.gen ≥ cachelimit

/-- `hasher`: the generation and limit that decide unloading. -/
structure hasher where
  cachegen : UInt16
  cachelimit : UInt16

/-- What hashing a node gives: the collapsed node (a hash node when stored) and the node to
keep in memory, with the database written so far (`none` when only hashing). -/
abbrev HashResult := (Node × Node) × Option KV

section Hasher

variable (keccak : Bytes → Bytes)

namespace hasher

/-- `store`: encode a collapsed node and, from 32 bytes on or when forced, replace it by its
hash node (the cached hash when it has one), writing it to the database. -/
def store (n : Node) (db : Option KV) (force : Bool) : Node × Option KV :=
  match n with
  | .nil | .hashNode _ => (n, db)
  | _ =>
      let enc := encodeNode n
      if enc.length < 32 ∧ !force then (n, db)
      else
        let hash := match n with
          | .shortNode _ _ f | .fullNode _ f => f.hash.getD (keccak enc)
          | _ => keccak enc
        (.hashNode hash, db.map (·.Put hash enc))

/-- The early returns of `hash` for a node whose hash is cached: when only hashing, when the
node can be unloaded, and when it is stored already. -/
def cacheHit (h : hasher) (n : Node) (f : NodeFlag) (db : Option KV) : Option HashResult :=
  match f.hash with
  | none => none
  | some hash =>
      if db.isNone then some ((.hashNode hash, n), db)
      else if f.canUnload h.cachegen h.cachelimit then some ((.hashNode hash, .hashNode hash), db)
      else if !f.dirty then some ((.hashNode hash, n), db)
      else none

/-- `hashChildren` of a short node: the key to compact form, and the child hashed unless it
is a value; a nil child is written as an empty string. -/
def hashChildrenShort (k : Bytes) (v : Node) (f : NodeFlag)
    (hashVal : Option KV → Option HashResult) (db : Option KV) : Option HashResult :=
  let r := match v with
    | .valueNode _ => some ((v, v), db)
    | _ => hashVal db
  r.map fun ((cv, kv), db) =>
    let cv := if cv.isNil then .valueNode [] else cv
    ((.shortNode (hexToCompact k) cv f, .shortNode k kv f), db)

/-- `hashChildren` of a full node: the sixteen nibble children hashed in order (a nil child
is written as an empty string), and the value slot kept. -/
def hashChildrenFull (cs : Fin 17 → Node) (f : NodeFlag)
    (hashChild : Fin 16 → Option KV → Option HashResult) (db : Option KV) :
    Option HashResult :=
  let step := fun (acc : Option ((Fin 17 → Node) × (Fin 17 → Node) × Option KV)) (i : Fin 16) =>
    acc.bind fun (col, cac, db) =>
      if (cs i.castSucc).isNil then some (Function.update col i.castSucc (.valueNode []), cac, db)
      else (hashChild i db).map fun ((c, k), db) =>
        (Function.update col i.castSucc c, Function.update cac i.castSucc k, db)
  ((List.finRange 16).foldl step (some (cs, cs, db))).map fun (col, cac, db) =>
    let cac := Function.update cac 16 (cs 16)
    let col := if (col 16).isNil then Function.update col 16 (.valueNode []) else col
    ((.fullNode col f, .fullNode cac f), db)

/-- Cache the hash that `store` gave in the in-memory node, and clear its dirty bit in
commit mode. -/
def cacheHash (cached hashed : Node) (commit : Bool) : Node :=
  let cachedHash := match hashed with
    | .hashNode x => some x
    | _ => none
  match cached with
  | .shortNode k v f =>
      .shortNode k v { f with hash := cachedHash, dirty := if commit then false else f.dirty }
  | .fullNode cs f =>
      .fullNode cs { f with hash := cachedHash, dirty := if commit then false else f.dirty }
  | n => n

/-- `hash`: collapse `n` into its hash node (or itself with its children collapsed), and the
node to keep in memory; a nil node panics. -/
def hash (h : hasher) : Node → Option KV → Bool → Option HashResult
  | .nil, _, _ => none
  | .hashNode x, db, _ => some ((.hashNode x, .hashNode x), db)
  | .valueNode v, db, force =>
      let (hashed, db) := store keccak (.valueNode v) db force
      some ((hashed, .valueNode v), db)
  | .shortNode k v f, db, force =>
      match h.cacheHit (.shortNode k v f) f db with
      | some r => some r
      | none =>
          (hashChildrenShort k v f (fun db => h.hash v db false) db).map
            fun ((collapsed, cached), db') =>
              let (hashed, db') := store keccak collapsed db' force
              ((hashed, cacheHash cached hashed db.isSome), db')
  | .fullNode cs f, db, force =>
      match h.cacheHit (.fullNode cs f) f db with
      | some r => some r
      | none =>
          (hashChildrenFull cs f (fun i db => h.hash (cs i.castSucc) db false) db).map
            fun ((collapsed, cached), db') =>
              let (hashed, db') := store keccak collapsed db' force
              ((hashed, cacheHash cached hashed db.isSome), db')

/-- `hashChildren`: collapse the children of a node (value and hash nodes have none). -/
def hashChildren (h : hasher) (n : Node) (db : Option KV) : Option HashResult :=
  match n with
  | .shortNode k v f => hashChildrenShort k v f (fun db => h.hash keccak v db false) db
  | .fullNode cs f => hashChildrenFull cs f (fun i db => h.hash keccak (cs i.castSucc) db false) db
  | n => some ((n, n), db)

end hasher

namespace Trie

/-- `hashRoot`: the empty root for an empty trie, else the root hashed with `store` forced. -/
def hashRoot (t : Trie) (db : Option KV) : Option HashResult :=
  match t.root with
  | .nil => some ((.hashNode (emptyRoot keccak), .nil), db)
  | root => (hasher.mk t.cachegen t.cachelimit).hash keccak root db true

/-- `Hash`: the root hash, caching the hashes in the trie. -/
def Hash (t : Trie) : Option (Bytes × Trie) :=
  match t.hashRoot keccak none with
  | some ((.hashNode hash, cached), _) => some (BytesToHash hash, { t with root := cached })
  | _ => none

/-- `CommitTo`: write every node that is not stored yet to `db`, then start a new cache
generation. -/
def CommitTo (t : Trie) (db : KV) : Option ((Bytes × KV) × Trie) :=
  match t.hashRoot keccak (some db) with
  | some ((.hashNode hash, cached), some db) =>
      some ((BytesToHash hash, db), { t with root := cached, cachegen := t.cachegen + 1 })
  | _ => none

/-- `Commit`: `CommitTo` the trie's own database. -/
def Commit (t : Trie) : Option (Bytes × Trie) :=
  (t.CommitTo keccak t.db).map fun ((root, db), t) => (root, { t with db := db })

end Trie

end Hasher

end Trie
end Ethcore
