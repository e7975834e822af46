import Ethcore.Trie.Node

/-!
# The trie and its operations: `trie.go`

A `Trie` holds a root node, the database its hash nodes are resolved from, and the cache
generation that new nodes are stamped with.  `tryGet`, `insert` and `delete` walk a hex key
down from a node, resolving hash nodes from the database as they meet them, and rebuild
the path they changed with fresh flags; `delete` keeps the trie minimal by merging short
nodes and reducing full nodes that are left with one child.

Each walk can panic (a key index past the end, a node the switch does not expect, a stored
node `mustDecodeNode` cannot decode): that is `none`.  A walk through stored nodes is not
structural, since a resolved node is read from the database; the walks therefore run on a
`fuel` that every call spends, and `none` is also the fuel running out.

The database is the function `Get` of a `Database` (with `none` for a nil result or an
error).  A nil database is the empty one here: the source panics on it, but only tries
without hash nodes are ever used without a database.
-/

namespace Ethcore
namespace Trie

set_option linter.dupNamespace false

/-- `common.BytesToHash`: the last 32 bytes, left-padded with zeros. -/
def BytesToHash (b : Bytes) : Bytes :=
  if b.length > 32 then b.drop (b.length - 32) else List.replicate (32 - b.length) 0 ++ b

/-- A key-value store: `Get` of a `Database`, `none` for a missing key. -/
abbrev KV := Bytes → Option Bytes

/-- `Put`: store `value` under `key`. -/
def KV.Put (db : KV) (key value : Bytes) : KV := Function.update db key (some value)

/-- `Trie`: the root, the database, the root it was opened at, and the cache generation
and limit. -/
structure Trie where
  root : Node
  db : KV
  originalRoot : Bytes
  cachegen : UInt16
  cachelimit : UInt16

namespace Trie

/-- `newFlag`: a dirty node of the current generation, with no cached hash. -/
def newFlag (t : Trie) : NodeFlag := { hash := none, gen := t.cachegen, dirty := true }

/-- `resolveHash`: the node stored under `n`, decoded; a missing node is a
`MissingNodeError` at `pfx`, and a node that does not decode panics (`mustDecodeNode`). -/
def resolveHash (t : Trie) (n pfx : Bytes) : Option (Except NodeError Node) :=
  match t.db n with
  | none => some (.error (.MissingNodeError (BytesToHash n) pfx))
  | some enc =>
      match decodeNode (some n) enc t.cachegen with
      | none => none
      | some (.error _) => none
      | some (.ok node) => some (.ok node)

/-- `resolve`: resolve a hash node, keep any other node. -/
def resolve (t : Trie) (n : Node) (pfx : Bytes) : Option (Except NodeError Node) :=
  match n with
  | .hashNode h => t.resolveHash h pfx
  | n => some (.ok n)

/-- The child of a full node at a key byte; a byte past `16` panics. -/
def child (cs : Fin 17 → Node) (b : UInt8) : Option Node :=
  if h : b.toNat < 17 then some (cs ⟨b.toNat, h⟩) else none

/-- Set the child of a full node at a key byte; a byte past `16` panics. -/
def setChild (cs : Fin 17 → Node) (b : UInt8) (n : Node) : Option (Fin 17 → Node) :=
  if h : b.toNat < 17 then some (Function.update cs ⟨b.toNat, h⟩ n) else none

/-- `tryGet`: the value under `key[pos:]` below `origNode`, the node with what was resolved
on the way cached in, and whether anything was resolved. -/
def tryGet (t : Trie) : Nat → Node → Bytes → Nat →
    Option (Except NodeError (Option Bytes × Node × Bool))
  | 0, _, _, _ => none
  | fuel + 1, origNode, key, pos =>
      match origNode with
      | .nil => some (.ok (none, .nil, false))
      | .valueNode v => some (.ok (some v, .valueNode v, false))
      | .shortNode k v flags =>
          if key.length - pos < k.length ∨ k ≠ (key.drop pos).take k.length then
            -- key not found in trie
            some (.ok (none, origNode, false))
          else
            match t.tryGet fuel v key (pos + k.length) with
            | none => none
            | some (.error err) => some (.error err)
            | some (.ok (value, newnode, didResolve)) =>
                if didResolve then
                  some (.ok (value, .shortNode k newnode { flags with gen := t.cachegen }, true))
                else some (.ok (value, origNode, false))
      | .fullNode cs flags =>
          match key[pos]? with
          | none => none
          | some b =>
              match child cs b, setChild cs b with
              | some c, set =>
                  match t.tryGet fuel c key (pos + 1) with
                  | none => none
                  | some (.error err) => some (.error err)
                  | some (.ok (value, newnode, didResolve)) =>
                      if didResolve then
                        match set newnode with
                        | some cs' => some (.ok (value, .fullNode cs' { flags with gen := t.cachegen }, true))
                        | none => none
                      else some (.ok (value, origNode, false))
              | none, _ => none
      | .hashNode h =>
          match t.resolveHash h (key.take pos) with
          | none => none
          | some (.error err) => some (.error err)
          | some (.ok c) =>
              match t.tryGet fuel c key pos with
              | none => none
              | some (.error err) => some (.error err)
              | some (.ok (value, newnode, _)) => some (.ok (value, newnode, true))

/-- `insert`: put `value` (a value node) under `key` below `n`; whether anything changed,
and the new node. -/
def insert (t : Trie) : Nat → Node → Bytes → Bytes → Node →
    Option (Except NodeError (Bool × Node))
  | 0, _, _, _, _ => none
  | fuel + 1, n, pfx, key, value =>
      if key.length = 0 then
        match n, value with
        | .valueNode v, .valueNode v' => some (.ok (v != v', value))
        | _, _ => some (.ok (true, value))
      else
        match n with
        | .shortNode nkey nval _ =>
            let matchlen := prefixLen key nkey
            -- the whole key matches: keep this short node, update below it
            if matchlen = nkey.length then
              match t.insert fuel nval (pfx ++ key.take matchlen) (key.drop matchlen) value with
              | none => none
              | some (.error err) => some (.error err)
              | some (.ok (dirty, nn)) =>
                  if !dirty then some (.ok (false, n))
                  else some (.ok (true, .shortNode nkey nn t.newFlag))
            else
              -- branch out at the index where they differ
              match t.insert fuel .nil (pfx ++ nkey.take (matchlen + 1))
                  (nkey.drop (matchlen + 1)) nval with
              | none => none
              | some (.error err) => some (.error err)
              | some (.ok (_, c1)) =>
                  match t.insert fuel .nil (pfx ++ key.take (matchlen + 1))
                      (key.drop (matchlen + 1)) value with
                  | none => none
                  | some (.error err) => some (.error err)
                  | some (.ok (_, c2)) =>
                      match nkey[matchlen]?, key[matchlen]? with
                      | some b1, some b2 =>
                          match setChild (fun _ => .nil) b1 c1 with
                          | none => none
                          | some cs =>
                              match setChild cs b2 c2 with
                              | none => none
                              | some cs =>
                                  let branch := Node.fullNode cs t.newFlag
                                  -- replace this short node with the branch at index 0,
                                  -- else lead up to it with a short node
                                  if matchlen = 0 then some (.ok (true, branch))
                                  else some (.ok (true, .shortNode (key.take matchlen) branch t.newFlag))
                      | _, _ => none
        | .fullNode cs _ =>
            match key with
            | [] => none
            | k0 :: krest =>
                match child cs k0 with
                | none => none
                | some c =>
                    match t.insert fuel c (pfx ++ [k0]) krest value with
                    | none => none
                    | some (.error err) => some (.error err)
                    | some (.ok (dirty, nn)) =>
                        if !dirty then some (.ok (false, n))
                        else
                          match setChild cs k0 nn with
                          | none => none
                          | some cs' => some (.ok (true, .fullNode cs' t.newFlag))
        | .nil => some (.ok (true, .shortNode key value t.newFlag))
        | .hashNode h =>
            -- load the node and insert into it, leaving the loaded path in the trie
            match t.resolveHash h pfx with
            | none => none
            | some (.error err) => some (.error err)
            | some (.ok rn) =>
                match t.insert fuel rn pfx key value with
                | none => none
                | some (.error err) => some (.error err)
                | some (.ok (dirty, nn)) =>
                    if !dirty then some (.ok (false, rn)) else some (.ok (true, nn))
        | .valueNode _ => none

/-- `delete`: remove the value under `key` below `n`, keeping the trie minimal; whether
anything changed, and the new node. -/
def delete (t : Trie) : Nat → Node → Bytes → Bytes → Option (Except NodeError (Bool × Node))
  | 0, _, _, _ => none
  | fuel + 1, n, pfx, key =>
      match n with
      | .shortNode nkey nval _ =>
          let matchlen := prefixLen key nkey
          if matchlen < nkey.length then some (.ok (false, n))
          else if matchlen = key.length then some (.ok (true, .nil))
          else
            -- the key is longer than the node's: delete the rest below it
            match t.delete fuel nval (pfx ++ key.take nkey.length) (key.drop nkey.length) with
            | none => none
            | some (.error err) => some (.error err)
            | some (.ok (dirty, c)) =>
                if !dirty then some (.ok (false, n))
                else
                  match c with
                  -- merge the two short nodes (`concat` copies the key)
                  | .shortNode ckey cval _ => some (.ok (true, .shortNode (nkey ++ ckey) cval t.newFlag))
                  | c => some (.ok (true, .shortNode nkey c t.newFlag))
      | .fullNode cs _ =>
          match key with
          | [] => none
          | k0 :: krest =>
              match child cs k0 with
              | none => none
              | some c =>
                  match t.delete fuel c (pfx ++ [k0]) krest with
                  | none => none
                  | some (.error err) => some (.error err)
                  | some (.ok (dirty, nn)) =>
                      if !dirty then some (.ok (false, n))
                      else
                        match setChild cs k0 nn with
                        | none => none
                        | some cs =>
                            -- the one child left, if there is exactly one
                            match (List.finRange 17).filter (fun i => !(cs i).isNil) with
                            | [pos] =>
                                if pos.val ≠ 16 then
                                  -- a short child absorbs the nibble; resolve it to see
                                  match t.resolve (cs pos) pfx with
                                  | none => none
                                  | some (.error err) => some (.error err)
                                  | some (.ok (.shortNode ckey cval _)) =>
                                      some (.ok (true, .shortNode (UInt8.ofNat pos.val :: ckey) cval t.newFlag))
                                  | some (.ok _) =>
                                      some (.ok (true, .shortNode [UInt8.ofNat pos.val] (cs pos) t.newFlag))
                                else some (.ok (true, .shortNode [UInt8.ofNat pos.val] (cs pos) t.newFlag))
                            | _ => some (.ok (true, .fullNode cs t.newFlag))
      | .valueNode _ => some (.ok (true, .nil))
      | .nil => some (.ok (false, .nil))
      | .hashNode h =>
          match t.resolveHash h pfx with
          | none => none
          | some (.error err) => some (.error err)
          | some (.ok rn) =>
              match t.delete fuel rn pfx key with
              | none => none
              | some (.error err) => some (.error err)
              | some (.ok (dirty, nn)) =>
                  if !dirty then some (.ok (false, rn)) else some (.ok (true, nn))

/-- `TryGet`: the value under `key`, and the trie with what was resolved cached in. -/
def TryGet (t : Trie) (fuel : Nat) (key : Bytes) : Option (Except NodeError (Option Bytes) × Trie) :=
  match t.tryGet fuel t.root (keybytesToHex key) 0 with
  | none => none
  | some (.error err) => some (.error err, t)
  | some (.ok (value, newroot, didResolve)) =>
      some (.ok value, if didResolve then { t with root := newroot } else t)

/-- `TryUpdate`: insert a non-empty value, delete for an empty one. -/
def TryUpdate (t : Trie) (fuel : Nat) (key value : Bytes) : Option (Except NodeError Unit × Trie) :=
  let k := keybytesToHex key
  let r := if value.length ≠ 0 then t.insert fuel t.root [] k (.valueNode value)
    else t.delete fuel t.root [] k
  match r with
  | none => none
  | some (.error err) => some (.error err, t)
  | some (.ok (_, n)) => some (.ok (), { t with root := n })

/-- `TryDelete`: remove the value under `key`. -/
def TryDelete (t : Trie) (fuel : Nat) (key : Bytes) : Option (Except NodeError Unit × Trie) :=
  match t.delete fuel t.root [] (keybytesToHex key) with
  | none => none
  | some (.error err) => some (.error err, t)
  | some (.ok (_, n)) => some (.ok (), { t with root := n })

end Trie

/-- `emptyRoot`: the hash of the empty trie, the Keccak-256 of the encoding of an empty
string (the source writes the constant). -/
def emptyRoot (keccak : Bytes → Bytes) : Bytes := keccak [0x80]

/-- `New`: a trie at `root` over `db`; the zero hash and `emptyRoot` open an empty trie, any
other root is resolved. -/
def New (keccak : Bytes → Bytes) (root : Bytes) (db : KV) : Option (Except NodeError Trie) :=
  let trie : Trie := { root := .nil, db := db, originalRoot := root, cachegen := 0, cachelimit := 0 }
  if root ≠ List.replicate 32 0 ∧ root ≠ emptyRoot keccak then
    match trie.resolveHash root [] with
    | none => none
    | some (.error err) => some (.error err)
    | some (.ok rootnode) => some (.ok { trie with root := rootnode })
  else some (.ok trie)

end Trie
end Ethcore
