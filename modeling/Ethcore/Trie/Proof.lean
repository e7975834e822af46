import Ethcore.Trie.RoundTrip

/-!
# Merkle proofs: `Trie.Prove` of `proof.go`

`Prove` collects the nodes on the path of a key, resolving hash nodes from the trie's
database, and writes to the proof database, under its hash, every node of the path whose
collapsed encoding is stored by hash, and the root in any case.  `VerifyProof` (in
`Ethcore.Trie.Node`) reads these nodes back from the root hash down.

On a trie without nodes the path is empty and `Prove` writes nothing, while the root hash
is `emptyRoot`: `VerifyProof` then reports the root's proof node missing instead of returning
the absent value (`VerifyProof_Prove_empty`).
-/

namespace Ethcore
namespace Trie

set_option linter.dupNamespace false

namespace Trie

/-- The first loop of `Prove`: the nodes on the path of the hex key `key` below `tn`.  A
short node whose key does not match, or a missing child, ends the path; a value node met
with key left panics.  Each pass spends one `fuel`, and `none` is also the fuel running
out. -/
def provePath (t : Trie) : Nat → Node → Bytes → List Node →
    Option (Except NodeError (List Node))
  | 0, _, _, _ => none
  | fuel + 1, tn, key, nodes =>
      if key = [] ∨ tn.isNil then some (.ok nodes)
      else
        match tn with
        | .shortNode k v _ =>
            -- a key that leaves the short node's ends the path after it
            if key.length < k.length ∨ k ≠ key.take k.length then some (.ok (nodes ++ [tn]))
            else t.provePath fuel v (key.drop k.length) (nodes ++ [tn])
        | .fullNode cs _ =>
            match key with
            | [] => some (.ok nodes)
            | b :: rest =>
                match child cs b with
                | some c => t.provePath fuel c rest (nodes ++ [tn])
                | none => none
        | .hashNode h =>
            match t.resolveHash h [] with
            | none => none
            | some (.error err) => some (.error err)
            | some (.ok n) => t.provePath fuel n key nodes
        | _ => none

end Trie

section Prove

variable (keccak : Bytes → Bytes)

/-- The second loop of `Prove`: each node of the path, its children collapsed, is a proof
element when `store` gives its hash or when it is the root; the first `fromLevel` elements
are skipped, and the others written under their hash. -/
def proveStore : Nat → Nat → List Node → KV → Option KV
  | _, _, [], proofDb => some proofDb
  | i, fromLevel, n :: rest, proofDb =>
      match (hasher.mk 0 0).hashChildren keccak n none with
      | none => none
      | some ((n, _), _) =>
          let hn := (hasher.store keccak n none false).1
          let stored : Option Bytes := match hn with
            | .hashNode hash => some hash
            | _ => none
          if stored.isSome ∨ i = 0 then
            if fromLevel > 0 then proveStore (i + 1) (fromLevel - 1) rest proofDb
            else
              let enc := encodeNode n
              let hash := stored.getD (keccak enc)
              proveStore (i + 1) fromLevel rest (proofDb.Put hash enc)
          else proveStore (i + 1) fromLevel rest proofDb

/-- `Prove`: write the proof of `key` into `proofDb`, skipping `fromLevel` elements. -/
def Trie.Prove (t : Trie) (fuel : Nat) (key : Bytes) (fromLevel : Nat) (proofDb : KV) :
    Option (Except NodeError KV) :=
  match t.provePath fuel t.root (keybytesToHex key) [] with
  | none => none
  | some (.error err) => some (.error err)
  | some (.ok nodes) => (proveStore keccak 0 fromLevel nodes proofDb).map .ok

end Prove

section Empty

variable (keccak : Bytes → Bytes) {t : Trie}

/-- A trie without nodes has an empty path: `Prove` writes nothing. -/
theorem Prove_of_root_nil (ht : t.root = .nil) (fuel : Nat) (key : Bytes) (fromLevel : Nat)
    (proofDb : KV) : t.Prove keccak (fuel + 1) key fromLevel proofDb = some (.ok proofDb) := by
  simp [Trie.Prove, Trie.provePath, ht, Node.isNil, proveStore]

/-- A trie without nodes hashes to `emptyRoot`. -/
theorem Hash_of_root_nil (ht : t.root = .nil) :
    (t.Hash keccak).map Prod.fst = some (BytesToHash (emptyRoot keccak)) := by
  simp [Trie.Hash, Trie.hashRoot, ht]

/-- A trie without nodes holds no key. -/
theorem TryGet_of_root_nil (ht : t.root = .nil) (fuel : Nat) (key : Bytes) :
    (t.TryGet (fuel + 1) key).map Prod.fst = some (.ok none) := by
  simp [Trie.TryGet, Trie.tryGet, ht]

/-- A proof database without the root's node: `VerifyProof` reports proof node `0`
missing. -/
theorem VerifyProof_missing_root (fuel : Nat) (rootHash key : Bytes) (proofDb : KV)
    (hmiss : proofDb rootHash = none) :
    VerifyProof (fuel + 1) rootHash key proofDb =
      some (.error (.msg ("proof node " ++ toString 0 ++ " (hash " ++ hex064 rootHash ++
        ") missing")), 0) := by
  simp [VerifyProof, verifyLoop, verifyStep, hmiss]

/-- **The proof of a key in an empty trie does not verify.**  For a trie without nodes,
`Prove` into an empty proof database writes nothing, the root hash is `emptyRoot`, and the
key is absent; `VerifyProof` of the root hash and the key then returns the error that proof
node `0` is missing, not the absent value. -/
theorem VerifyProof_Prove_empty (ht : t.root = .nil) (key : Bytes) (fuel : Nat) :
    t.Prove keccak (fuel + 1) key 0 (fun _ => none) = some (.ok fun _ => none) ∧
      (t.Hash keccak).map Prod.fst = some (BytesToHash (emptyRoot keccak)) ∧
      (t.TryGet (fuel + 1) key).map Prod.fst = some (.ok none) ∧
      VerifyProof (fuel + 1) (BytesToHash (emptyRoot keccak)) key (fun _ => none) =
        some (.error (.msg ("proof node " ++ toString 0 ++ " (hash " ++
          hex064 (BytesToHash (emptyRoot keccak)) ++ ") missing")), 0) :=
  ⟨Prove_of_root_nil keccak ht fuel key 0 _, Hash_of_root_nil keccak ht,
    TryGet_of_root_nil ht fuel key, VerifyProof_missing_root fuel _ key _ rfl⟩

end Empty

/-- The empty trie over the empty database. -/
def emptyTrie : Trie := ⟨.nil, fun _ => none, [], 0, 0⟩

theorem VerifyProof_Prove_empty_zeroKeccak :
    emptyTrie.Prove (fun _ => List.replicate 32 0) 1 [] 0 (fun _ => none) =
        some (.ok fun _ => none) ∧
      (emptyTrie.Hash fun _ => List.replicate 32 0).map Prod.fst =
        some (BytesToHash (emptyRoot fun _ => List.replicate 32 0)) ∧
      (emptyTrie.TryGet 1 []).map Prod.fst = some (.ok none) ∧
      VerifyProof 1 (BytesToHash (emptyRoot fun _ => List.replicate 32 0)) [] (fun _ => none) =
        some (.error (.msg ("proof node " ++ toString 0 ++ " (hash " ++
          hex064 (BytesToHash (emptyRoot fun _ => List.replicate 32 0)) ++ ") missing")), 0) :=
  VerifyProof_Prove_empty (fun _ => List.replicate 32 0) rfl [] 0

end Trie
end Ethcore
