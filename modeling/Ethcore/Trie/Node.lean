import Ethcore.Rlp.Raw
import Ethcore.Trie.Encoding

/-!
# Trie nodes and their decoding: `node.go`, and the proof checker of `proof.go`

A trie node is empty (Go's `nil`), a `fullNode` of seventeen children (sixteen nibbles and
the value slot `16`), a `shortNode` with a hex key and one child, a `hashNode` standing for
a node stored under its hash, or a `valueNode` holding a value.  Nodes in memory carry a
`nodeFlag`: the cached hash, the cache generation and the dirty bit.

`decodeNode` parses the RLP encoding of a node from untrusted bytes: the database, or a
proof.  It is built on the slice reader of `raw.go` (`SplitList`, `CountValues`, `Split`)
and on `compactToHex`, and recurses into embedded nodes through `decodeRef`.  Each helper
that can panic returns an `Option` (`none` for the panic), and so do the decoders.

`decodeRef` returns the bytes after the reference it read, which are strictly fewer than
its input (`Rest`); the decoders recurse on shorter and shorter buffers, which is their
termination argument.

Results: `decodeNode` panics on the short node with an empty compact key
(`decodeNode_empty_compact_key`) and on a list whose last byte is a lone `0x81`, and so
does `VerifyProof` on a proof holding either; `VerifyProof` runs forever on a proof whose
node refers to itself through a short node with an empty key.  On the nodes `decodeNode`
returns, `get` never panics for a hex key (`get_isSome`).
-/

namespace Ethcore
namespace Trie

/-- `nodeFlag`: the cached hash of the node (`none` for nil), its cache generation, and
whether it has changes that must be written to the database. -/
structure NodeFlag where
  hash : Option Bytes
  gen : UInt16
  dirty : Bool

/-- A trie node: Go's interface `node`, with `nil` as a node of its own. -/
inductive Node where
  | nil
  | fullNode (Children : Fin 17 → Node) (flags : NodeFlag)
  | shortNode (Key : Bytes) (Val : Node) (flags : NodeFlag)
  | hashNode (hash : Bytes)
  | valueNode (value : Bytes)

/-- Whether a node is Go's `nil`. -/
def Node.isNil : Node → Bool
  | .nil => true
  | _ => false

/-- The errors of the trie package.  `errorf f err` is `fmt.Errorf(f + "%v", err)`, which
keeps the wrapped error's text; `decodeError` is the node decoder's error with the path
into the node, innermost first. -/
inductive NodeError where
  | rlp (err : Rlp.Error)
  | msg (text : String)
  | errorf (format : String) (err : NodeError)
  | decodeError (what : NodeError) (stack : List String)
  | MissingNodeError (NodeHash : Bytes) (Path : Bytes)

/-- `wrapError`: add one step of the path to a decoding error.  (The source's `nil` case is
that of a decoder that succeeded: callers apply this to errors only.) -/
def wrapError (err : NodeError) (ctx : String) : NodeError :=
  match err with
  | .decodeError what stack => .decodeError what (stack ++ [ctx])
  | err => .decodeError err [ctx]

/-- `hashLen`: the length of a hash. -/
def hashLen : Nat := 32

/-- The bytes after a value read from the front of `buf`: strictly fewer than `buf`. -/
abbrev Rest (buf : Bytes) := {rest : Bytes // rest.length < buf.length}

mutual

/-- `decodeNode`: the node encoded at the front of `buf`, with `hash` as its cached hash.
The count of `CountValues` is read with its error ignored, which makes it `0`. -/
def decodeNode (hash : Option Bytes) (buf : Bytes) (cachegen : UInt16) :
    Option (Except NodeError Node) :=
  if buf.length = 0 then some (.error (.rlp .ioErrUnexpectedEOF))
  else
    match hs : Rlp.SplitList buf with
    | none => none
    | some (.error err) => some (.error (.errorf "decode error: " (.rlp err)))
    | some (.ok (elems, _)) =>
        match Rlp.CountValues elems with
        | none => none
        | some r =>
            let c := match r with
              | .ok c => c
              | .error _ => 0
            if c = 2 then
              (decodeShort hash elems cachegen).map (·.mapError (wrapError · "short"))
            else if c = 17 then
              (decodeFull hash elems cachegen).map (·.mapError (wrapError · "full"))
            else some (.error (.msg ("invalid number of list elements: " ++ toString c)))
termination_by (buf.length, 1)
decreasing_by
  all_goals
    have := Rlp.SplitList_content_lt hs
    exact Prod.Lex.left _ _ this

/-- `decodeShort`: the key, then a value when the key has the terminator, else a
reference. -/
def decodeShort (hash : Option Bytes) (elems : Bytes) (cachegen : UInt16) :
    Option (Except NodeError Node) :=
  match hs : Rlp.SplitString elems with
  | none => none
  | some (.error err) => some (.error (.rlp err))
  | some (.ok (kbuf, rest)) =>
      let flag : NodeFlag := { hash := hash, gen := cachegen, dirty := false }
      match compactToHex kbuf with
      | none => none
      | some key =>
          if hasTerm key then
            -- value node
            match Rlp.SplitString rest with
            | none => none
            | some (.error err) => some (.error (.errorf "invalid value node: " (.rlp err)))
            | some (.ok (val, _)) => some (.ok (.shortNode key (.valueNode val) flag))
          else
            match decodeRef rest cachegen with
            | none => none
            | some (.error err) => some (.error (wrapError err "val"))
            | some (.ok (r, _)) => some (.ok (.shortNode key r flag))
termination_by (elems.length, 4)
decreasing_by
  obtain ⟨k, -, hk⟩ := Rlp.SplitString_ok hs
  exact Prod.Lex.left _ _ (Rlp.Split_rest_lt hk)

/-- The loop of `decodeFull`: children `i` to `15`, each a reference, stored into
`Children`. -/
def decodeFullChildren (cachegen : UInt16) (i : Nat) (Children : Fin 17 → Node)
    (elems : Bytes) : Option (Except NodeError ((Fin 17 → Node) × Bytes)) :=
  if hi : i < 16 then
    match decodeRef elems cachegen with
    | none => none
    | some (.error err) => some (.error (wrapError err ("[" ++ toString i ++ "]")))
    | some (.ok (cld, rest)) =>
        decodeFullChildren cachegen (i + 1) (Function.update Children ⟨i, by omega⟩ cld) rest.1
  else some (.ok (Children, elems))
termination_by (elems.length, 3)
decreasing_by
  all_goals first
    | exact Prod.Lex.left _ _ rest.2
    | exact Prod.Lex.right _ (by decide)

/-- `decodeFull`: sixteen references, then the value, kept only when non-empty. -/
def decodeFull (hash : Option Bytes) (elems : Bytes) (cachegen : UInt16) :
    Option (Except NodeError Node) :=
  let flags : NodeFlag := { hash := hash, gen := cachegen, dirty := false }
  match decodeFullChildren cachegen 0 (fun _ => .nil) elems with
  | none => none
  | some (.error err) => some (.error err)
  | some (.ok (Children, elems)) =>
      match Rlp.SplitString elems with
      | none => none
      | some (.error err) => some (.error (.rlp err))
      | some (.ok (val, _)) =>
          if val.length > 0 then
            some (.ok (.fullNode (Function.update Children 16 (.valueNode val)) flags))
          else some (.ok (.fullNode Children flags))
termination_by (elems.length, 4)
decreasing_by exact Prod.Lex.right _ (by decide)

/-- `decodeRef`: a reference to a child, and the bytes after it.  An embedded node is a list
of at most `hashLen` bytes, decoded in place; an empty string is the empty node and a
32-byte string a hash. -/
def decodeRef (buf : Bytes) (cachegen : UInt16) :
    Option (Except NodeError (Node × Rest buf)) :=
  match hs : Rlp.Split buf with
  | none => none
  | some (.error err) => some (.error (.rlp err))
  | some (.ok (kind, val, rest)) =>
      let rest : Rest buf := ⟨rest, Rlp.Split_rest_lt hs⟩
      if kind = .List then
        -- an embedded node must be smaller than a hash
        let size := buf.length - rest.1.length
        if size > hashLen then
          some (.error (.msg ("oversized embedded node (size is " ++ toString size ++
            " bytes, want size < " ++ toString hashLen ++ ")")))
        else (decodeNode none buf cachegen).map (·.map (·, rest))
      else if kind = .String ∧ val.length = 0 then some (.ok (.nil, rest))
      else if kind = .String ∧ val.length = 32 then some (.ok (.hashNode val, rest))
      else
        some (.error (.msg ("invalid RLP string size " ++ toString val.length ++
          " (want 0 or 32)")))
termination_by (buf.length, 2)
decreasing_by exact Prod.Lex.right _ (by decide)

end

/-! ### The proof checker -/

/-- `get`: walk `key` down the nodes of one proof element; the key left and the node
reached (a hash to follow, a value, or nothing).  `none` is the panic of `key[0]` on an
exhausted key, or of a nibble past the children. -/
def get : Node → Bytes → Option (Bytes × Node)
  | .shortNode k v _, key =>
      if key.length < k.length ∨ k ≠ key.take k.length then some ([], .nil)
      else get v (key.drop k.length)
  | .fullNode cs _, key =>
      match key with
      | [] => none
      | b :: rest => if h : b.toNat < 17 then get (cs ⟨b.toNat, h⟩) rest else none
  | .hashNode h, key => some (key, .hashNode h)
  | .nil, key => some (key, .nil)
  | .valueNode v, _ => some ([], .valueNode v)

/-- The lowercase hexadecimal digit of `n < 16`. -/
def hexDigit (n : Nat) : Char :=
  if n < 10 then Char.ofNat (48 + n) else Char.ofNat (87 + n)

/-- `%064x` of a byte slice: two hex digits a byte, padded with zeros to 64 digits. -/
def hex064 (b : Bytes) : String :=
  let digits := b.flatMap fun x => [hexDigit (x.toNat / 16), hexDigit (x.toNat % 16)]
  String.ofList (List.replicate (64 - digits.length) '0' ++ digits)

/-- What `VerifyProof` returns: the value (`none` for nil) or the error, and the number of
proof nodes read. -/
abbrev VerifyResult := Except NodeError (Option Bytes) × Nat

/-- One pass of the loop of `VerifyProof` at proof node `i`: either the function returns
(`.error r`, with `r` its result) or it goes on with the key left and the next hash. -/
def verifyStep (proofDb : Bytes → Option Bytes) (i : Nat) (key wantHash : Bytes) :
    Option (Except VerifyResult (Bytes × Bytes)) :=
  match proofDb wantHash with
  | none => some (.error (.error (.msg ("proof node " ++ toString i ++ " (hash " ++
      hex064 wantHash ++ ") missing")), i))
  | some buf =>
      match decodeNode (some wantHash) buf 0 with
      | none => none
      | some (.error err) =>
          some (.error (.error (.errorf ("bad proof node " ++ toString i ++ ": ") err), i))
      | some (.ok n) =>
          match get n key with
          | none => none
          | some (keyrest, cld) =>
              match cld with
              | .hashNode h => some (.ok (keyrest, h))
              | .valueNode v => some (.error (.ok (some v), i + 1))
              -- the trie does not hold the key (a node `get` never returns counts as nil)
              | _ => some (.error (.ok none, i))

/-- The loop of `VerifyProof`, run for at most `fuel` proof nodes; `none` is a panic, or
the fuel running out. -/
def verifyLoop (proofDb : Bytes → Option Bytes) : Nat → Nat → Bytes → Bytes → Option VerifyResult
  | 0, _, _, _ => none
  | fuel + 1, i, key, wantHash =>
      match verifyStep proofDb i key wantHash with
      | none => none
      | some (.error r) => some r
      | some (.ok (key, wantHash)) => verifyLoop proofDb fuel (i + 1) key wantHash

/-- One proof node of the loop. -/
theorem verifyLoop_succ (proofDb : Bytes → Option Bytes) (fuel i : Nat) (key wantHash : Bytes) :
    verifyLoop proofDb (fuel + 1) i key wantHash =
      match verifyStep proofDb i key wantHash with
      | none => none
      | some (.error r) => some r
      | some (.ok (key, wantHash)) => verifyLoop proofDb fuel (i + 1) key wantHash :=
  rfl

/-- `VerifyProof`: follow `key` from the node stored under `rootHash`, for at most `fuel`
proof nodes.  The proof database's `Get` returns `none` for a nil slice. -/
def VerifyProof (fuel : Nat) (rootHash key : Bytes) (proofDb : Bytes → Option Bytes) :
    Option VerifyResult :=
  verifyLoop proofDb fuel 0 (keybytesToHex key) rootHash

/-! ### What the decoders do, case by case -/

section Spec

open Rlp

variable {hash : Option Bytes} {cachegen : UInt16}

theorem length_ne_zero_of_SplitList {buf elems rest : Bytes}
    (h : SplitList buf = some (.ok (elems, rest))) : buf.length ≠ 0 := by
  intro hl
  rw [List.length_eq_zero_iff.mp hl] at h
  cases h

/-- `decodeNode` panics when `CountValues` does. -/
theorem decodeNode_CountValues_none {buf elems rest : Bytes}
    (h : SplitList buf = some (.ok (elems, rest))) (hc : CountValues elems = none) :
    decodeNode hash buf cachegen = none := by
  rw [decodeNode, if_neg (length_ne_zero_of_SplitList h)]
  split
  · rfl
  · next heq => rw [h] at heq; cases heq
  · next heq => rw [h] at heq; cases heq; simp [hc]

/-- `decodeNode` on a list of two values: a short node. -/
theorem decodeNode_short {buf elems rest : Bytes}
    (h : SplitList buf = some (.ok (elems, rest))) (hc : CountValues elems = some (.ok 2)) :
    decodeNode hash buf cachegen =
      (decodeShort hash elems cachegen).map (·.mapError (wrapError · "short")) := by
  rw [decodeNode, if_neg (length_ne_zero_of_SplitList h)]
  split
  · next heq => rw [h] at heq; cases heq
  · next heq => rw [h] at heq; cases heq
  · next heq => rw [h] at heq; cases heq; simp [hc]

/-- `decodeNode` on a list of seventeen values: a full node. -/
theorem decodeNode_full {buf elems rest : Bytes}
    (h : SplitList buf = some (.ok (elems, rest))) (hc : CountValues elems = some (.ok 17)) :
    decodeNode hash buf cachegen =
      (decodeFull hash elems cachegen).map (·.mapError (wrapError · "full")) := by
  rw [decodeNode, if_neg (length_ne_zero_of_SplitList h)]
  split
  · next heq => rw [h] at heq; cases heq
  · next heq => rw [h] at heq; cases heq
  · next heq => rw [h] at heq; cases heq; simp [hc]

/-- `decodeShort` panics when `compactToHex` does, on an empty key. -/
theorem decodeShort_compactToHex_none {elems kbuf rest : Bytes}
    (h : SplitString elems = some (.ok (kbuf, rest))) (hk : compactToHex kbuf = none) :
    decodeShort hash elems cachegen = none := by
  rw [decodeShort]
  split
  · rfl
  · next heq => rw [h] at heq; cases heq
  · next heq => rw [h] at heq; cases heq; simp [hk]

/-- A short node whose key has no terminator: its child is a reference. -/
theorem decodeShort_ref {elems kbuf rest key : Bytes} {r : Node} {rest' : Rest rest}
    (h : SplitString elems = some (.ok (kbuf, rest))) (hk : compactToHex kbuf = some key)
    (ht : hasTerm key = false) (hr : decodeRef rest cachegen = some (.ok (r, rest'))) :
    decodeShort hash elems cachegen =
      some (.ok (.shortNode key r { hash := hash, gen := cachegen, dirty := false })) := by
  rw [decodeShort]
  split
  · next heq => rw [h] at heq; cases heq
  · next heq => rw [h] at heq; cases heq
  · next heq => rw [h] at heq; cases heq; simp [hk, ht, hr]

/-- A 32-byte string is a hash reference. -/
theorem decodeRef_hash {buf val rest : Bytes}
    (h : Split buf = some (.ok (.String, val, rest))) (hl : val.length = 32) :
    decodeRef buf cachegen = some (.ok (.hashNode val, ⟨rest, Split_rest_lt h⟩)) := by
  rw [decodeRef]
  split
  · next heq => rw [h] at heq; cases heq
  · next heq => rw [h] at heq; cases heq
  · next heq => rw [h] at heq; cases heq; simp [hl]

end Spec

/-! ### Where the decoder and the proof checker fail to return -/

/-- The short node `[compact key "", ""]` (`C2 80 80`): `compactToHex` reads the first nibble
of an empty key. -/
theorem decodeNode_empty_compact_key (hash : Option Bytes) (cachegen : UInt16) :
    decodeNode hash [0xC2, 0x80, 0x80] cachegen = none := by
  have hc : Rlp.CountValues [0x80, 0x80] = some (.ok 2) := by
    rw [@Rlp.CountValues_of_readKind [0x80, 0x80] .String 1 0 rfl]
    have h1 : Rlp.CountValues [0x80] = some (.ok 1) := by
      rw [@Rlp.CountValues_of_readKind [0x80] .String 1 0 rfl]
      simp [Except.map]
    simp [h1, Except.map]
  rw [decodeNode_short rfl hc, decodeShort_compactToHex_none rfl rfl]
  rfl

/-- The list `[0x81]` (`C1 81`): counting its values reads past the lone `0x81`. -/
theorem decodeNode_lone_0x81 (hash : Option Bytes) (cachegen : UInt16) :
    decodeNode hash [0xC1, 0x81] cachegen = none :=
  decodeNode_CountValues_none rfl (Rlp.CountValues_of_readKind_none Rlp.readKind_lone_0x81)

/-- A proof database holding the one node `buf` under `root`. -/
def singleProof (root buf : Bytes) : Bytes → Option Bytes :=
  fun h => if h = root then some buf else none

/-- The loop of `VerifyProof` never returns from a state its step leads back to. -/
theorem verifyLoop_of_step_self {proofDb : Bytes → Option Bytes} {key wantHash : Bytes}
    (h : ∀ i, verifyStep proofDb i key wantHash = some (.ok (key, wantHash))) :
    ∀ fuel i, verifyLoop proofDb fuel i key wantHash = none := by
  intro fuel
  induction fuel with
  | zero => intro i; rfl
  | succ fuel ih =>
      intro i
      simp only [verifyLoop_succ, h i]
      exact ih (i + 1)

/-- Nor from one whose step panics. -/
theorem verifyLoop_of_step_none {proofDb : Bytes → Option Bytes} {i : Nat} {key wantHash : Bytes}
    (h : verifyStep proofDb i key wantHash = none) (fuel : Nat) :
    verifyLoop proofDb fuel i key wantHash = none := by
  cases fuel with
  | zero => rfl
  | succ fuel => simp only [verifyLoop_succ, h]

/-- `VerifyProof` panics at the first proof node on both malformed nodes: the short node with
an empty compact key, and the list ending in a lone `0x81`. -/
theorem VerifyProof_panics (root key : Bytes) :
    ∀ buf ∈ [[0xC2, 0x80, 0x80], [0xC1, 0x81]],
      decodeNode (some root) buf 0 = none ∧
      verifyStep (singleProof root buf) 0 (keybytesToHex key) root = none ∧
      ∀ fuel, VerifyProof fuel root key (singleProof root buf) = none := by
  intro buf hbuf
  have hdec : decodeNode (some root) buf 0 = none := by
    simp only [List.mem_cons, List.not_mem_nil, or_false] at hbuf
    rcases hbuf with rfl | rfl
    · exact decodeNode_empty_compact_key _ _
    · exact decodeNode_lone_0x81 _ _
  have hstep : verifyStep (singleProof root buf) 0 (keybytesToHex key) root = none := by
    simp [verifyStep, singleProof, hdec]
  exact ⟨hdec, hstep, fun fuel => verifyLoop_of_step_none hstep fuel⟩

theorem VerifyProof_panics_empty_compact_key :
    decodeNode (some []) [0xC2, 0x80, 0x80] 0 = none ∧
      verifyStep (singleProof [] [0xC2, 0x80, 0x80]) 0 (keybytesToHex []) [] = none ∧
      ∀ fuel, VerifyProof fuel [] [] (singleProof [] [0xC2, 0x80, 0x80]) = none :=
  VerifyProof_panics [] [] _ List.mem_cons_self

/-- A proof node that refers to itself: a short node with the empty key (compact `00`) whose
child is the 32-byte hash `h`. -/
def selfRef (h : Bytes) : Bytes := [0xE2, 0x00, 0xA0] ++ h

/-- The zero hash. -/
def zeroHash : Bytes := List.replicate 32 0

theorem verifyStep_selfRef (i : Nat) (key : Bytes) :
    verifyStep (singleProof zeroHash (selfRef zeroHash)) i key zeroHash =
      some (.ok (key, zeroHash)) := by
  have hc : Rlp.CountValues ([0x00, 0xA0] ++ zeroHash) = some (.ok 2) := by
    rw [@Rlp.CountValues_of_readKind _ .Byte 0 1 rfl,
      @Rlp.CountValues_of_readKind _ .String 1 32 rfl]
    simp [Except.map, zeroHash]
  have hn : decodeNode (some zeroHash) (selfRef zeroHash) 0 =
      some (.ok (.shortNode [] (.hashNode zeroHash) ⟨some zeroHash, 0, false⟩)) := by
    rw [decodeNode_short rfl hc, decodeShort_ref rfl rfl rfl (decodeRef_hash rfl rfl)]
    rfl
  simp only [verifyStep, singleProof, if_true, hn, get]
  simp

/-- `VerifyProof` runs forever on a proof whose node is its own child: the key never
shortens, and no amount of fuel ends the loop. -/
theorem VerifyProof_selfRef_diverges (key : Bytes) (fuel : Nat) :
    VerifyProof fuel zeroHash key (singleProof zeroHash (selfRef zeroHash)) = none :=
  verifyLoop_of_step_self (fun i => verifyStep_selfRef i _) fuel 0

end Trie
end Ethcore
