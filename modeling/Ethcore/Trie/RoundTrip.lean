import Ethcore.Trie.Hasher

/-!
# The node decoder reads back what the hasher writes

The hasher stores a node collapsed: its key in compact form, each child replaced by a
reference (an empty string for no child, the 32-byte hash of a stored child, or the child
itself, collapsed, when its encoding is at most 32 bytes), and the value slot of a full
node as a string.  `Collapsed` describes these nodes (`Collapsed false`) and references
(`Collapsed true`).

`decodeNode` on the encoding of a collapsed node returns `expand` of it: hex keys again,
no child for an empty string, hash nodes for hashes, embedded children decoded in place,
and every node with clean flags of the generation it was read at
(`decodeNode_encodeNode`).  This is what `resolveHash` relies on when it reads back a
committed node, and what `VerifyProof` relies on when it reads the nodes `Prove` wrote.
-/

namespace Ethcore
namespace Trie

open Rlp

/-- The flags of a decoded node: the hash it was read under, the generation it was read
at, and clean. -/
def decodedFlag (hash : Option Bytes) (gen : UInt16) : NodeFlag :=
  { hash := hash, gen := gen, dirty := false }

/-- A reference that is not a node: a string, empty for no child or a hash. -/
def Node.isStringRef : Node → Bool
  | .valueNode _ | .hashNode _ => true
  | _ => false

/-- What `decodeRef` makes of a string reference: no child, or a hash node. -/
def stringRef : Node → Node
  | .hashNode h => .hashNode h
  | _ => .nil

/-- What `decodeNode` makes of a collapsed node: hex keys, no child for the empty string,
embedded children decoded in place, the value slot kept when it is not empty. -/
def expand (hash : Option Bytes) (gen : UInt16) : Node → Node
  | .shortNode ck cv _ =>
      let key := (compactToHex ck).getD []
      .shortNode key
        (if hasTerm key then cv
         else if cv.isStringRef then stringRef cv else expand none gen cv)
        (decodedFlag hash gen)
  | .fullNode cs _ =>
      .fullNode
        (fun i => if i.val < 16 then
            (if (cs i).isStringRef then stringRef (cs i) else expand none gen (cs i))
          else
            match cs 16 with
            | .valueNode v => if v.length > 0 then .valueNode v else .nil
            | _ => .nil)
        (decodedFlag hash gen)
  | n => n

/-- What `decodeRef` makes of a reference. -/
def expandRef (gen : UInt16) (c : Node) : Node :=
  if c.isStringRef then stringRef c else expand none gen c

/-- What `decodeFull` makes of the value slot. -/
def expandSlot : Node → Node
  | .valueNode v => if v.length > 0 then .valueNode v else .nil
  | _ => .nil

theorem expand_shortNode (hash : Option Bytes) (gen : UInt16) (ck : Bytes) (cv : Node)
    (f : NodeFlag) :
    expand hash gen (.shortNode ck cv f) =
      .shortNode ((compactToHex ck).getD [])
        (if hasTerm ((compactToHex ck).getD []) then cv else expandRef gen cv)
        (decodedFlag hash gen) :=
  rfl

theorem expand_fullNode (hash : Option Bytes) (gen : UInt16) (cs : Fin 17 → Node) (f : NodeFlag) :
    expand hash gen (.fullNode cs f) =
      .fullNode (fun i => if i.val < 16 then expandRef gen (cs i) else expandSlot (cs 16))
        (decodedFlag hash gen) :=
  rfl

/-- The nodes the hasher writes (`Collapsed false`) and the references they hold to their
children (`Collapsed true`). -/
inductive Collapsed : Bool → Node → Prop
  | leaf (ns v : Bytes) (f : NodeFlag) : Nibbles ns →
      Collapsed false (.shortNode (hexToCompact (ns ++ [16])) (.valueNode v) f)
  | ext (ns : Bytes) (c : Node) (f : NodeFlag) : Nibbles ns → Collapsed true c →
      Collapsed false (.shortNode (hexToCompact ns) c f)
  | full (cs : Fin 17 → Node) (v : Bytes) (f : NodeFlag) :
      (∀ i : Fin 17, i.val < 16 → Collapsed true (cs i)) → cs 16 = .valueNode v →
      Collapsed false (.fullNode cs f)
  | empty : Collapsed true (.valueNode [])
  | hash (h : Bytes) : h.length = 32 → Collapsed true (.hashNode h)
  | embed (c : Node) : Collapsed false c → (encodeNode c).length ≤ 32 → Collapsed true c

/-! ### The decoders, step by step -/

section Steps

variable {hash : Option Bytes} {gen : UInt16}

theorem decodeRef_of_Split {buf val rest : Bytes} {k : Kind}
    (h : Split buf = some (.ok (k, val, rest))) :
    decodeRef buf gen =
      if k = .List then
        if buf.length - rest.length > hashLen then
          some (.error (.msg ("oversized embedded node (size is " ++
            toString (buf.length - rest.length) ++ " bytes, want size < " ++ toString hashLen ++ ")")))
        else (decodeNode none buf gen).map (·.map (·, ⟨rest, Split_rest_lt h⟩))
      else if k = .String ∧ val.length = 0 then some (.ok (.nil, ⟨rest, Split_rest_lt h⟩))
      else if k = .String ∧ val.length = 32 then some (.ok (.hashNode val, ⟨rest, Split_rest_lt h⟩))
      else some (.error (.msg ("invalid RLP string size " ++ toString val.length ++
        " (want 0 or 32)"))) := by
  rw [decodeRef]
  split
  · next heq => rw [h] at heq; cases heq
  · next heq => rw [h] at heq; cases heq
  · next heq => rw [h] at heq; cases heq; rfl

/-- A short node whose key has the terminator: its child is the value string. -/
theorem decodeShort_value {elems kbuf rest key val rest' : Bytes}
    (h : SplitString elems = some (.ok (kbuf, rest))) (hk : compactToHex kbuf = some key)
    (ht : hasTerm key = true) (hv : SplitString rest = some (.ok (val, rest'))) :
    decodeShort hash elems gen = some (.ok (.shortNode key (.valueNode val) (decodedFlag hash gen))) := by
  rw [decodeShort]
  split
  · next heq => rw [h] at heq; cases heq
  · next heq => rw [h] at heq; cases heq
  · next heq => rw [h] at heq; cases heq; simp [hk, ht, hv, decodedFlag]

theorem decodeFullChildren_done (Children : Fin 17 → Node) (elems : Bytes) :
    decodeFullChildren gen 16 Children elems = some (.ok (Children, elems)) := by
  rw [decodeFullChildren]
  simp

theorem decodeFullChildren_step {i : Nat} (hi : i < 16) (Children : Fin 17 → Node)
    {elems : Bytes} {cld : Node} {rest : Rest elems}
    (h : decodeRef elems gen = some (.ok (cld, rest))) :
    decodeFullChildren gen i Children elems =
      decodeFullChildren gen (i + 1) (Function.update Children ⟨i, by omega⟩ cld) rest.1 := by
  rw [decodeFullChildren, dif_pos hi]
  simp only [h]

/-- The decoder's loop over the sixteen children of a full node whose references it reads
back: from child `i` on, each child is the reference read, and the value slot is left. -/
theorem decodeFullChildren_refs (cs : Fin 17 → Node)
    (href : ∀ i : Fin 17, i.val < 16 → ∀ rest, ∃ h,
      decodeRef (encodeNode (cs i) ++ rest) gen = some (.ok (expandRef gen (cs i), ⟨rest, h⟩))) :
    ∀ k i, i + k = 16 → ∀ Children : Fin 17 → Node,
      decodeFullChildren gen i Children
          (Item.encodeAll ((List.ofFn fun j => (cs j).toItem).drop i)) =
        some (.ok (fun j => if i ≤ j.val ∧ j.val < 16 then expandRef gen (cs j) else Children j,
          encodeNode (cs 16) ++ [])) := by
  intro k
  induction k with
  | zero =>
      intro i hi Children
      obtain rfl : i = 16 := by omega
      rw [decodeFullChildren_done]
      have hdrop : (List.ofFn fun j => (cs j).toItem).drop 16 = [(cs 16).toItem] := by
        simp [List.ofFn_succ]
      rw [hdrop]
      simp only [encodeAll_cons, encodeAll_nil, encodeNode, Option.some.injEq, Except.ok.injEq,
        Prod.mk.injEq, and_true]
      funext j
      rw [if_neg (by omega)]
  | succ k ih =>
      intro i hi Children
      have hlt : i < 16 := by omega
      have hdrop : (List.ofFn fun j => (cs j).toItem).drop i =
          (cs ⟨i, by omega⟩).toItem :: (List.ofFn fun j => (cs j).toItem).drop (i + 1) := by
        rw [List.drop_eq_getElem_cons (by simp; omega), List.getElem_ofFn]
      obtain ⟨hrest, hr⟩ := href ⟨i, by omega⟩ hlt
        (Item.encodeAll ((List.ofFn fun j => (cs j).toItem).drop (i + 1)))
      rw [hdrop, encodeAll_cons, ← encodeNode, decodeFullChildren_step hlt Children hr,
        ih (i + 1) (by omega)]
      congr 3
      funext j
      by_cases hj : j = ⟨i, by omega⟩
      · subst hj
        simp only [Function.update_self, le_refl, hlt, and_self, if_true, ite_self]
      · have hji : j.val ≠ i := fun e => hj (Fin.ext e)
        simp only [Function.update_of_ne hj]
        by_cases hij : i ≤ j.val
        · have : i + 1 ≤ j.val := by omega
          simp [hij, this]
        · have : ¬ i + 1 ≤ j.val := by omega
          simp [hij, this]

end Steps

/-! ### The round trip -/

theorem Collapsed.toItem_list {c : Node} (h : Collapsed false c) : ∃ xs, c.toItem = .list xs := by
  cases h with
  | leaf ns v f _ => exact ⟨_, rfl⟩
  | ext ns c f _ _ => exact ⟨_, rfl⟩
  | full cs v f _ _ => exact ⟨_, rfl⟩

theorem Collapsed.isStringRef_eq_false {c : Node} (h : Collapsed false c) : c.isStringRef = false := by
  cases h <;> rfl

theorem compactToHex_leafKey {ns : Bytes} (hns : Nibbles ns) :
    compactToHex (hexToCompact (ns ++ [16])) = some (ns ++ [16]) := by
  simpa [withTerm] using compactToHex_hexToCompact hns true

theorem compactToHex_extKey {ns : Bytes} (hns : Nibbles ns) :
    compactToHex (hexToCompact ns) = some ns := by
  simpa [withTerm] using compactToHex_hexToCompact hns false

theorem hasTerm_leafKey {ns : Bytes} (hns : Nibbles ns) : hasTerm (ns ++ [16]) = true := by
  simpa [withTerm] using hasTerm_withTerm hns true

theorem hasTerm_extKey {ns : Bytes} (hns : Nibbles ns) : hasTerm ns = false := by
  simpa [withTerm] using hasTerm_withTerm hns false

/-- **The decoder reads back the hasher's nodes**, with anything after them: a collapsed
node decodes to its `expand`, a reference to its `expandRef`. -/
theorem decode_collapsed {b : Bool} {c : Node} (hc : Collapsed b c) (gen : UInt16) :
    c.toItem.Fits →
      (b = false → ∀ hash rest,
        decodeNode hash (encodeNode c ++ rest) gen = some (.ok (expand hash gen c))) ∧
      (b = true → ∀ rest, ∃ h,
        decodeRef (encodeNode c ++ rest) gen = some (.ok (expandRef gen c, ⟨rest, h⟩))) := by
  induction hc with
  | leaf ns v f hns =>
      intro hfit
      refine ⟨fun _ hash rest => ?_, fun h => absurd h (by simp)⟩
      have hv : (Node.valueNode v).toItem = .bytes v := rfl
      have hsl := SplitList_encode_list _ hfit rest
      have hcount := CountValues_encodeAll _ hfit.2
      obtain ⟨-, hkfit, hvfit, -⟩ := hfit
      rw [hv] at hsl hcount hvfit
      rw [encodeNode, Node.toItem, hv, decodeNode_short hsl hcount, encodeAll_cons,
        encodeAll_cons, encodeAll_nil,
        decodeShort_value (SplitString_encode_bytes _ hkfit _) (compactToHex_leafKey hns)
          (hasTerm_leafKey hns) (SplitString_encode_bytes v hvfit []),
        expand_shortNode, compactToHex_leafKey hns]
      simp [hasTerm_leafKey hns, Except.mapError]
  | ext ns c f hns hc ih =>
      intro hfit
      refine ⟨fun _ hash rest => ?_, fun h => absurd h (by simp)⟩
      have hsl := SplitList_encode_list _ hfit rest
      have hcount := CountValues_encodeAll _ hfit.2
      obtain ⟨-, hkfit, hcfit, -⟩ := hfit
      obtain ⟨hlt, hr⟩ := (ih hcfit).2 rfl []
      rw [encodeNode, Node.toItem, decodeNode_short hsl hcount, encodeAll_cons,
        encodeAll_cons, encodeAll_nil, ← encodeNode,
        decodeShort_ref (SplitString_encode_bytes _ hkfit _) (compactToHex_extKey hns)
          (hasTerm_extKey hns) hr,
        expand_shortNode, compactToHex_extKey hns]
      simp [hasTerm_extKey hns, decodedFlag, Except.mapError]
  | full cs v f hcs h16 ih =>
      intro hfit
      refine ⟨fun _ hash rest => ?_, fun h => absurd h (by simp)⟩
      have hall : Item.FitsAll (List.ofFn fun i => (cs i).toItem) := hfit.2
      have hcfit : ∀ i, (cs i).toItem.Fits := fun i =>
        fits_of_mem hall (List.mem_ofFn.mpr ⟨i, rfl⟩)
      have hsl := SplitList_encode_list _ hfit rest
      have hcount : CountValues (Item.encodeAll (List.ofFn fun i => (cs i).toItem)) =
          some (.ok 17) := by
        rw [CountValues_encodeAll _ hall, List.length_ofFn]
      have href : ∀ i : Fin 17, i.val < 16 → ∀ rest, ∃ h,
          decodeRef (encodeNode (cs i) ++ rest) gen = some (.ok (expandRef gen (cs i), ⟨rest, h⟩)) :=
        fun i hi => (ih i hi (hcfit i)).2 rfl
      have hloop := decodeFullChildren_refs cs href 16 0 rfl (fun _ => .nil)
      rw [List.drop_zero] at hloop
      have hval : (cs 16).toItem.Fits := hcfit 16
      rw [h16] at hval
      have hslot : SplitString (encodeNode (.valueNode v) ++ []) = some (.ok (v, [])) :=
        SplitString_encode_bytes v hval []
      rw [encodeNode, Node.toItem, decodeNode_full hsl hcount, decodeFull]
      simp only [hloop, h16, hslot, expand_fullNode, expandSlot, zero_le, true_and]
      by_cases hv : v.length > 0
      · simp only [hv, if_true, Option.map_some, Except.mapError, Option.some.injEq,
          Except.ok.injEq]
        congr 1
        funext j
        by_cases hj : j = 16
        · subst hj
          simp
        · have hjl : j.val < 16 := by
            have : j.val ≠ 16 := fun e => hj (Fin.ext e)
            omega
          simp [Function.update_of_ne hj, hjl]
      · simp only [hv, if_false, Option.map_some, Except.mapError, Option.some.injEq,
          Except.ok.injEq]
        congr 1
  | empty =>
      intro _
      refine ⟨fun h => absurd h (by simp), fun _ rest => ?_⟩
      have hs := Split_encode (Item.bytes []) (by simp [Item.Fits]) rest
      rw [encodeNode, Node.toItem, decodeRef_of_Split hs]
      simp [Item.kind, Item.content, expandRef, Node.isStringRef, stringRef, encodeBytes,
        lengthPrefix]
  | hash h hl =>
      intro hfit
      refine ⟨fun h => absurd h (by simp), fun _ rest => ?_⟩
      have hk : (Item.bytes h).kind = .String := by simp [Item.kind, hl]
      have hs : Split (encodeNode (.hashNode h) ++ rest) = some (.ok (.String, h, rest)) := by
        rw [encodeNode, Node.toItem, Split_encode (Item.bytes h) hfit rest, hk]
        rfl
      exact ⟨Split_rest_lt hs, decodeRef_hash hs hl⟩
  | embed c hc hlen ih =>
      intro hfit
      refine ⟨fun h => absurd h (by simp), fun _ rest => ?_⟩
      obtain ⟨xs, hxs⟩ := hc.toItem_list
      have hs : Split (encodeNode c ++ rest) = some (.ok (.List, Item.encodeAll xs, rest)) := by
        rw [encodeNode, Split_encode c.toItem hfit rest, hxs]
        rfl
      have hsize : ¬ (encodeNode c ++ rest).length - rest.length > hashLen := by
        simp only [List.length_append, hashLen]
        omega
      refine ⟨Split_rest_lt hs, ?_⟩
      rw [decodeRef_of_Split hs, if_pos rfl, if_neg hsize, (ih hfit).1 rfl none rest]
      simp [expandRef, hc.isStringRef_eq_false, Except.map]

/-- The decoder reads back a node the hasher wrote. -/
theorem decodeNode_encodeNode {c : Node} (hc : Collapsed false c) (hfit : c.toItem.Fits)
    (hash : Option Bytes) (gen : UInt16) :
    decodeNode hash (encodeNode c) gen = some (.ok (expand hash gen c)) := by
  simpa using (decode_collapsed hc gen hfit).1 rfl hash []

end Trie
end Ethcore
