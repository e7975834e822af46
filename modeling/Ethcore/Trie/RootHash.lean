import Ethcore.Trie.Store
import Ethcore.Trie.Hasher

/-!
# The root hash of a trie in memory is that of its canonical trie

The hasher collapses a node for storage (`hasher.hash`): a short node's key goes to the
compact encoding, and each child becomes its collapsed form when that encodes in under 32
bytes, and the hash node of its encoding otherwise.  On a node of the trie without redundant
nodes that caches no hash (`Minimal`), the collapsed form is exactly the item `Canon` assigns
to the node's map (`Minimal.hash`), whose references to children are the hasher's.  So the
root hash is the Keccak-256 of the canonical item of what the trie stores (`Hash_minimal`),
and two tries in memory that store one map have one root hash, whatever the updates and
deletes that built them.
-/

namespace Ethcore
namespace Trie

open PrefixMap

section Hashing

variable (keccak : Bytes → Bytes)

/-! ### Storing a collapsed node -/

theorem store_shortNode {k : Bytes} {v : Node} {f : NodeFlag} (hf : f.hash = none) (force : Bool) :
    hasher.store keccak (.shortNode k v f) none force =
      (if (encodeNode (.shortNode k v f)).length < 32 ∧ !force then .shortNode k v f
        else .hashNode (keccak (encodeNode (.shortNode k v f))), none) := by
  simp only [hasher.store, hf, Option.getD_none, Option.map_none]
  split <;> rfl

theorem store_fullNode {cs : Fin 17 → Node} {f : NodeFlag} (hf : f.hash = none) (force : Bool) :
    hasher.store keccak (.fullNode cs f) none force =
      (if (encodeNode (.fullNode cs f)).length < 32 ∧ !force then .fullNode cs f
        else .hashNode (keccak (encodeNode (.fullNode cs f))), none) := by
  simp only [hasher.store, hf, Option.getD_none, Option.map_none]
  split <;> rfl

/-- What `store` makes of a collapsed node with item `e`: the node under 32 bytes unless
forced, else the hash node of `e`'s encoding. -/
def Stored (c : Node) (e : Rlp.Item) : Prop :=
  c.toItem = e ∧ c.isNil = false ∧ ∀ force : Bool,
    hasher.store keccak c none force =
      (if e.encode.length < 32 ∧ !force then c else .hashNode (keccak e.encode), none)

theorem Stored.short {k : Bytes} {v : Node} {f : NodeFlag} (hf : f.hash = none) :
    Stored keccak (.shortNode k v f) (Node.shortNode k v f).toItem :=
  ⟨rfl, rfl, store_shortNode keccak hf⟩

theorem Stored.full {cs : Fin 17 → Node} {f : NodeFlag} (hf : f.hash = none) :
    Stored keccak (.fullNode cs f) (Node.fullNode cs f).toItem :=
  ⟨rfl, rfl, store_fullNode keccak hf⟩

/-- A child stored without force is referred to as `Canon` refers to it. -/
theorem Stored.toItem_ref {c : Node} {e : Rlp.Item} (h : Stored keccak c e) :
    (hasher.store keccak c none false).1.toItem = ref keccak e := by
  rw [h.2.2 false, ref]
  simp only [Bool.not_false, and_true]
  split
  · exact h.1
  · rfl

theorem Stored.isNil_eq_false {c : Node} {e : Rlp.Item} (h : Stored keccak c e) (force : Bool) :
    (hasher.store keccak c none force).1.isNil = false := by
  rw [h.2.2 force]
  split
  · exact h.2.1
  · rfl

/-! ### The sixteen children of a full node -/

/-- The loop of `hashChildrenFull` over the nibble slots `l`, where each child there hashes
without a database: a slot of `l` gets its child's collapsed form (of which `P` holds), or an
empty string for nothing, and the other slots stay. -/
theorem hashChildrenFull_loop {cs : Fin 17 → Node}
    {hashChild : Fin 16 → Option KV → Option HashResult} (P : Fin 16 → Node → Prop)
    (hc : ∀ i, (cs i.castSucc).isNil = false →
      ∃ c k, hashChild i none = some ((c, k), none) ∧ P i c)
    (l : List (Fin 16)) (col cac : Fin 17 → Node) :
    ∃ col' cac', l.foldl
        (fun (acc : Option ((Fin 17 → Node) × (Fin 17 → Node) × Option KV)) (i : Fin 16) =>
          acc.bind fun (col, cac, db) =>
            if (cs i.castSucc).isNil then
              some (Function.update col i.castSucc (.valueNode []), cac, db)
            else (hashChild i db).map fun ((c, k), db) =>
              (Function.update col i.castSucc c, Function.update cac i.castSucc k, db))
        (some (col, cac, none)) = some (col', cac', none) ∧
      (∀ i ∈ l, (cs i.castSucc).isNil = false → P i (col' i.castSucc)) ∧
      (∀ i ∈ l, (cs i.castSucc).isNil = true → col' i.castSucc = .valueNode []) ∧
      ∀ j, (∀ i ∈ l, j ≠ i.castSucc) → col' j = col j := by
  induction l generalizing col cac with
  | nil => exact ⟨col, cac, rfl, by simp, by simp, fun _ _ => rfl⟩
  | cons i l ih =>
    rw [List.foldl_cons]
    -- the first slot gets `c₁`, then the rest of the loop runs from there
    obtain ⟨c₁, cac₁, hstep, hP₁, hN₁⟩ : ∃ c₁ cac₁,
        (some (col, cac, none) : Option ((Fin 17 → Node) × (Fin 17 → Node) × Option KV)).bind
          (fun (col, cac, db) =>
            if (cs i.castSucc).isNil then
              some (Function.update col i.castSucc (.valueNode []), cac, db)
            else (hashChild i db).map fun ((c, k), db) =>
              (Function.update col i.castSucc c, Function.update cac i.castSucc k, db)) =
          some (Function.update col i.castSucc c₁, cac₁, none) ∧
        ((cs i.castSucc).isNil = false → P i c₁) ∧
        ((cs i.castSucc).isNil = true → c₁ = .valueNode []) := by
      cases hnil : (cs i.castSucc).isNil with
      | true => exact ⟨.valueNode [], cac, by simp, fun h => absurd h (by decide), fun _ => rfl⟩
      | false =>
        obtain ⟨c, k, hck, hPc⟩ := hc i hnil
        exact ⟨c, Function.update cac i.castSucc k, by simp [hck], fun _ => hPc,
          fun h => absurd h (by decide)⟩
    rw [hstep]
    obtain ⟨col', cac', hfold, hP, hN, hframe⟩ := ih (Function.update col i.castSucc c₁) cac₁
    have hfirst : i ∉ l → col' i.castSucc = c₁ := fun hi => by
      have hne : ∀ i' ∈ l, i.castSucc ≠ i'.castSucc := fun i' hi' e => by
        obtain rfl := Fin.castSucc_injective 16 e
        exact hi hi'
      rw [hframe _ hne, Function.update_self]
    refine ⟨col', cac', hfold, ?_, ?_, ?_⟩
    · intro i' hi' hnil
      rcases List.mem_cons.mp hi' with rfl | hi'
      · by_cases hl : i' ∈ l
        · exact hP i' hl hnil
        · rw [hfirst hl]
          exact hP₁ hnil
      · exact hP i' hi' hnil
    · intro i' hi' hnil
      rcases List.mem_cons.mp hi' with rfl | hi'
      · by_cases hl : i' ∈ l
        · exact hN i' hl hnil
        · rw [hfirst hl]
          exact hN₁ hnil
      · exact hN i' hi' hnil
    · intro j hj
      rw [hframe j fun i' hi' => hj i' (List.mem_cons_of_mem _ hi'),
        Function.update_of_ne (hj i List.mem_cons_self)]

/-! ### The hasher on the trie without redundant nodes -/

theorem Minimal.contents_ne_empty {n : Node} (h : Minimal n) : n.contents ≠ empty := by
  induction h with
  | leaf ns v f _ _ _ =>
    rw [contents_shortNode, contents_valueNode, ← single_eq_under]
    exact single_ne_empty _ v
  | ext ns cs g f _ _ _ _ ih =>
    rw [contents_shortNode, ne_eq, under_eq_empty_iff]
    exact ih
  | full cs f _ h16 htwo _ ih =>
    obtain ⟨i, -, -, hi, -⟩ := htwo
    -- an entry of a child is an entry below its slot's byte
    have hchild : (cs i).contents ≠ empty := by
      by_cases hlt : i.val < 16
      · exact ih i hlt hi
      · obtain rfl : i = 16 := Fin.ext (by omega)
        obtain ⟨v, -, hv⟩ := h16 hi
        rw [hv, contents_valueNode]
        exact single_ne_empty _ v
    obtain ⟨k, v, hkv⟩ := Iff.mp ne_empty_iff hchild
    refine Iff.mpr ne_empty_iff ⟨UInt8.ofNat i.val :: k, v, ?_⟩
    rw [contents_fullNode, fullContents_cons]
    exact hkv

theorem MinChild.contents_ne_empty {i : Fin 17} {c : Node} (h : MinChild i c) : c.contents ≠ empty := by
  rcases h with ⟨-, h⟩ | ⟨-, v, -, rfl⟩
  · exact h.contents_ne_empty
  · exact single_ne_empty _ v

/-- A full node of the trie without redundant nodes branches: two of its slots hold entries. -/
theorem Minimal.branching {cs : Fin 17 → Node} {f : NodeFlag} (h : Minimal (.fullNode cs f)) :
    Branching (fullContents fun i => (cs i).contents) := by
  have hslots := h.slots
  cases h with
  | full _ _ _ _ htwo _ =>
    obtain ⟨i, j, hij, hi, hj⟩ := htwo
    exact Iff.mpr branching_fullContents_iff
      ⟨i, j, hij, (hslots i hi).contents_ne_empty, (hslots j hj).contents_ne_empty⟩

/-- **The hasher collapses a node of the trie without redundant nodes into its canonical
item.**  Without a database, hashing such a node gives what `store` makes of a collapsed node
whose item is the one `Canon` assigns to the node's map. -/
theorem Minimal.hash (h : hasher) {n : Node} (hn : Minimal n) :
    ∃ e, Canon keccak n.contents e ∧ ∃ c, Stored keccak c e ∧ ∀ force, ∃ cached,
      h.hash keccak n none force = some (((hasher.store keccak c none force).1, cached), none) := by
  -- induction on the node: each child's collapsed form is referred to as `Canon` refers to it
  induction hn with
  | leaf ns v f hns hv hf =>
    refine ⟨_, ?_, _, Stored.short keccak (k := hexToCompact (ns ++ [16])) (v := .valueNode v) hf,
      fun force => ?_⟩
    · rw [contents_shortNode, contents_valueNode, ← single_eq_under]
      exact Canon.leaf ns v hns hv
    · simp only [hasher.hash, hasher.cacheHit, hf, hasher.hashChildrenShort, Option.map_some,
        Node.isNil, Bool.false_eq_true, if_false, store_shortNode keccak hf]
      exact ⟨_, rfl⟩
  | ext ns cs g f hne hns hfull hf ih =>
    obtain ⟨e, hcanon, c, hc, hhash⟩ := ih
    obtain ⟨cached, hch⟩ := hhash false
    refine ⟨_, ?_, _, Stored.short keccak (k := hexToCompact ns)
      (v := (hasher.store keccak c none false).1) hf, fun force => ?_⟩
    · rw [contents_shortNode]
      show Canon keccak _ (.list [.bytes (hexToCompact ns), (hasher.store keccak c none false).1.toItem])
      rw [hc.toItem_ref]
      rw [contents_fullNode] at hcanon ⊢
      exact Canon.ext ns _ e hne hns hfull.branching hcanon
    · simp only [hasher.hash, hasher.cacheHit, hf, hasher.hashChildrenShort, hch, Option.map_some,
        hc.isNil_eq_false, Bool.false_eq_true, if_false, store_shortNode keccak hf]
      exact ⟨_, rfl⟩
  | full cs f hcs h16 htwo hf ih =>
    have hmin : Minimal (.fullNode cs f) := .full cs f hcs h16 htwo hf
    -- the items of the sixteen nibble slots: nothing has the empty string
    have hnib : ∀ i : Fin 16, ∃ e, Canon keccak (cs i.castSucc).contents e ∧
        ((cs i.castSucc).isNil = true → e = .bytes []) ∧
        ((cs i.castSucc).isNil = false → ∃ c, Stored keccak c e ∧ ∃ cached,
          h.hash keccak (cs i.castSucc) none false =
            some (((hasher.store keccak c none false).1, cached), none)) := by
      intro i
      cases hnil : (cs i.castSucc).isNil with
      | true =>
        refine ⟨.bytes [], ?_, fun _ => rfl, fun h => absurd h (by decide)⟩
        rw [Node.eq_nil_of_isNil hnil]
        exact Canon.nil
      | false =>
        obtain ⟨e, hcanon, c, hc, hhash⟩ := ih i.castSucc (by simp) hnil
        exact ⟨e, hcanon, fun h => absurd h (by decide), fun _ => ⟨c, hc, hhash false⟩⟩
    choose es hes using hnib
    -- the value slot: nothing, or a non-empty value
    obtain ⟨e16, hslot, hitem16⟩ : ∃ e16, SlotCanon (cs 16).contents e16 ∧
        (if (cs 16).isNil then Node.valueNode [] else cs 16).toItem = e16 := by
      cases hnil : (cs 16).isNil with
      | true =>
        rw [Node.eq_nil_of_isNil hnil]
        exact ⟨_, .none, rfl⟩
      | false =>
        obtain ⟨v, hv, hcv⟩ := h16 hnil
        rw [hcv]
        exact ⟨_, .value v hv, rfl⟩
    let es' : Fin 17 → Rlp.Item := fun j => if hj : j.val < 16 then es ⟨j.val, hj⟩ else e16
    have hcanon : Canon keccak (Node.fullNode cs f).contents (fullItem keccak es') := by
      rw [contents_fullNode]
      refine Canon.full _ es' (fun i hi => ?_) ?_ hmin.branching
      · have := (hes ⟨i.val, hi⟩).1
        simp only [es', dif_pos hi]
        exact this
      · simp only [es', dif_neg (show ¬ (16 : Fin 17).val < 16 by decide)]
        exact hslot
    -- the loop over the nibble slots, each child referred to as `Canon` refers to it
    obtain ⟨col, cac, hfold, hP, hN, hframe⟩ := @hashChildrenFull_loop cs
      (fun i db => h.hash keccak (cs i.castSucc) db false) (fun i c => c.toItem = ref keccak (es i))
      (fun i hnil => by
        obtain ⟨c, hc, cached, hh⟩ := (hes i).2.2 hnil
        exact ⟨_, _, hh, hc.toItem_ref⟩) (List.finRange 16) cs cs
    have hcol16 : col 16 = cs 16 := hframe 16 fun i _ e => by
      have := congrArg Fin.val e
      simp at this
      omega
    have hitem : (Node.fullNode (if (col 16).isNil then Function.update col 16 (.valueNode []) else col)
        f).toItem = fullItem keccak es' := by
      simp only [Node.toItem, fullItem]
      congr 1
      apply List.ofFn_inj.mpr
      funext j
      by_cases hj : j.val < 16
      · -- a nibble slot
        obtain ⟨i, rfl⟩ : ∃ i : Fin 16, j = i.castSucc := ⟨⟨j.val, hj⟩, Fin.ext rfl⟩
        have hne : i.castSucc ≠ 16 := fun e => by rw [e] at hj; simp at hj
        have hes' : es' i.castSucc = es i := by simp only [es', dif_pos hj]; rfl
        rw [if_pos hj, hes']
        rw [show (if (col 16).isNil then Function.update col 16 (.valueNode []) else col) i.castSucc =
          col i.castSucc by split <;> simp [Function.update_of_ne hne]]
        cases hnil : (cs i.castSucc).isNil with
        | true =>
          rw [hN _ (List.mem_finRange _) hnil, (hes _).2.1 hnil]
          rfl
        | false => exact hP _ (List.mem_finRange _) hnil
      · -- the value slot
        obtain rfl : j = 16 := Fin.ext (by omega)
        rw [if_neg hj]
        have hes' : es' 16 = e16 := by simp only [es', dif_neg hj]
        rw [hes', ← hitem16, hcol16]
        split <;> simp [hcol16]
    refine ⟨_, hcanon, _, hitem ▸ Stored.full keccak hf, fun force => ?_⟩
    simp only [hasher.hash, hasher.cacheHit, hf, hasher.hashChildrenFull]
    rw [hfold]
    simp only [Option.map_some, store_fullNode keccak hf]
    exact ⟨_, rfl⟩

/-- **The root hash of a trie without redundant nodes** is the Keccak-256 of the canonical item
of its map: for the empty trie, of the encoding of the empty string (`emptyRoot`). -/
theorem Hash_minimal {t : Trie} (ht : MinRoot t.root) :
    ∃ e, Canon keccak t.root.contents e ∧
      ∃ t', t.Hash keccak = some (BytesToHash (keccak e.encode), t') := by
  cases hr : t.root.isNil with
  | true =>
    have hnil := Node.eq_nil_of_isNil hr
    refine ⟨.bytes [], by rw [hnil]; exact Canon.nil, ?_⟩
    simp only [Trie.Hash, Trie.hashRoot, hnil]
    exact ⟨_, rfl⟩
  | false =>
    obtain ⟨e, hcanon, c, hc, hhash⟩ := (ht hr).hash keccak ⟨t.cachegen, t.cachelimit⟩
    obtain ⟨cached, hh⟩ := hhash true
    rw [hc.2.2 true] at hh
    simp only [Bool.not_true, Bool.false_eq_true, and_false, if_false] at hh
    -- the root is hashed with `store` forced
    have hroot : t.hashRoot keccak none = some ((.hashNode (keccak e.encode), cached), none) := by
      unfold Trie.hashRoot
      split
      · rename_i heq
        rw [heq] at hr
        cases hr
      · exact hh
    refine ⟨e, hcanon, ?_⟩
    simp only [Trie.Hash, hroot]
    exact ⟨_, rfl⟩

end Hashing

/-! ### Sessions -/

/-- **A session keeps the trie canonical.**  In every session the trie has no redundant node,
and `Hash` returns the Keccak-256 of the canonical item of what the trie stores. -/
theorem Session_root_canonical {keccak : Bytes → Bytes} {t : Trie} {M : Bytes → Option Bytes}
    (h : Session keccak t M) :
    MinRoot t.root ∧ ∃ e, Canon keccak t.root.contents e ∧
      ∃ t', t.Hash keccak = some (BytesToHash (keccak e.encode), t') :=
  ⟨h.minimal, Hash_minimal keccak h.minimal⟩

theorem oneEntry_root_canonical :
    MinRoot oneEntry.root ∧ ∃ e, Canon (fun _ => []) oneEntry.root.contents e ∧
      ∃ t', oneEntry.Hash (fun _ => []) = some (BytesToHash [], t') :=
  Session_root_canonical (oneEntry_session fun _ => [])

end Trie
end Ethcore
