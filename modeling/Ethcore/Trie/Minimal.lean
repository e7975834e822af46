import Ethcore.Trie.Contents

/-!
# The trie without redundant nodes: `insert` and `delete` keep it

`trie.go` never leaves a redundant node behind: `insert` parts a short node into a full node
with two children, and `delete` merges a short node with the short node below it and turns a
full node left with one child into a short node.  The nodes so built (`Minimal`) are those of
the canonical trie of `Canon`: a leaf holds a non-empty value, an extension leads to a full
node, a full node has two children at least; and until the trie is hashed no node caches a
hash in its flags.

What the walks return at such a node is such a node again (`insert_minimal`), or nothing
where `delete` removed the last key (`delete_minimal`).  Below an extension the walks meet a
full node, and a full node stays a full node under `insert` and stays a node under `delete`:
that is what keeps extensions over full nodes.
-/

namespace Ethcore
namespace Trie

/-- A node of the trie without redundant nodes, as `insert` and `delete` build it before any
hashing. -/
inductive Minimal : Node → Prop
  | leaf (ns v : Bytes) (f : NodeFlag) : Nibbles ns → v ≠ [] → f.hash = none →
      Minimal (.shortNode (ns ++ [16]) (.valueNode v) f)
  | ext (ns : Bytes) (cs : Fin 17 → Node) (g f : NodeFlag) : ns ≠ [] → Nibbles ns →
      Minimal (.fullNode cs g) → f.hash = none → Minimal (.shortNode ns (.fullNode cs g) f)
  /-- A full node: its children below a nibble minimal, its value slot a non-empty value,
  and two children at least. -/
  | full (cs : Fin 17 → Node) (f : NodeFlag) :
      (∀ i : Fin 17, i.val < 16 → (cs i).isNil = false → Minimal (cs i)) →
      ((cs 16).isNil = false → ∃ v, v ≠ [] ∧ cs 16 = .valueNode v) →
      (∃ i j, i ≠ j ∧ (cs i).isNil = false ∧ (cs j).isNil = false) → f.hash = none →
      Minimal (.fullNode cs f)

/-- A child of such a full node at slot `i`: a minimal node below a nibble, a non-empty value
in the value slot. -/
def MinChild (i : Fin 17) (c : Node) : Prop :=
  (i.val < 16 ∧ Minimal c) ∨ (i.val = 16 ∧ ∃ v, v ≠ [] ∧ c = .valueNode v)

/-- What a slot of such a full node holds: nothing, or a child that fits it. -/
def MinSlot (i : Fin 17) (c : Node) : Prop := c.isNil = false → MinChild i c

/-- At most a node of the trie without redundant nodes: the root of an empty trie is nil. -/
def MinRoot (n : Node) : Prop := n.isNil = false → Minimal n

/-! ### Shapes -/

section Shape

theorem Minimal.isNil_eq_false {n : Node} (h : Minimal n) : n.isNil = false := by
  cases h <;> rfl

theorem Minimal.minRoot {n : Node} (h : Minimal n) : MinRoot n := fun _ => h

theorem MinChild.isNil_eq_false {i : Fin 17} {c : Node} (h : MinChild i c) : c.isNil = false := by
  rcases h with ⟨-, h⟩ | ⟨-, v, -, rfl⟩
  · exact h.isNil_eq_false
  · rfl

theorem minSlot_nil (i : Fin 17) : MinSlot i .nil := fun h => absurd h (by decide)

theorem MinSlot.minRoot {i : Fin 17} {c : Node} (h : MinSlot i c) (hi : i.val < 16) : MinRoot c :=
  fun hc => by
    rcases h hc with ⟨-, h⟩ | ⟨h, -⟩
    · exact h
    · omega

theorem Node.eq_nil_of_isNil {n : Node} (h : n.isNil = true) : n = .nil := by
  cases n <;> first | rfl | cases h

/-- The trie without redundant nodes has the walks' shape. -/
theorem Minimal.open {n : Node} (h : Minimal n) : Open n := by
  induction h with
  | leaf ns v f hns _ _ => exact .leaf ns v f hns
  | ext ns cs g f hne hns _ _ ih => exact .ext ns _ f hne hns ih
  | full cs f _ h16 _ _ ih =>
    refine .full cs f (fun i hi => ?_) ?_
    · cases hc : (cs i).isNil
      · exact ih i hi hc
      · rw [Node.eq_nil_of_isNil hc]
        exact .nil
    · cases hc : (cs 16).isNil
      · obtain ⟨v, -, hv⟩ := h16 hc
        rw [hv]
        exact .value v
      · rw [Node.eq_nil_of_isNil hc]
        exact .nil

theorem minRoot_nil : MinRoot .nil := fun h => absurd h (by decide)

theorem Minimal.slots {cs : Fin 17 → Node} {f : NodeFlag} (h : Minimal (.fullNode cs f)) :
    ∀ i, MinSlot i (cs i) := by
  cases h with
  | full _ _ hcs h16 _ _ =>
    intro i hi
    show MinChild i (cs i)
    by_cases hlt : i.val < 16
    · exact .inl ⟨hlt, hcs i hlt hi⟩
    · obtain rfl : i = 16 := Fin.ext (by omega)
      exact .inr ⟨rfl, h16 hi⟩

theorem Minimal.of_slots {cs : Fin 17 → Node} (hs : ∀ i, MinSlot i (cs i))
    (htwo : ∃ i j, i ≠ j ∧ (cs i).isNil = false ∧ (cs j).isNil = false) {f : NodeFlag}
    (hf : f.hash = none) : Minimal (.fullNode cs f) := by
  refine .full cs f (fun i hi hnil => ?_) (fun hnil => ?_) htwo hf
  · rcases hs i hnil with ⟨-, h⟩ | ⟨h, -⟩
    · exact h
    · omega
  · rcases hs 16 hnil with ⟨h, -⟩ | ⟨-, h⟩
    · simp at h
    · exact h

theorem MinSlot.update {cs : Fin 17 → Node} (hs : ∀ i, MinSlot i (cs i)) {j : Fin 17} {c : Node}
    (hc : MinSlot j c) : ∀ i, MinSlot i (Function.update cs j c i) := by
  intro i
  by_cases e : i = j
  · subst e
    rw [Function.update_self]
    exact hc
  · rw [Function.update_of_ne e]
    exact hs i

/-- A slot that gets a node keeps a full node's two children. -/
theorem two_update {cs : Fin 17 → Node}
    (htwo : ∃ i j, i ≠ j ∧ (cs i).isNil = false ∧ (cs j).isNil = false) (k : Fin 17) {c : Node}
    (hc : c.isNil = false) :
    ∃ i j, i ≠ j ∧ (Function.update cs k c i).isNil = false ∧
      (Function.update cs k c j).isNil = false := by
  obtain ⟨i, j, hij, hi, hj⟩ := htwo
  by_cases hik : i = k
  · subst hik
    exact ⟨i, j, hij, by rw [Function.update_self]; exact hc,
      by rw [Function.update_of_ne (Ne.symm hij)]; exact hj⟩
  · exact ⟨k, i, Ne.symm hik, by rw [Function.update_self]; exact hc,
      by rw [Function.update_of_ne hik]; exact hi⟩

/-- Of two children, one is left after a slot changes. -/
theorem exists_update_of_two {cs : Fin 17 → Node}
    (htwo : ∃ i j, i ≠ j ∧ (cs i).isNil = false ∧ (cs j).isNil = false) (k : Fin 17) (c : Node) :
    ∃ i, (Function.update cs k c i).isNil = false := by
  obtain ⟨i, j, hij, hi, hj⟩ := htwo
  by_cases hik : i = k
  · subst hik
    exact ⟨j, by rw [Function.update_of_ne (Ne.symm hij)]; exact hj⟩
  · exact ⟨i, by rw [Function.update_of_ne hik]; exact hi⟩

/-- Children left, but not one alone: two of them. -/
theorem two_of_filter {cs : Fin 17 → Node} (hsome : ∃ i, (cs i).isNil = false)
    (hone : ∀ pos, (List.finRange 17).filter (fun i => !(cs i).isNil) ≠ [pos]) :
    ∃ i j, i ≠ j ∧ (cs i).isNil = false ∧ (cs j).isNil = false := by
  obtain ⟨i, hi⟩ := hsome
  have hnodup : ((List.finRange 17).filter fun i => !(cs i).isNil).Nodup :=
    (List.nodup_finRange 17).filter _
  have hmem : i ∈ (List.finRange 17).filter fun i => !(cs i).isNil := by simp [hi]
  generalize hl : (List.finRange 17).filter (fun i => !(cs i).isNil) = l at hnodup hmem hone
  match l, hnodup, hone with
  | [], _, _ => simp at hmem
  | [x], _, hone => exact absurd rfl (hone x)
  | x :: y :: rest, hnodup, _ =>
    have hx : x ∈ (List.finRange 17).filter fun i => !(cs i).isNil := by simp [hl]
    have hy : y ∈ (List.finRange 17).filter fun i => !(cs i).isNil := by simp [hl]
    refine ⟨x, y, ?_, by simpa using (List.mem_filter.mp hx).2,
      by simpa using (List.mem_filter.mp hy).2⟩
    intro e
    subst e
    simp at hnodup

/-- The one child a filter leaves is a child. -/
theorem isNil_of_filter {cs : Fin 17 → Node} {pos : Fin 17}
    (h : (List.finRange 17).filter (fun i => !(cs i).isNil) = [pos]) : (cs pos).isNil = false := by
  have hmem : pos ∈ (List.finRange 17).filter (fun i => !(cs i).isNil) := by simp [h]
  simpa using (List.mem_filter.mp hmem).2

/-- A short node over a short node of this trie takes both keys (the source's `concat`). -/
theorem Minimal.concat {ckey : Bytes} {cval : Node} {g : NodeFlag}
    (hc : Minimal (.shortNode ckey cval g)) {ms : Bytes} (hms : Nibbles ms) {f : NodeFlag}
    (hf : f.hash = none) : Minimal (.shortNode (ms ++ ckey) cval f) := by
  cases hc with
  | leaf ns v _ hns hv _ =>
    rw [← List.append_assoc]
    exact .leaf _ v f (hms.append hns) hv hf
  | ext _ cs _ _ hne hns hfull _ => exact .ext _ cs _ f (by simp [hne]) (hms.append hns) hfull hf

/-- Below byte `m` of a short node's key, what the rest of the key leads to fits the slot of
that byte. -/
theorem Minimal.slot_rest {nkey : Bytes} {nval : Node} {f : NodeFlag}
    (hn : Minimal (.shortNode nkey nval f)) {m : Nat} (hm : m < nkey.length) {f' : NodeFlag}
    (hf' : f'.hash = none) (h : nkey[m].toNat < 17) :
    MinChild ⟨nkey[m].toNat, h⟩
      (if nkey.drop (m + 1) = [] then nval else .shortNode (nkey.drop (m + 1)) nval f') := by
  cases hn with
  | leaf ms v _ hms hv _ =>
    by_cases hlt : m < ms.length
    · -- a nibble of the leaf's key: the rest still reads the terminator
      have hdrop : (ms ++ [16]).drop (m + 1) = ms.drop (m + 1) ++ [16] :=
        List.drop_append_of_le_length (by omega)
      simp only [List.getElem_append_left hlt, hdrop]
      rw [if_neg (by simp)]
      exact .inl ⟨hms _ (List.getElem_mem hlt), .leaf _ v f' (hms.drop _) hv hf'⟩
    · -- the terminator: the value slot
      have hm' : m = ms.length := by simp at hm; omega
      subst hm'
      have hdrop : (ms ++ [16]).drop (ms.length + 1) = [] := by simp
      simp only [List.getElem_append_right (Nat.le_refl _), hdrop, if_true]
      exact .inr ⟨by simp, v, hv, rfl⟩
  | ext _ cs g _ hne hms hfull _ =>
    have hb : nkey[m].toNat < 16 := hms _ (List.getElem_mem hm)
    split
    · exact .inl ⟨hb, hfull⟩
    · rename_i hdrop
      exact .inl ⟨hb, .ext _ cs g f' hdrop (hms.drop _) hfull hf'⟩

end Shape

/-! ### `insert` keeps the trie without redundant nodes -/

section Insert

variable (t : Trie)

theorem hash_newFlag : t.newFlag.hash = none := rfl

/-- Where the key is used up, `insert` returns the value. -/
theorem insert_used_up {fuel : Nat} {n : Node} {pfx : Bytes} {value : Node} {r : Bool × Node}
    (h : t.insert fuel n pfx [] value = some (.ok r)) : r.2 = value := by
  cases fuel with
  | zero => cases h
  | succ fuel =>
    rw [Trie.insert.eq_def] at h
    simp only [List.length_nil, if_true] at h
    split at h <;> (cases h; rfl)

/-- `insert` below slot `b` of a full node of the trie without redundant nodes: a full node of
that trie again. -/
theorem insert_full_minimal {fuel : Nat} {cs : Fin 17 → Node} {f : NodeFlag}
    (hn : Minimal (.fullNode cs f)) {b : UInt8} (hb : b.toNat < 17) {k pfx : Bytes} {value : Node}
    (hchild : ∀ dirty nn, t.insert fuel (cs ⟨b.toNat, hb⟩) (pfx ++ [b]) k value =
      some (.ok (dirty, nn)) → MinChild ⟨b.toNat, hb⟩ nn)
    {r : Bool × Node} (h : t.insert (fuel + 1) (.fullNode cs f) pfx (b :: k) value = some (.ok r)) :
    Minimal r.2 ∧ ∃ cs' f', r.2 = .fullNode cs' f' := by
  rw [Trie.insert.eq_def] at h
  simp only [List.length_cons, Nat.add_one_ne_zero, if_false, Trie.child, Trie.setChild, hb,
    dite_true] at h
  split at h
  · cases h
  · cases h
  · rename_i dirty nn heq
    have hs := hchild dirty nn heq
    split at h
    · cases h
      exact ⟨hn, _, _, rfl⟩
    · cases h
      refine ⟨Minimal.of_slots (MinSlot.update hn.slots fun _ => hs) ?_ (hash_newFlag t), _, _, rfl⟩
      cases hn with
      | full _ _ _ _ htwo _ => exact two_update htwo _ hs.isNil_eq_false

/-- `insert` at a short node whose key parts from the key: a full node with two children, below
a short node for the common prefix when there is one. -/
theorem insert_split_minimal {fuel : Nat} {nkey : Bytes} {nval : Node} {f : NodeFlag}
    (hn : Minimal (.shortNode nkey nval f)) {ns v : Bytes} (hns : Nibbles ns) (hv : v ≠ [])
    (hm : prefixLen (ns ++ [16]) nkey ≠ nkey.length) {pfx : Bytes} {r : Bool × Node}
    (h : t.insert (fuel + 1) (.shortNode nkey nval f) pfx (ns ++ [16]) (.valueNode v) =
      some (.ok r)) : Minimal r.2 := by
  obtain ⟨hmk, hmkey⟩ := hn.open.parts hns hm
  have hk : (ns ++ [16]).length ≠ 0 := by simp
  cases fuel with
  | zero => simp [Trie.insert, hm] at h
  | succ fuel =>
  rw [Trie.insert, if_neg hk] at h
  simp only [if_neg hm, insert_nil t (Nat.succ_pos fuel)] at h
  have hleaf : Minimal (.shortNode (ns ++ [16]) (.valueNode v) t.newFlag) :=
    .leaf ns v _ hns hv rfl
  generalize hkey : ns ++ [16] = key at hmk hmkey hm h hleaf
  generalize hmdef : prefixLen key nkey = m at hmk hmkey hm h
  have h₁ := (hn.open.slot_rest hmk t.newFlag).lt
  have h₂ := (hleaf.open.slot_rest hmkey t.newFlag).lt
  -- the two children fit their slots, which differ
  have hs₁ := hn.slot_rest hmk (hash_newFlag t) h₁
  have hs₂ := hleaf.slot_rest hmkey (hash_newFlag t) h₂
  have hb : nkey[m] ≠ key[m] := getElem_ne_of_prefixLen hmdef hmkey hmk
  have hne : (⟨nkey[m].toNat, h₁⟩ : Fin 17) ≠ ⟨key[m].toNat, h₂⟩ := fun e =>
    hb (UInt8.toNat_inj.mp (Fin.mk.inj_iff.mp e))
  have hbranch : Minimal (.fullNode (Function.update (Function.update (fun _ => .nil)
      ⟨nkey[m].toNat, h₁⟩ (if nkey.drop (m + 1) = [] then nval else
        .shortNode (nkey.drop (m + 1)) nval t.newFlag))
      ⟨key[m].toNat, h₂⟩ (if key.drop (m + 1) = [] then .valueNode v else
        .shortNode (key.drop (m + 1)) (.valueNode v) t.newFlag)) t.newFlag) := by
    refine Minimal.of_slots (MinSlot.update (MinSlot.update minSlot_nil fun _ => hs₁)
      fun _ => hs₂) ⟨_, _, hne, ?_, ?_⟩ (hash_newFlag t)
    · rw [Function.update_of_ne hne, Function.update_self]
      exact hs₁.isNil_eq_false
    · rw [Function.update_self]
      exact hs₂.isNil_eq_false
  rw [List.getElem?_eq_getElem hmk, List.getElem?_eq_getElem hmkey] at h
  simp only [Trie.setChild, dif_pos h₁, dif_pos h₂] at h
  split at h
  · cases h
    exact hbranch
  · -- a short node leads to the full node over the common prefix
    rename_i hm0
    cases h
    subst hkey
    obtain ⟨hnib, hne⟩ := hns.take_key hm0 hmkey
    exact .ext _ _ _ _ hne hnib hbranch (hash_newFlag t)

/-- **`insert` keeps the trie without redundant nodes.**  What `insert` of a non-empty value
returns at such a node, or at nothing, is such a node; at a full node, a full node. -/
theorem insert_minimal {fuel : Nat} {n : Node} (hn : MinRoot n) {ns v : Bytes} (hns : Nibbles ns)
    (hv : v ≠ []) {pfx : Bytes} {r : Bool × Node}
    (h : t.insert fuel n pfx (ns ++ [16]) (.valueNode v) = some (.ok r)) :
    Minimal r.2 ∧ ∀ cs f, n = .fullNode cs f → ∃ cs' f', r.2 = .fullNode cs' f' := by
  -- induction on the fuel, as for `insert_open`
  induction fuel generalizing n ns pfx r with
  | zero => cases h
  | succ fuel ih =>
    have hk : (ns ++ [16]).length ≠ 0 := by simp
    cases n with
    | nil =>
      rw [insert_nil t (Nat.succ_pos fuel), if_neg (by simp)] at h
      cases h
      exact ⟨.leaf ns v _ hns hv rfl, fun _ _ h => by cases h⟩
    | valueNode _ => cases hn rfl
    | hashNode _ => cases hn rfl
    | shortNode nkey nval f =>
      refine ⟨?_, fun _ _ h => by cases h⟩
      have hmin := hn rfl
      by_cases hm : prefixLen (ns ++ [16]) nkey = nkey.length
      · rw [Trie.insert, if_neg hk] at h
        simp only [hm, if_true] at h
        split at h
        · cases h
        · cases h
        · rename_i dirty nn heq
          cases hmin with
          | leaf ms u f hms hu hf =>
            -- the key is the leaf's: the value is replaced
            obtain rfl := Nibbles.eq_of_prefix_key hns (prefix_of_prefixLen_eq hm)
            have hnn : nn = .valueNode v := by
              simp only [List.drop_length] at heq
              exact insert_used_up t heq
            subst hnn
            split at h
            · cases h
              exact .leaf _ u f hms hu hf
            · cases h
              exact .leaf _ v _ hms hv rfl
          | ext ms cs g f hne hms hfull hf =>
            -- the key goes on below the short node, to the full node there
            obtain ⟨ns', rfl⟩ := hms.prefix_of_prefix_key (prefix_of_prefixLen_eq hm)
            simp only [List.append_assoc, List.drop_left] at heq
            obtain ⟨hnn, hfull'⟩ := ih hfull.minRoot
              (fun x hx => hns x (List.mem_append_right _ hx)) heq
            obtain ⟨cs', f', hcs'⟩ := hfull' cs g rfl
            simp only at hnn hcs'
            split at h
            · cases h
              exact .ext _ cs g f hne hms hfull hf
            · cases h
              rw [hcs'] at hnn ⊢
              exact .ext _ cs' f' _ hne hms hnn (hash_newFlag t)
      · exact insert_split_minimal t hmin hns hv hm h
    | fullNode cs f =>
      have hmin := hn rfl
      cases ns with
      | nil =>
        -- the terminator: the value goes to the value slot
        have h16 : (16 : UInt8).toNat < 17 := by decide
        rw [List.nil_append] at h
        obtain ⟨hr, hfull⟩ := insert_full_minimal t hmin h16 (k := []) (fun _ nn heq => by
          obtain rfl : nn = .valueNode v := insert_used_up t heq
          exact .inr ⟨rfl, v, hv, rfl⟩) h
        exact ⟨hr, fun _ _ _ => hfull⟩
      | cons b ns' =>
        -- a nibble: the value goes below its slot
        have hb : b.toNat < 16 := hns b (by simp)
        have hb' : b.toNat < 17 := by omega
        rw [List.cons_append] at h
        obtain ⟨hr, hfull⟩ := insert_full_minimal t hmin hb' (fun _ _ heq =>
          .inl ⟨hb, (ih ((hmin.slots _).minRoot hb) (fun x hx => hns x (by simp [hx])) heq).1⟩) h
        exact ⟨hr, fun _ _ _ => hfull⟩

end Insert

/-! ### `delete` keeps the trie without redundant nodes -/

section Delete

variable (t : Trie)

/-- Where the key is used up, `delete` leaves nothing of a value or of nothing. -/
theorem delete_used_up {fuel : Nat} {n : Node} (hn : Closed n) {pfx : Bytes} {r : Bool × Node}
    (h : t.delete fuel n pfx [] = some (.ok r)) : r.2 = .nil := by
  cases fuel with
  | zero => cases h
  | succ fuel => cases hn <;> (simp only [Trie.delete] at h; cases h; rfl)

/-- `delete` below slot `b` of a full node of the trie without redundant nodes: the full node
updated at the slot, or, with one child left, a short node over it; a node of that trie. -/
theorem delete_full_minimal {fuel : Nat} {cs : Fin 17 → Node} {f : NodeFlag}
    (hn : Minimal (.fullNode cs f)) {b : UInt8} (hb : b.toNat < 17) {k pfx : Bytes}
    (hchild : ∀ dirty nn, t.delete fuel (cs ⟨b.toNat, hb⟩) (pfx ++ [b]) k = some (.ok (dirty, nn)) →
      MinSlot ⟨b.toNat, hb⟩ nn)
    {r : Bool × Node} (h : t.delete (fuel + 1) (.fullNode cs f) pfx (b :: k) = some (.ok r)) :
    Minimal r.2 := by
  rw [Trie.delete.eq_def] at h
  simp only [Trie.child, Trie.setChild, hb, dite_true] at h
  split at h
  · cases h
  · cases h
  · rename_i dirty nn heq
    have hs := hchild dirty nn heq
    split at h
    · cases h
      exact hn
    have hslots := MinSlot.update hn.slots hs
    have hsome : ∃ i, (Function.update cs ⟨b.toNat, hb⟩ nn i).isNil = false := by
      cases hn with
      | full _ _ _ _ htwo _ => exact exists_update_of_two htwo _ nn
    generalize Function.update cs ⟨b.toNat, hb⟩ nn = cs' at hslots hsome h
    split at h
    · -- one child left, at `pos`
      rename_i pos hpos
      have hnil := isNil_of_filter hpos
      split at h
      · -- below a nibble: the child is minimal, in memory
        rename_i h16
        have hmin : Minimal (cs' pos) := ((hslots pos hnil).resolve_right fun he => h16 he.1).2
        have hres := hmin.open.resolve t pfx
        split at h
        · rename_i heq'
          rw [hres] at heq'
          cases heq'
        · rename_i heq'
          rw [hres] at heq'
          cases heq'
        · -- a short child takes the nibble into its key
          rename_i ckey cval g heq'
          rw [hres, Option.some.injEq, Except.ok.injEq] at heq'
          cases h
          rw [heq'] at hmin
          exact hmin.concat (nibbles_ofNat h16) (hash_newFlag t)
        · -- a full child gets a short node for the nibble
          rename_i node hshort heq'
          rw [hres, Option.some.injEq, Except.ok.injEq] at heq'
          cases h
          rw [heq'] at hmin ⊢
          cases hmin with
          | leaf ns v g _ _ _ => exact absurd rfl (hshort _ _ g)
          | ext ns cs'' g' g _ _ _ _ => exact absurd rfl (hshort _ _ g)
          | full cs'' g _ _ _ _ =>
            exact .ext _ cs'' g _ (by simp) (nibbles_ofNat h16) (.full cs'' g ‹_› ‹_› ‹_› ‹_›)
              (hash_newFlag t)
      · -- the value slot: a leaf whose key is the terminator
        rename_i h16
        obtain rfl : pos = 16 := Fin.ext (by simpa using h16)
        obtain ⟨v, hv, hcv⟩ := ((hslots 16 hnil).resolve_left fun he => absurd he.1 (by simp)).2
        cases h
        rw [hcv]
        exact .leaf [] v _ (by simp [Nibbles]) hv (hash_newFlag t)
    · -- more children left: the full node stays
      rename_i hone
      cases h
      exact Minimal.of_slots hslots (two_of_filter hsome hone) (hash_newFlag t)

/-- **`delete` keeps the trie without redundant nodes.**  What `delete` returns at such a node,
or at nothing, is such a node or nothing; at a full node, a node. -/
theorem delete_minimal {fuel : Nat} {n : Node} (hn : MinRoot n) {ns : Bytes} (hns : Nibbles ns)
    {pfx : Bytes} {r : Bool × Node} (h : t.delete fuel n pfx (ns ++ [16]) = some (.ok r)) :
    MinRoot r.2 ∧ ∀ cs f, n = .fullNode cs f → Minimal r.2 := by
  -- induction on the fuel, as for `delete_open`
  induction fuel generalizing n ns pfx r with
  | zero => cases h
  | succ fuel ih =>
    cases n with
    | nil =>
      simp only [Trie.delete] at h
      cases h
      exact ⟨minRoot_nil, fun _ _ h => by cases h⟩
    | valueNode _ => cases hn rfl
    | hashNode _ => cases hn rfl
    | shortNode nkey nval f =>
      refine ⟨?_, fun _ _ h => by cases h⟩
      have hmin := hn rfl
      rw [Trie.delete] at h
      split at h
      · -- the key does not start with the node's: nothing to remove
        cases h
        exact hmin.minRoot
      split at h
      · -- the key is the node's: the leaf goes
        cases h
        exact minRoot_nil
      rename_i hlt hlen
      have hpre : nkey <+: ns ++ [16] := prefix_of_prefixLen_eq
        (Nat.le_antisymm (prefixLen_le (ns ++ [16]) nkey).2 (by omega))
      cases hmin with
      | leaf ms u g hms _ _ =>
        -- a leaf's key that starts the key is the key
        obtain rfl := Nibbles.eq_of_prefix_key hns hpre
        exact absurd (prefixLen_of_isPrefixOf (List.prefix_refl _)) hlen
      | ext _ cs g f hne hms hfull hf =>
        -- the key goes on below the short node, to the full node there
        obtain ⟨ns', rfl⟩ := hms.prefix_of_prefix_key hpre
        split at h
        · cases h
        · cases h
        rename_i dirty nn heq
        simp only [List.append_assoc, List.drop_left] at heq
        have hnn := (ih hfull.minRoot (fun x hx => hns x (List.mem_append_right _ hx)) heq).2 cs g
          rfl
        simp only at hnn
        split at h
        · cases h
          exact (Minimal.ext _ cs g f hne hms hfull hf).minRoot
        split at h
        · -- a short node below merges with this one
          cases h
          exact (hnn.concat hms (hash_newFlag t)).minRoot
        · rename_i hshort
          cases h
          cases hnn with
          | leaf ms v g _ _ _ => exact absurd rfl (hshort _ _ g)
          | ext ms cs' g' g _ _ _ _ => exact absurd rfl (hshort _ _ g)
          | full cs' g h₁ h₂ h₃ h₄ =>
            exact (Minimal.ext _ cs' g _ hne hms (.full cs' g h₁ h₂ h₃ h₄)
              (hash_newFlag t)).minRoot
    | fullNode cs f =>
      have hmin := hn rfl
      have hr : Minimal r.2 := by
        cases ns with
        | nil =>
          -- the terminator: the value slot is emptied
          have h16 : (16 : UInt8).toNat < 17 := by decide
          have h16c : Closed (cs ⟨(16 : UInt8).toNat, h16⟩) := hmin.open.valueSlot
          rw [List.nil_append] at h
          exact delete_full_minimal t hmin h16 (k := []) (fun _ nn heq => by
            obtain rfl : nn = .nil := delete_used_up t h16c heq
            exact minSlot_nil _) h
        | cons b ns' =>
          -- a nibble: the key is removed below its slot
          have hb : b.toNat < 16 := hns b (by simp)
          have hb' : b.toNat < 17 := by omega
          rw [List.cons_append] at h
          exact delete_full_minimal t hmin hb' (fun _ _ heq hnil => .inl ⟨hb,
            (ih ((hmin.slots _).minRoot hb) (fun x hx => hns x (by simp [hx])) heq).1 hnil⟩) h
      exact ⟨hr.minRoot, fun _ _ _ => hr⟩

end Delete

end Trie
end Ethcore
