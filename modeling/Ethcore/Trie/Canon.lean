import Ethcore.Lib.PrefixMap
import Ethcore.Trie.Encoding

/-!
# The canonical trie of a set of entries

What a trie stores is a map from hex keys to values (`Contents`).  Among the tries storing
a map there is one without redundant nodes: no full node with fewer than two entries, no
short node above a short node, no empty key.  Its nodes are fixed by the map: empty, a
leaf for one entry, a short node over the longest path all keys share, or a full node when
the keys part on their first nibble.  `Canon M e` says that `e` is the RLP item the hasher
encodes for the root of that trie; a child is referred to by `ref`, embedded when its
encoding is shorter than a hash and by its Keccak-256 otherwise.

`Canon.unique` is that the item, hence the root hash, depends on the map alone: it is what
makes the root hash of the trie a function of its contents.
-/

namespace Ethcore
namespace Trie

open PrefixMap

/-- What a trie stores: values under hex keys. -/
abbrev Contents := PrefixMap.Map UInt8 Bytes

/-- The contents of a full node: its seventeen slots under their first key byte. -/
def fullContents (Ms : Fin 17 → Contents) : Contents :=
  branch fun b => if h : b.toNat < 17 then Ms ⟨b.toNat, h⟩ else empty

theorem fullContents_cons (Ms : Fin 17 → Contents) (i : Fin 17) (k : Bytes) :
    fullContents Ms (UInt8.ofNat i.val :: k) = Ms i k := by
  have hi : (UInt8.ofNat i.val).toNat = i.val := by
    rw [UInt8.toNat_ofNat']
    exact Nat.mod_eq_of_lt (by omega)
  simp [fullContents, hi]

theorem fullContents_injective : Function.Injective fullContents := by
  intro Ms Ns h
  funext i
  have := congrFun (branch_injective h) (UInt8.ofNat i.val)
  have hi : (UInt8.ofNat i.val).toNat = i.val := by
    rw [UInt8.toNat_ofNat']
    exact Nat.mod_eq_of_lt (by omega)
  simpa [hi] using this

/-- Two non-empty slots make a full node's contents branch. -/
theorem branching_fullContents_iff {Ms : Fin 17 → Contents} :
    Branching (fullContents Ms) ↔ ∃ i j, i ≠ j ∧ Ms i ≠ empty ∧ Ms j ≠ empty := by
  rw [fullContents, branching_branch_iff]
  constructor
  · rintro ⟨a, b, hab, ha, hb⟩
    by_cases hal : a.toNat < 17
    · by_cases hbl : b.toNat < 17
      · refine ⟨⟨a.toNat, hal⟩, ⟨b.toNat, hbl⟩, ?_, by simpa [hal] using ha, by simpa [hbl] using hb⟩
        intro e
        exact hab (UInt8.toNat_inj.mp (Fin.mk.inj_iff.mp e))
      · simp [hbl] at hb
    · simp [hal] at ha
  · rintro ⟨i, j, hij, hi, hj⟩
    have hv : ∀ i : Fin 17, (UInt8.ofNat i.val).toNat = i.val := fun i => by
      rw [UInt8.toNat_ofNat']
      exact Nat.mod_eq_of_lt (by omega)
    refine ⟨UInt8.ofNat i.val, UInt8.ofNat j.val, ?_, by simpa [hv] using hi, by simpa [hv] using hj⟩
    intro e
    apply hij
    apply Fin.ext
    rw [← hv i, ← hv j, e]

section Canon

variable (keccak : Bytes → Bytes)

/-- How a node refers to a child: the child's item when its encoding is shorter than a
hash, the string of its Keccak-256 otherwise. -/
def ref (e : Rlp.Item) : Rlp.Item :=
  if e.encode.length < 32 then e else .bytes (keccak e.encode)

/-- The item of a full node: the references of the sixteen children, then the value. -/
def fullItem (es : Fin 17 → Rlp.Item) : Rlp.Item :=
  .list (List.ofFn fun i => if i.val < 16 then ref keccak (es i) else es i)

/-- The value slot of a full node: empty, or a non-empty value under the empty key. -/
inductive SlotCanon : Contents → Rlp.Item → Prop
  | none : SlotCanon empty (.bytes [])
  | value (v : Bytes) : v ≠ [] → SlotCanon (single [] v) (.bytes v)

/-- `Canon M e`: `e` is the item of the root of the trie without redundant nodes storing
`M`, children referred to by `ref`.  The keys of `M` are nibbles closed by the
terminator `16`, and every value is non-empty. -/
inductive Canon : Contents → Rlp.Item → Prop
  | nil : Canon empty (.bytes [])
  | leaf (k v : Bytes) : Nibbles k → v ≠ [] →
      Canon (single (k ++ [16]) v) (.list [.bytes (hexToCompact (k ++ [16])), .bytes v])
  | ext (k : Bytes) (M : Contents) (e : Rlp.Item) : k ≠ [] → Nibbles k → Branching M →
      Canon M e → Canon (under k M) (.list [.bytes (hexToCompact k), ref keccak e])
  | full (Ms : Fin 17 → Contents) (es : Fin 17 → Rlp.Item) :
      (∀ i : Fin 17, i.val < 16 → Canon (Ms i) (es i)) → SlotCanon (Ms 16) (es 16) →
      Branching (fullContents Ms) → Canon (fullContents Ms) (fullItem keccak es)

end Canon

/-! ### The shape of the contents decides the node -/

section Shapes

variable {keccak : Bytes → Bytes}

theorem Canon.eq_empty_iff {M : Contents} {e : Rlp.Item} (h : Canon keccak M e) :
    M = empty ↔ e = .bytes [] := by
  cases h with
  | nil => simp
  | leaf k v _ _ => simp [single_ne_empty]
  | ext k M e hk _ hM _ =>
      simp only [under_eq_empty_iff, reduceCtorEq, iff_false]
      exact hM.ne_empty
  | full Ms es _ _ hb => simp [hb.ne_empty, fullItem]

theorem SlotCanon.unique {M N : Contents} {e e' : Rlp.Item} (h : SlotCanon M e)
    (h' : SlotCanon N e') (hMN : M = N) : e = e' := by
  cases h with
  | none =>
      cases h' with
      | none => rfl
      | value v _ => exact absurd hMN.symm (single_ne_empty [] v)
  | value v _ =>
      cases h' with
      | none => exact absurd hMN (single_ne_empty [] v)
      | value v' _ =>
          obtain ⟨-, rfl⟩ := single_inj hMN
          rfl

/-- **The canonical item is unique**: it depends on the contents alone. -/
theorem Canon.unique {M N : Contents} {e e' : Rlp.Item} (h : Canon keccak M e)
    (h' : Canon keccak N e') (hMN : M = N) : e = e' := by
  induction h generalizing N e' with
  | nil => exact ((h'.eq_empty_iff.mp hMN.symm)).symm
  | leaf k v hk hv =>
      cases h' with
      | nil => exact absurd hMN (single_ne_empty _ v)
      | leaf k' v' _ _ =>
          obtain ⟨hkk, rfl⟩ := single_inj hMN
          rw [List.append_left_inj] at hkk
          rw [hkk]
      | ext k' M' e'' _ _ hM' _ => exact absurd hMN.symm (hM'.under_ne_single k' (k ++ [16]) v)
      | full Ms es _ _ hb => exact absurd (hMN ▸ hb) (not_branching_single _ _)
  | ext k M e hk hkn hM hc ih =>
      cases h' with
      | nil => exact absurd (Iff.mp under_eq_empty_iff hMN) hM.ne_empty
      | leaf k' v' _ _ => exact absurd hMN (hM.under_ne_single k (k' ++ [16]) v')
      | ext k' M' e'' _ _ hM' hc' =>
          obtain ⟨rfl, rfl⟩ := under_inj hMN hM hM'
          rw [ih hc' rfl]
      | full Ms es _ _ hb => exact absurd (hMN ▸ hb) (not_branching_under hk M)
  | full Ms es hcs hslot hb ih =>
      cases h' with
      | nil => exact absurd hMN hb.ne_empty
      | leaf k' v' _ _ => exact absurd (hMN ▸ hb) (not_branching_single _ _)
      | ext k' M' e'' hk' _ _ _ => exact absurd (hMN ▸ hb) (not_branching_under hk' M')
      | full Ns es' hcs' hslot' _ =>
          obtain rfl := fullContents_injective hMN
          have hes : es = es' := by
            funext i
            by_cases hi : i.val < 16
            · exact ih i hi (hcs' i hi) rfl
            · have h16 : i = 16 := Fin.ext (by simp; omega)
              subst h16
              exact hslot.unique hslot' rfl
          rw [hes]

end Shapes

end Trie
end Ethcore
