import Ethcore.Trie.Minimal

/-!
# A trie in memory stores a map from byte keys to values

`TryGet`, `TryUpdate` and `TryDelete` walk the hex form of a key, `keybytesToHex`, with the
walks of `Contents`.  A trie whose root has the walks' shape stores a map over byte keys
(`Stores`): at each key, the root's map at the key's hex form.  With fuel for the key,

* `TryGet` returns the stored value and gives the trie back as it was (`Stores.tryGet`),
* `TryUpdate` stores the value, and removes the key for an empty value (`Stores.tryUpdate`),
* `TryDelete` removes the key (`Stores.tryDelete`),

and none of them fails: a trie in memory has nothing to resolve.

A session is what a user of the package does with a trie that `New` opened empty: calls to
`TryUpdate`, `TryDelete` and `TryGet`, with the map the calls stand for beside the trie
(`Session`).  Every session stores its map (`Session.stores`).  Hash nodes, which a commit
leaves behind, are outside this refinement.
-/

namespace Ethcore
namespace Trie

open PrefixMap

/-- What `TryUpdate` leaves under its key: the value, and nothing for an empty one. -/
def updateValue (value : Bytes) : Option Bytes := if value.length ≠ 0 then some value else none

theorem keybytesToHex_injective : Function.Injective keybytesToHex := fun a b h =>
  Option.some.inj (by rw [← hexToKeybytes_keybytesToHex a, h, hexToKeybytes_keybytesToHex])

/-- The trie stores `M`: its root has the walks' shape, and the root's map at the hex form of
every key is `M`'s value. -/
structure Stores (t : Trie) (M : Bytes → Option Bytes) : Prop where
  shape : Open t.root
  get : ∀ k, t.root.contents (keybytesToHex k) = M k
  /-- The root's map holds hex forms of keys only. -/
  keys : ∀ hk v, t.root.contents hk = some v → ∃ k, hk = keybytesToHex k

/-- A root of the walks' shape whose map is the old root's, updated at the hex form of a key,
stores the map updated at the key. -/
theorem Stores.update {t : Trie} {M : Bytes → Option Bytes} (hs : Stores t M) {k : Bytes}
    {x : Option Bytes} {n : Node} (hn : Open n)
    (hc : n.contents = Function.update t.root.contents (keybytesToHex k) x) :
    Stores { t with root := n } (Function.update M k x) where
  shape := hn
  get k' := by
    show n.contents (keybytesToHex k') = _
    rw [hc]
    by_cases h : k' = k
    · subst h
      simp
    · rw [Function.update_of_ne (Function.Injective.ne keybytesToHex_injective h), Function.update_of_ne h, hs.get]
  keys hk v' hv := by
    change n.contents hk = some v' at hv
    rw [hc] at hv
    by_cases h : hk = keybytesToHex k
    · exact ⟨k, h⟩
    · rw [Function.update_of_ne h] at hv
      exact hs.keys hk v' hv

theorem stores_nil (t : Trie) (h : t.root = .nil) : Stores t fun _ => none where
  shape := h ▸ .nil
  get _ := by rw [h]; rfl
  keys _ _ hv := by rw [h] at hv; cases hv

/-- Two tries that store one map have roots with one map. -/
theorem Stores.contents_eq {t t' : Trie} {M : Bytes → Option Bytes} (hs : Stores t M)
    (hs' : Stores t' M) : t.root.contents = t'.root.contents := by
  funext hk
  by_cases hkey : ∃ k, hk = keybytesToHex k
  · obtain ⟨k, rfl⟩ := hkey
    rw [hs.get, hs'.get]
  · -- neither map holds a key that is no hex form of a key
    have hnone : ∀ {u : Trie}, Stores u M → u.root.contents hk = none := by
      intro u hu
      cases hv : u.root.contents hk with
      | none => rfl
      | some v => exact absurd (hu.keys hk v hv) hkey
    rw [hnone hs, hnone hs']

/-! ### The calls on a trie in memory -/

section Calls

variable {t : Trie} {M : Bytes → Option Bytes} {fuel : Nat}

/-- The hex form of a key: its nibbles, then the terminator. -/
theorem keybytesToHex_nibbles (k : Bytes) :
    ∃ ns, keybytesToHex k = ns ++ [16] ∧ Nibbles ns ∧ ns.length = 2 * k.length :=
  ⟨_, rfl, nibbles_split k, length_split k⟩

/-- **`TryGet` reads the map** and gives the trie back as it was. -/
theorem Stores.tryGet (hs : Stores t M) (k : Bytes) (hfuel : 2 * k.length + 1 < fuel) :
    t.TryGet fuel k = some (.ok (M k), t) := by
  obtain ⟨ns, hk, hns, hlen⟩ := keybytesToHex_nibbles k
  have hget : t.tryGet fuel t.root (keybytesToHex k) 0 = _ :=
    tryGet_open t hs.shape hns (by rw [hk]; rfl) (by omega)
  rw [← hk, hs.get] at hget
  simp only [Trie.TryGet, hget, Bool.false_eq_true, if_false]

/-- **`TryDelete` removes the key** from the map. -/
theorem Stores.tryDelete (hs : Stores t M) (k : Bytes) (hfuel : 2 * k.length + 1 < fuel) :
    ∃ t', t.TryDelete fuel k = some (.ok (), t') ∧ Stores t' (Function.update M k none) := by
  obtain ⟨ns, hk, hns, hlen⟩ := keybytesToHex_nibbles k
  obtain ⟨⟨dirty, n⟩, hdel, hu⟩ : ∃ r, t.delete fuel t.root [] (ns ++ [16]) = some (.ok r) ∧
      Updated t.root (ns ++ [16]) none r := delete_open t hs.shape hns (by omega) []
  rw [← hk] at hdel hu
  exact ⟨_, by simp only [Trie.TryDelete, hdel], hs.update hu.shape hu.contents⟩

/-- **`TryUpdate` stores the value** under the key, and removes the key for an empty value. -/
theorem Stores.tryUpdate (hs : Stores t M) (k v : Bytes) (hfuel : 2 * k.length + 1 < fuel) :
    ∃ t', t.TryUpdate fuel k v = some (.ok (), t') ∧
      Stores t' (Function.update M k (updateValue v)) := by
  obtain ⟨ns, hk, hns, hlen⟩ := keybytesToHex_nibbles k
  by_cases hv : v.length ≠ 0
  · -- a value: `insert`
    obtain ⟨⟨dirty, n⟩, hins, hu⟩ : ∃ r, t.insert fuel t.root [] (ns ++ [16]) (.valueNode v) =
        some (.ok r) ∧ Updated t.root (ns ++ [16]) (some v) r :=
      insert_open t hs.shape hns (by omega) [] v
    rw [← hk] at hins hu
    rw [updateValue, if_pos hv]
    exact ⟨_, by simp only [Trie.TryUpdate, hv, ne_eq, not_false_eq_true, if_true, hins],
      hs.update hu.shape hu.contents⟩
  · -- an empty value: `delete`
    obtain ⟨t', hdel, hs'⟩ := hs.tryDelete k hfuel
    rw [updateValue, if_neg hv]
    refine ⟨t', ?_, hs'⟩
    simp only [Trie.TryDelete] at hdel
    simp only [Trie.TryUpdate, hv, if_false]
    exact hdel

/-- A successful `TryDelete` set the root to what `delete` returned there. -/
theorem TryDelete_inv {k : Bytes} {t' : Trie} (h : t.TryDelete fuel k = some (.ok (), t')) :
    ∃ r, t.delete fuel t.root [] (keybytesToHex k) = some (.ok r) ∧ t' = { t with root := r.2 } := by
  simp only [Trie.TryDelete] at h
  split at h
  · cases h
  · cases h
  · rename_i heq
    cases h
    exact ⟨_, heq, rfl⟩

/-- A successful `TryUpdate` set the root to what `insert` (for a value) or `delete` (for an
empty one) returned there. -/
theorem TryUpdate_inv {k v : Bytes} {t' : Trie} (h : t.TryUpdate fuel k v = some (.ok (), t')) :
    ∃ r, (if v.length ≠ 0 then t.insert fuel t.root [] (keybytesToHex k) (.valueNode v)
      else t.delete fuel t.root [] (keybytesToHex k)) = some (.ok r) ∧
      t' = { t with root := r.2 } := by
  simp only [Trie.TryUpdate] at h
  split at h
  · cases h
  · cases h
  · rename_i heq
    cases h
    exact ⟨_, heq, rfl⟩

end Calls

/-- `New` at the zero hash or at `emptyRoot` opens an empty trie, which stores nothing. -/
theorem New_empty (keccak : Bytes → Bytes) {root : Bytes} {db : KV}
    (hroot : root = List.replicate 32 0 ∨ root = emptyRoot keccak) {t : Trie}
    (h : New keccak root db = some (.ok t)) : t.root = .nil := by
  have hempty : ¬ (root ≠ List.replicate 32 0 ∧ root ≠ emptyRoot keccak) := by
    rintro ⟨h₁, h₂⟩
    rcases hroot with h | h
    · exact h₁ h
    · exact h₂ h
  simp only [New, hempty, if_false] at h
  cases h
  rfl

/-! ### Sessions -/

/-- A user's session with a trie that `New` opened empty: the trie after each call, beside the
map the calls stand for.  Each call has fuel for its key. -/
inductive Session (keccak : Bytes → Bytes) : Trie → (Bytes → Option Bytes) → Prop
  | new {root : Bytes} {db : KV} {t : Trie} :
      root = List.replicate 32 0 ∨ root = emptyRoot keccak →
      New keccak root db = some (.ok t) → Session keccak t fun _ => none
  | update {t : Trie} {M : Bytes → Option Bytes} {fuel : Nat} {k v : Bytes} {t' : Trie} :
      Session keccak t M → 2 * k.length + 1 < fuel → t.TryUpdate fuel k v = some (.ok (), t') →
      Session keccak t' (Function.update M k (updateValue v))
  | delete {t : Trie} {M : Bytes → Option Bytes} {fuel : Nat} {k : Bytes} {t' : Trie} :
      Session keccak t M → 2 * k.length + 1 < fuel → t.TryDelete fuel k = some (.ok (), t') →
      Session keccak t' (Function.update M k none)
  | get {t : Trie} {M : Bytes → Option Bytes} {fuel : Nat} {k : Bytes} {r} {t' : Trie} :
      Session keccak t M → 2 * k.length + 1 < fuel → t.TryGet fuel k = some (r, t') →
      Session keccak t' M

/-- Every session stores its map: by induction on the session, each call keeping `Stores`. -/
theorem Session.stores {keccak : Bytes → Bytes} {t : Trie} {M : Bytes → Option Bytes}
    (h : Session keccak t M) : Stores t M := by
  induction h with
  | new hroot hnew => exact stores_nil _ (New_empty keccak hroot hnew)
  | update _ hfuel hcall ih =>
    obtain ⟨t', hcall', hs⟩ := ih.tryUpdate _ _ hfuel
    rw [hcall'] at hcall
    cases hcall
    exact hs
  | delete _ hfuel hcall ih =>
    obtain ⟨t', hcall', hs⟩ := ih.tryDelete _ hfuel
    rw [hcall'] at hcall
    cases hcall
    exact hs
  | get _ hfuel hcall ih =>
    rw [ih.tryGet _ hfuel] at hcall
    cases hcall
    exact ih

/-- Every session keeps the trie without redundant nodes: by induction on the session, with
`insert_minimal` and `delete_minimal` for the calls that change the root. -/
theorem Session.minimal {keccak : Bytes → Bytes} {t : Trie} {M : Bytes → Option Bytes}
    (h : Session keccak t M) : MinRoot t.root := by
  induction h with
  | new hroot hnew => rw [New_empty keccak hroot hnew]; exact minRoot_nil
  | @update t M fuel k v t' _ _ hcall ih =>
    obtain ⟨r, hr, rfl⟩ := TryUpdate_inv hcall
    obtain ⟨ns, hk, hns, -⟩ := keybytesToHex_nibbles k
    rw [hk] at hr
    split at hr
    · rename_i hv
      exact (insert_minimal t ih hns (by simpa using hv) hr).1.minRoot
    · exact (delete_minimal t ih hns hr).1
  | @delete t M fuel k t' _ _ hcall ih =>
    obtain ⟨r, hr, rfl⟩ := TryDelete_inv hcall
    obtain ⟨ns, hk, hns, -⟩ := keybytesToHex_nibbles k
    rw [hk] at hr
    exact (delete_minimal t ih hns hr).1
  | get hs hfuel hcall ih =>
    rw [hs.stores.tryGet _ hfuel] at hcall
    cases hcall
    exact ih

/-- **`TryGet` answers what the session left under the key**: in every session, with fuel for
the key, `TryGet` returns the map's value, without error, and the trie as it was. -/
theorem Session_TryGet {keccak : Bytes → Bytes} {t : Trie} {M : Bytes → Option Bytes}
    (h : Session keccak t M) (k : Bytes) {fuel : Nat} (hfuel : 2 * k.length + 1 < fuel) :
    t.TryGet fuel k = some (.ok (M k), t) :=
  h.stores.tryGet k hfuel

/-- A trie that `TryUpdate` of `[1]` to `[7]` leaves on a trie opened empty. -/
def oneEntry : Trie :=
  { root := .shortNode [0, 1, 16] (.valueNode [7]) { hash := none, gen := 0, dirty := true },
    db := fun _ => none, originalRoot := List.replicate 32 0, cachegen := 0, cachelimit := 0 }

theorem oneEntry_session (keccak : Bytes → Bytes) :
    Session keccak oneEntry (Function.update (fun _ => none) [1] (updateValue [7])) :=
  .update (.new (Or.inl rfl) rfl) (by decide : 2 * [1].length + 1 < 4) rfl

theorem oneEntry_TryGet :
    2 * [1].length + 1 < 4 ∧ oneEntry.TryGet 4 [1] = some (.ok (some [7]), oneEntry) :=
  ⟨by decide, by
    simpa [updateValue] using Session_TryGet (oneEntry_session fun _ => []) [1]
      (by decide : 2 * [1].length + 1 < 4)⟩

/-- **No call of a session fails**: with fuel for the key, `TryUpdate` and `TryDelete` return
without error, and the session goes on with the map updated. -/
theorem Session_calls_succeed {keccak : Bytes → Bytes} {t : Trie} {M : Bytes → Option Bytes}
    (h : Session keccak t M) (k v : Bytes) {fuel : Nat} (hfuel : 2 * k.length + 1 < fuel) :
    (∃ t', t.TryUpdate fuel k v = some (.ok (), t') ∧
      Session keccak t' (Function.update M k (updateValue v))) ∧
    ∃ t', t.TryDelete fuel k = some (.ok (), t') ∧ Session keccak t' (Function.update M k none) := by
  obtain ⟨t₁, hupd, -⟩ := h.stores.tryUpdate k v hfuel
  obtain ⟨t₂, hdel, -⟩ := h.stores.tryDelete k hfuel
  exact ⟨⟨t₁, hupd, h.update hfuel hupd⟩, t₂, hdel, h.delete hfuel hdel⟩

theorem oneEntry_calls_succeed :
    2 * [2].length + 1 < 4 ∧
      ((∃ t', oneEntry.TryUpdate 4 [2] [8] = some (.ok (), t') ∧
        Session (fun _ => []) t' (Function.update (Function.update (fun _ => none) [1]
          (updateValue [7])) [2] (updateValue [8]))) ∧
      ∃ t', oneEntry.TryDelete 4 [2] = some (.ok (), t') ∧
        Session (fun _ => []) t' (Function.update (Function.update (fun _ => none) [1]
          (updateValue [7])) [2] none)) :=
  ⟨by decide, Session_calls_succeed (oneEntry_session fun _ => []) [2] [8]
    (by decide : 2 * [2].length + 1 < 4)⟩

end Trie
end Ethcore
