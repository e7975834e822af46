import Mathlib.Data.List.Perm.Basic

/-!
# Maps kept as lists of entries

A Go map modelled as the list of its entries, read through `List.lookup`.  Where the keys are
distinct an entry is what its key looks up (`lookup_eq_some_iff`), so any permutation of the
entries, such as the order in which `range` visits them, reads the same (`Perm.lookup_eq`), and
overwriting the value of a key the map holds (`lookup_set`, `flatMap_set_perm`) leaves the
other keys alone.  `put` and `delete` are the map's assignment and deletion; with distinct keys,
deleting the key of an entry takes out that entry and no other (`perm_cons_delete`).  The last
two lemmas are about lists of at most one element: what a filter by a key returns when each key
occurs once.
-/

namespace Entries

variable {α β : Type}

section Lookup

variable [BEq α] [LawfulBEq α]

theorem lookup_eq_none_iff_not_mem {m : List (α × β)} {k : α} :
    m.lookup k = none ↔ k ∉ m.map Prod.fst := by
  simp only [List.lookup_eq_none_iff, bne_iff_ne, ne_eq, List.mem_map, not_exists, not_and]
  exact ⟨fun h e he hk => h e he hk.symm, fun h e he hk => h e he hk.symm⟩

/-- With distinct keys, an entry is what its key looks up. -/
theorem lookup_eq_some_iff {m : List (α × β)} (hk : (m.map Prod.fst).Nodup) {k : α} {v : β} :
    m.lookup k = some v ↔ (k, v) ∈ m := by
  induction m with
  | nil => simp
  | cons e rest ih =>
    obtain ⟨k', v'⟩ := e
    simp only [List.map_cons, List.nodup_cons] at hk
    by_cases hkk : k = k'
    · subst hkk
      have hrest : (k, v) ∉ rest := fun h => hk.1 (List.mem_map.mpr ⟨_, h, rfl⟩)
      simp [hrest, eq_comm]
    · have hne : (k == k') = false := by simpa using hkk
      simp [List.lookup_cons, hne, ih hk.2, hkk]

theorem lookup_of_mem {m : List (α × β)} (hk : (m.map Prod.fst).Nodup) {e : α × β} (he : e ∈ m) :
    m.lookup e.1 = some e.2 :=
  (lookup_eq_some_iff hk).mpr he

/-- A permutation of entries with distinct keys reads the same. -/
theorem Perm.lookup_eq {m m' : List (α × β)} (hp : m.Perm m') (hk : (m.map Prod.fst).Nodup)
    (k : α) : m.lookup k = m'.lookup k := by
  have hk' : (m'.map Prod.fst).Nodup := (hp.map Prod.fst).nodup_iff.mp hk
  cases h : m'.lookup k with
  | none =>
    rw [lookup_eq_none_iff_not_mem] at h ⊢
    exact fun hm => h ((hp.map Prod.fst).subset hm)
  | some v =>
    rw [lookup_eq_some_iff hk]
    exact hp.symm.subset ((lookup_eq_some_iff hk').mp h)

/-- A map of lists in which every key looks up an empty list holds no element. -/
theorem flatMap_eq_nil_of_lookup {γ : Type} {m : List (α × List γ)} (hk : (m.map Prod.fst).Nodup)
    (h : ∀ k, (m.lookup k).getD [] = []) : m.flatMap Prod.snd = [] := by
  refine List.flatMap_eq_nil_iff.mpr fun e he => ?_
  simpa [lookup_of_mem hk he] using h e.1

theorem lookup_map_snd (m : List (α × β)) (g : β → β) (k : α) :
    (m.map fun e => (e.1, g e.2)).lookup k = (m.lookup k).map g := by
  induction m with
  | nil => rfl
  | cons e rest ih =>
    obtain ⟨k', v'⟩ := e
    by_cases h : k = k'
    · subst h
      simp
    · have hne : (k == k') = false := by simpa using h
      simp [List.lookup_cons, hne, ih]

end Lookup

section Set

variable [DecidableEq α]

/-- `m[k] = v` where `m` holds `k`: every entry of key `k` takes the value `v`. -/
def set (k : α) (v : β) (m : List (α × β)) : List (α × β) :=
  m.map fun e => if e.1 = k then (k, v) else e

@[simp] theorem map_fst_set (k : α) (v : β) (m : List (α × β)) :
    (set k v m).map Prod.fst = m.map Prod.fst := by
  simp only [set, List.map_map]
  exact List.map_congr_left fun e _ => by by_cases h : e.1 = k <;> simp [h]

theorem set_of_not_mem {k : α} (v : β) {m : List (α × β)} (h : k ∉ m.map Prod.fst) :
    set k v m = m := by
  conv_rhs => rw [← List.map_id m]
  refine List.map_congr_left fun e he => ?_
  have hne : e.1 ≠ k := fun hk => h (List.mem_map.mpr ⟨e, he, hk⟩)
  simp [hne]

variable [BEq α] [LawfulBEq α]

theorem lookup_set (k : α) (v : β) (m : List (α × β)) (a : α) :
    (set k v m).lookup a = if a = k then (m.lookup k).map fun _ => v else m.lookup a := by
  induction m with
  | nil => by_cases h : a = k <;> simp [set, h]
  | cons e rest ih =>
    obtain ⟨k', v'⟩ := e
    simp only [set, List.map_cons] at ih ⊢
    by_cases hk : k' = k
    · subst hk
      by_cases ha : a = k'
      · simp [ha]
      · have hne : (a == k') = false := by simpa using ha
        simp [List.lookup_cons, ha, hne, ih]
    · by_cases ha : a = k'
      · subst ha
        simp [hk]
      · have hne : (a == k') = false := by simpa using ha
        by_cases hak : a = k
        · subst hak
          simp [List.lookup_cons, hk, hne, ih]
        · simp [List.lookup_cons, hk, hne, ih, hak]

/-- Overwriting the list `l` that key `k` holds by `v`, on maps of lists. -/
theorem flatMap_set_perm {γ : Type} {k : α} {l : List γ} (v : List γ) {m : List (α × List γ)}
    (hk : (m.map Prod.fst).Nodup) (hl : m.lookup k = some l) :
    ((set k v m).flatMap Prod.snd ++ l).Perm (m.flatMap Prod.snd ++ v) := by
  induction m with
  | nil => simp at hl
  | cons e rest ih =>
    obtain ⟨k', l'⟩ := e
    simp only [List.map_cons, List.nodup_cons] at hk
    by_cases hkk : k' = k
    · subst hkk
      have hl' : l' = l := by simpa using hl
      subst hl'
      simp only [set, List.map_cons, List.flatMap_cons]
      rw [show List.map _ rest = rest from set_of_not_mem v hk.1]
      -- the old list `l'` and the new `v` trade places around the other keys' lists
      have hswap : (v ++ rest.flatMap Prod.snd ++ l').Perm (l' ++ (v ++ rest.flatMap Prod.snd)) :=
        List.perm_append_comm
      have hinner : (l' ++ (v ++ rest.flatMap Prod.snd)).Perm (l' ++ (rest.flatMap Prod.snd ++ v)) :=
        List.perm_append_comm.append_left l'
      simpa [List.append_assoc] using hswap.trans hinner
    · have hne : (k == k') = false := by simpa using Ne.symm hkk
      have hl' : rest.lookup k = some l := by simpa [List.lookup_cons, hne] using hl
      simp only [set, List.map_cons, if_neg hkk, List.flatMap_cons]
      simpa [set, List.append_assoc] using (ih hk.2 hl').append_left l'

end Set

section Put

variable [DecidableEq α]

/-- `m[k] = v`: the entry of key `k` takes the value `v`, or, where `m` has none, a new entry
is added. -/
def put (k : α) (v : β) (m : List (α × β)) : List (α × β) :=
  if k ∈ m.map Prod.fst then set k v m else m ++ [(k, v)]

/-- `delete(m, k)`. -/
def delete (k : α) (m : List (α × β)) : List (α × β) := m.filter fun e => e.1 ≠ k

theorem put_of_not_mem {k : α} (v : β) {m : List (α × β)} (h : k ∉ m.map Prod.fst) :
    put k v m = m ++ [(k, v)] :=
  if_neg h

theorem mem_put {k : α} {v : β} {m : List (α × β)} {e : α × β} (he : e ∈ put k v m) :
    e ∈ m ∨ e = (k, v) := by
  unfold put at he
  split at he
  · obtain ⟨e', he', rfl⟩ := List.mem_map.mp he
    by_cases hk : e'.1 = k
    · exact .inr (if_pos hk)
    · rw [if_neg hk]
      exact .inl he'
  · rcases List.mem_append.mp he with h | h
    · exact .inl h
    · exact .inr (List.mem_singleton.mp h)

/-- After `m[k] = v`, key `k` looks up `v`. -/
theorem lookup_put_self [BEq α] [LawfulBEq α] (k : α) (v : β) (m : List (α × β)) :
    (put k v m).lookup k = some v := by
  unfold put
  split
  · rename_i hk
    rw [lookup_set, if_pos rfl]
    have hne : m.lookup k ≠ none := fun h => (Iff.mp lookup_eq_none_iff_not_mem h) hk
    obtain ⟨v', hv'⟩ := Option.ne_none_iff_exists'.mp hne
    rw [hv', Option.map_some]
  · rename_i hk
    rw [List.lookup_append, (lookup_eq_none_iff_not_mem).mpr hk]
    simp

theorem nodup_delete {k : α} {m : List (α × β)} (hk : (m.map Prod.fst).Nodup) :
    ((delete k m).map Prod.fst).Nodup :=
  (List.filter_sublist.map Prod.fst).nodup hk

/-- With distinct keys, deleting the key of an entry takes that entry out. -/
theorem perm_cons_delete {m : List (α × β)} (hk : (m.map Prod.fst).Nodup) {k : α} {v : β}
    (he : (k, v) ∈ m) : m.Perm ((k, v) :: delete k m) := by
  induction m with
  | nil => simp at he
  | cons e rest ih =>
    simp only [List.map_cons, List.nodup_cons] at hk
    by_cases hek : e.1 = k
    · -- the entry is the head, and no other entry has its key
      have hrest : delete k rest = rest := by
        refine List.filter_eq_self.mpr fun e' he' => ?_
        have hne : e'.1 ≠ k := fun h => hk.1 (hek ▸ h ▸ List.mem_map_of_mem he')
        simpa using hne
      have heq : e = (k, v) := by
        rcases List.mem_cons.mp he with h | h
        · exact h.symm
        · exact absurd (hek ▸ List.mem_map_of_mem (f := Prod.fst) h) hk.1
      rw [delete, List.filter_cons, if_neg (by simpa using hek), ← delete, hrest, heq]
    · -- the entry is further on
      have hmem : (k, v) ∈ rest := by
        rcases List.mem_cons.mp he with h | h
        · exact absurd (h ▸ rfl) hek
        · exact h
      rw [delete, List.filter_cons, if_pos (by simpa using hek), ← delete]
      exact ((ih hk.2 hmem).cons e).trans (List.Perm.swap _ _ _)

end Put

section AtMostOne

variable {γ : Type}

/-- When `f` takes distinct values on `l`, at most one element of `l` has `f x = a`. -/
theorem length_filter_le_one [DecidableEq α] {f : γ → α} {l : List γ} (hk : (l.map f).Nodup)
    (a : α) : (l.filter fun x => decide (f x = a)).length ≤ 1 := by
  induction l with
  | nil => simp
  | cons x rest ih =>
    simp only [List.map_cons, List.nodup_cons] at hk
    by_cases hx : f x = a
    · have hnil : rest.filter (fun y => decide (f y = a)) = [] := by
        refine List.filter_eq_nil_iff.mpr fun y hy hfy => hk.1 ?_
        exact List.mem_map.mpr ⟨y, hy, by simpa [hx] using hfy⟩
      simp [hx, hnil]
    · simpa [List.filter_cons, hx] using ih hk.2

/-- A permutation of a list of at most one element is that list. -/
theorem Perm.eq_of_length_le_one {l l' : List γ} (hp : l.Perm l') (h : l'.length ≤ 1) :
    l = l' := by
  rcases l' with _ | ⟨a, _ | ⟨b, t⟩⟩
  · exact List.perm_nil.mp hp
  · exact List.perm_singleton.mp hp
  · simp at h

end AtMostOne

end Entries
