import Mathlib.Logic.Function.Basic
import Mathlib.Data.List.Basic

/-!
# Maps on list keys, as prefix trees see them

A map from lists to optional values, with the operations a prefix tree is made of: the
map below a path (`below`), a map placed under a path (`under`), a branch on the first
element (`branch`), and the map with one entry (`single`).  `Branching` says that the keys
do not all begin with the same element.

A prefix tree stores a map as a path shared by all its keys above a branch.  Which path
that is, is fixed by the map: `under_inj` says that a map placed under a path above a
branching map determines both, which is the uniqueness of canonical prefix trees.  The
update lemmas say how inserting or removing one key moves through these operations.
-/

namespace PrefixMap

variable {α β : Type*}

/-- A map from list keys. -/
abbrev Map (α β : Type*) := List α → Option β

/-- The empty map. -/
def empty : Map α β := fun _ => none

/-- The map below the path `p`: the keys that extend `p`, with `p` removed. -/
def below (p : List α) (M : Map α β) : Map α β := fun k => M (p ++ k)

/-- The branch on the first element of the key; the empty key has no entry. -/
def branch (f : α → Map α β) : Map α β
  | [] => none
  | a :: k => f a k

/-- The keys do not all begin with the same element (and there are at least two). -/
def Branching (M : Map α β) : Prop :=
  ∃ k₁ k₂ v₁ v₂, M k₁ = some v₁ ∧ M k₂ = some v₂ ∧ k₁.head? ≠ k₂.head?

@[simp] theorem empty_apply (k : List α) : (empty : Map α β) k = none := rfl

@[simp] theorem below_apply (p k : List α) (M : Map α β) : below p M k = M (p ++ k) := rfl

@[simp] theorem branch_nil (f : α → Map α β) : branch f [] = none := rfl

@[simp] theorem branch_cons (f : α → Map α β) (a : α) (k : List α) :
    branch f (a :: k) = f a k := rfl

theorem below_below (p q : List α) (M : Map α β) : below q (below p M) = below (p ++ q) M := by
  funext k
  simp

theorem below_branch (f : α → Map α β) (a : α) : below [a] (branch f) = f a := rfl

/-- A map without the empty key is the branch of its maps below each first element. -/
theorem eq_branch_below {M : Map α β} (h : M [] = none) : M = branch fun a => below [a] M := by
  funext k
  cases k with
  | nil => exact h
  | cons a k => rfl

theorem branch_injective : Function.Injective (branch : (α → Map α β) → Map α β) := by
  intro f g h
  funext a k
  exact congrFun h (a :: k)

theorem eq_empty_iff {M : Map α β} : M = empty ↔ ∀ k, M k = none := by
  constructor
  · rintro rfl k
    rfl
  · intro h
    funext k
    exact h k

theorem ne_empty_iff {M : Map α β} : M ≠ empty ↔ ∃ k v, M k = some v := by
  constructor
  · intro h
    by_contra hc
    apply h
    funext k
    cases hk : M k with
    | none => rfl
    | some v => exact absurd ⟨k, v, hk⟩ hc
  · rintro ⟨k, v, hk⟩ rfl
    simp at hk

theorem branch_eq_empty_iff {f : α → Map α β} : branch f = empty ↔ ∀ a, f a = empty := by
  constructor
  · intro h a
    funext k
    exact congrFun h (a :: k)
  · intro h
    funext k
    cases k with
    | nil => rfl
    | cons a k => simp [h a]

theorem not_branching_empty : ¬ Branching (empty : Map α β) := by
  rintro ⟨k₁, _, v₁, _, h₁, -⟩
  simp at h₁

/-- A branching map has an entry. -/
theorem Branching.ne_empty {M : Map α β} (h : Branching M) : M ≠ empty := by
  rintro rfl
  exact not_branching_empty h

/-- Two entries of a branch on different first elements make it branching. -/
theorem branching_branch_iff {f : α → Map α β} :
    Branching (branch f) ↔ ∃ a b, a ≠ b ∧ f a ≠ empty ∧ f b ≠ empty := by
  constructor
  · rintro ⟨k₁, k₂, v₁, v₂, h₁, h₂, hne⟩
    cases k₁ with
    | nil => simp at h₁
    | cons a k₁ =>
        cases k₂ with
        | nil => simp at h₂
        | cons b k₂ =>
            refine ⟨a, b, by simpa using hne, ?_, ?_⟩
            · exact Iff.mpr ne_empty_iff ⟨k₁, v₁, h₁⟩
            · exact Iff.mpr ne_empty_iff ⟨k₂, v₂, h₂⟩
  · rintro ⟨a, b, hab, ha, hb⟩
    obtain ⟨k₁, v₁, h₁⟩ := Iff.mp ne_empty_iff ha
    obtain ⟨k₂, v₂, h₂⟩ := Iff.mp ne_empty_iff hb
    exact ⟨a :: k₁, b :: k₂, v₁, v₂, h₁, h₂, by simpa using hab⟩

section DecidableEq

variable [DecidableEq α]

/-- The map with the one entry `k ↦ v`. -/
def single (k : List α) (v : β) : Map α β := fun k' => if k' = k then some v else none

/-- The map `M` placed under the path `p`: every key gets `p` in front. -/
def under (p : List α) (M : Map α β) : Map α β := fun k =>
  if p <+: k then M (k.drop p.length) else none

@[simp] theorem single_self (k : List α) (v : β) : single k v k = some v := by simp [single]

theorem single_of_ne {k k' : List α} (h : k' ≠ k) (v : β) : single k v k' = none := by
  simp [single, h]

@[simp] theorem under_append (p k : List α) (M : Map α β) : under p M (p ++ k) = M k := by
  simp [under]

theorem under_of_not_isPrefixOf {p k : List α} (h : ¬ p <+: k) (M : Map α β) : under p M k = none := by
  simp [under, h]

@[simp] theorem under_nil (M : Map α β) : under [] M = M := by
  funext k
  simp [under]

theorem below_under (p : List α) (M : Map α β) : below p (under p M) = M := by
  funext k
  simp

theorem under_apply_eq_some {p k : List α} {M : Map α β} {v : β} (h : under p M k = some v) :
    ∃ r, k = p ++ r ∧ M r = some v := by
  unfold under at h
  split at h
  · next hp =>
      obtain ⟨r, rfl⟩ := hp
      exact ⟨r, rfl, by simpa using h⟩
  · cases h

theorem under_under (p q : List α) (M : Map α β) : under p (under q M) = under (p ++ q) M := by
  funext k
  by_cases hp : p <+: k
  · obtain ⟨r, rfl⟩ := hp
    by_cases hq : q <+: r
    · obtain ⟨s, rfl⟩ := hq
      rw [under_append, under_append, ← List.append_assoc, under_append]
    · rw [under_append, under_of_not_isPrefixOf hq, under_of_not_isPrefixOf]
      rwa [List.prefix_append_right_inj]
  · rw [under_of_not_isPrefixOf hp, under_of_not_isPrefixOf]
    exact fun h => hp ((List.prefix_append p q).trans h)

theorem under_cons (a : α) (p : List α) (M : Map α β) :
    under (a :: p) M = branch (Function.update (fun _ => empty) a (under p M)) := by
  funext k
  cases k with
  | nil => rfl
  | cons b k =>
      by_cases hb : b = a
      · subst hb
        simp [under]
      · have hab : a ≠ b := fun h => hb h.symm
        simp [under, hb, hab]

theorem single_eq_under (k : List α) (v : β) : single k v = under k (single [] v) := by
  funext k'
  by_cases hk : k <+: k'
  · obtain ⟨r, rfl⟩ := hk
    rw [under_append]
    simp [single]
  · rw [under_of_not_isPrefixOf hk, single_of_ne]
    rintro rfl
    exact hk (List.prefix_refl _)

theorem update_empty (k : List α) (v : β) : Function.update empty k (some v) = single k v := by
  funext k'
  by_cases h : k' = k
  · subst h
    simp
  · simp [Function.update_of_ne h, single_of_ne h]

theorem update_single_self (k : List α) (v : β) : Function.update (single k v) k none = empty := by
  funext k'
  by_cases h : k' = k
  · subst h
    simp
  · simp [Function.update_of_ne h, single_of_ne h]

theorem update_under (p k : List α) (M : Map α β) (x : Option β) :
    Function.update (under p M) (p ++ k) x = under p (Function.update M k x) := by
  funext k'
  by_cases hp : p <+: k'
  · obtain ⟨r, rfl⟩ := hp
    by_cases hr : r = k
    · subst hr
      simp
    · rw [Function.update_of_ne (by simpa using hr), under_append, under_append,
        Function.update_of_ne hr]
  · have hne : k' ≠ p ++ k := by
      rintro rfl
      exact hp (List.prefix_append p k)
    rw [Function.update_of_ne hne, under_of_not_isPrefixOf hp, under_of_not_isPrefixOf hp]

/-- Updating a key outside the path leaves what is under the path alone. -/
theorem update_under_of_not_isPrefixOf {p k : List α} (h : ¬ p <+: k) (M : Map α β) :
    Function.update (under p M) k none = under p M := by
  funext k'
  by_cases hk : k' = k
  · subst hk
    rw [Function.update_self, under_of_not_isPrefixOf h]
  · rw [Function.update_of_ne hk]

theorem update_branch (f : α → Map α β) (a : α) (k : List α) (x : Option β) :
    Function.update (branch f) (a :: k) x =
      branch (Function.update f a (Function.update (f a) k x)) := by
  funext k'
  cases k' with
  | nil => rfl
  | cons b k' =>
      by_cases hb : b = a
      · subst hb
        by_cases hk : k' = k
        · subst hk
          simp
        · have : b :: k' ≠ b :: k := by simpa using hk
          simp [Function.update_of_ne this, Function.update_of_ne hk]
      · have : b :: k' ≠ a :: k := by simp [hb]
        simp [Function.update_of_ne this, Function.update_of_ne hb]

/-- Giving a key `p ++ b₂ :: r₂` a value in the map under `p ++ b₁ :: r₁`, with `b₁ ≠ b₂`,
splits the path: under `p`, a branch with the old map at `b₁` and the new entry at `b₂`. -/
theorem update_under_split (p r₁ r₂ : List α) {b₁ b₂ : α} (hb : b₁ ≠ b₂) (M : Map α β) (v : β) :
    Function.update (under (p ++ b₁ :: r₁) M) (p ++ b₂ :: r₂) (some v) =
      under p (branch (Function.update (Function.update (fun _ => empty) b₁ (under r₁ M)) b₂
        (single r₂ v))) := by
  rw [← under_under, update_under, under_cons, update_branch, Function.update_of_ne hb.symm]
  simp only [update_empty]

theorem under_eq_empty_iff {p : List α} {M : Map α β} : under p M = empty ↔ M = empty := by
  constructor
  · intro h
    rw [← below_under p M, h]
    rfl
  · rintro rfl
    funext k
    unfold under
    split <;> rfl

/-- Every key of a map under a non-empty path begins with the path's first element, so it
does not branch. -/
theorem not_branching_under {p : List α} (hp : p ≠ []) (M : Map α β) :
    ¬ Branching (under p M) := by
  obtain ⟨a, q, rfl⟩ := List.exists_cons_of_ne_nil hp
  rintro ⟨k₁, k₂, v₁, v₂, h₁, h₂, hne⟩
  obtain ⟨r₁, rfl, -⟩ := under_apply_eq_some h₁
  obtain ⟨r₂, rfl, -⟩ := under_apply_eq_some h₂
  simp at hne

theorem not_branching_single (k : List α) (v : β) : ¬ Branching (single k v) := by
  rintro ⟨k₁, k₂, v₁, v₂, h₁, h₂, hne⟩
  have e₁ : k₁ = k := by
    by_contra h
    rw [single_of_ne h] at h₁
    cases h₁
  have e₂ : k₂ = k := by
    by_contra h
    rw [single_of_ne h] at h₂
    cases h₂
  exact hne (by rw [e₁, e₂])

/-- Giving a key a value keeps a map branching. -/
theorem Branching.update_some {M : Map α β} (h : Branching M) (k : List α) (v : β) :
    Branching (Function.update M k (some v)) := by
  obtain ⟨k₁, k₂, v₁, v₂, h₁, h₂, hne⟩ := h
  have keep : ∀ k' v', M k' = some v' → ∃ w, Function.update M k (some v) k' = some w := by
    intro k' v' hk'
    by_cases e : k' = k
    · subst e
      exact ⟨v, by simp⟩
    · exact ⟨v', by rw [Function.update_of_ne e, hk']⟩
  obtain ⟨w₁, hw₁⟩ := keep k₁ v₁ h₁
  obtain ⟨w₂, hw₂⟩ := keep k₂ v₂ h₂
  exact ⟨k₁, k₂, w₁, w₂, hw₁, hw₂, hne⟩

/-- Removing one key from a branching map leaves an entry. -/
theorem Branching.update_none_ne_empty {M : Map α β} (h : Branching M) (k : List α) :
    Function.update M k none ≠ empty := by
  obtain ⟨k₁, k₂, v₁, v₂, h₁, h₂, hne⟩ := h
  apply ne_empty_iff.mpr
  by_cases e : k₁ = k
  · have e₂ : k₂ ≠ k := by
      rintro rfl
      exact hne (by rw [e])
    exact ⟨k₂, v₂, by rw [Function.update_of_ne e₂, h₂]⟩
  · exact ⟨k₁, v₁, by rw [Function.update_of_ne e, h₁]⟩

theorem below_single (p r : List α) (v : β) : below p (single (p ++ r) v) = single r v := by
  funext k
  simp [single]

theorem below_single_of_not_isPrefixOf {p k : List α} (h : ¬ p <+: k) (v : β) :
    below p (single k v) = empty := by
  funext r
  rw [below_apply, single_of_ne]
  · rfl
  · rintro rfl
    exact h (List.prefix_append p r)

theorem single_inj {k k' : List α} {v v' : β} (h : single k v = single k' v') : k = k' ∧ v = v' := by
  have hk := congrFun h k
  rw [single_self] at hk
  by_cases e : k = k'
  · subst e
    simp at hk
    exact ⟨rfl, hk⟩
  · rw [single_of_ne e] at hk
    cases hk

theorem single_ne_empty (k : List α) (v : β) : single k v ≠ empty := by
  intro h
  have := congrFun h k
  simp at this

/-- A map under a path above a branching map has two entries, so it is not a single one. -/
theorem Branching.under_ne_single {M : Map α β} (hM : Branching M) (p k : List α) (v : β) :
    under p M ≠ single k v := by
  intro h
  have hb : below p (under p M) = below p (single k v) := by rw [h]
  rw [below_under] at hb
  by_cases hp : p <+: k
  · obtain ⟨r, rfl⟩ := hp
    rw [below_single] at hb
    exact not_branching_single r v (hb ▸ hM)
  · rw [below_single_of_not_isPrefixOf hp] at hb
    exact not_branching_empty (hb ▸ hM)

/-- **Uniqueness of the shared path.**  A map placed under a path above a branching map
determines the path and the map. -/
theorem under_inj {p q : List α} {M N : Map α β} (h : under p M = under q N)
    (hM : Branching M) (hN : Branching N) : p = q ∧ M = N := by
  -- the shorter path is a prefix of the longer one, through any common key
  have hcmp : p <+: q ∨ q <+: p := by
    obtain ⟨k₁, -, v₁, -, h₁, -⟩ := hM
    have hp : under p M (p ++ k₁) = some v₁ := by simpa using h₁
    rw [h] at hp
    obtain ⟨r, hr, -⟩ := under_apply_eq_some hp
    exact List.prefix_or_prefix_of_prefix (List.prefix_append p k₁)
      (by rw [hr]; exact List.prefix_append q r)
  -- a longer path would leave all keys of the map below the shorter one on one element
  have key : ∀ {p q : List α} {M N : Map α β}, under p M = under q N → Branching M →
      p <+: q → p = q := by
    intro p q M N h hM hpq
    obtain ⟨d, rfl⟩ := hpq
    cases d with
    | nil => simp
    | cons a d =>
        exfalso
        have hMN : M = under (a :: d) N := by
          rw [← below_under p M, h, ← under_under, below_under]
        apply not_branching_under (List.cons_ne_nil a d) N
        rw [← hMN]
        exact hM
  have hpq : p = q := by
    rcases hcmp with hc | hc
    · exact key h hM hc
    · exact (key h.symm hN hc).symm
  subst hpq
  refine ⟨rfl, ?_⟩
  rw [← below_under p M, h, below_under]

end DecidableEq

end PrefixMap
