import Mathlib.Order.Basic

/-!
# Binary search: Go's `sort.Search`

`Search n f` halves `[i, j)` until it is empty: where `f h` is false the search continues
above `h`, else at `h` and below.  For an `f` that is false and then true on `[0, n)`
(`Monotone`) it returns the least index at which `f` holds, or `n` (`Search_spec`).  The
loop runs on a count of rounds, `n` of them, which is more than the halving needs.
-/

namespace BinarySearch

variable (f : Nat → Bool)

/-- The loop of `sort.Search`, for at most `fuel` rounds. -/
def searchLoop : Nat → Nat → Nat → Nat
  | 0, i, _ => i
  | fuel + 1, i, j =>
    if i < j then
      let h := (i + j) / 2
      if !f h then searchLoop fuel (h + 1) j else searchLoop fuel i h
    else i

/-- `sort.Search(n, f)`. -/
def Search (n : Nat) : Nat := searchLoop f n 0 n

/-- `f` is false and then true on `[0, n)`. -/
def Monotone (n : Nat) : Prop := ∀ a b, a ≤ b → b < n → f a = true → f b = true

/-- The invariant of the loop: `f` is false below `i`, and true at `j` unless `j = n`. -/
structure SearchInv (n i j : Nat) : Prop where
  le : i ≤ j
  le_n : j ≤ n
  below : ∀ k < i, f k = false
  above : j < n → f j = true

variable {f}

theorem SearchInv.step {n i j : Nat} (inv : SearchInv f n i j) (hmono : Monotone f n) (hij : i < j) :
    (f ((i + j) / 2) = false → SearchInv f n ((i + j) / 2 + 1) j) ∧
      (f ((i + j) / 2) = true → SearchInv f n i ((i + j) / 2)) := by
  have hh : (i + j) / 2 < j := by omega
  have hjn := inv.le_n
  constructor
  · intro hf
    refine ⟨by omega, inv.le_n, fun k hk => ?_, inv.above⟩
    -- below the midpoint `f` is false, since it is false at the midpoint
    rcases Nat.lt_or_ge k i with hki | hki
    · exact inv.below k hki
    · cases hk' : f k with
      | false => rfl
      | true => exact absurd (hmono k ((i + j) / 2) (by omega) (by omega) hk') (by simp [hf])
  · intro hf
    exact ⟨by omega, by omega, inv.below, fun _ => hf⟩

/-- The loop ends on the least index where `f` holds, given rounds enough to empty the range. -/
theorem searchLoop_spec (hmono : Monotone f n) :
    ∀ fuel i j, SearchInv f n i j → j - i ≤ fuel →
      SearchInv f n (searchLoop f fuel i j) (searchLoop f fuel i j)
  | 0, i, j, inv, hfuel => by
    have hij : i = j := by have := inv.le; omega
    subst hij
    exact inv
  | fuel + 1, i, j, inv, hfuel => by
    unfold searchLoop
    by_cases hij : i < j
    · rw [if_pos hij]
      obtain ⟨hfalse, htrue⟩ := inv.step hmono hij
      dsimp only
      cases hf : f ((i + j) / 2) with
      | false => exact searchLoop_spec hmono fuel _ j (hfalse hf) (by omega)
      | true => exact searchLoop_spec hmono fuel i _ (htrue hf) (by omega)
    · rw [if_neg hij]
      have hij' : i = j := by have := inv.le; omega
      subst hij'
      exact inv

/-- `sort.Search` on a monotone `f`: every index below the result fails `f`, and the result
is `n` or an index where `f` holds. -/
theorem Search_spec {n : Nat} (hmono : Monotone f n) :
    Search f n ≤ n ∧ (∀ k < Search f n, f k = false) ∧ (Search f n < n → f (Search f n) = true) := by
  have inv := searchLoop_spec hmono n 0 n
    ⟨Nat.zero_le n, Nat.le_refl n, fun k hk => absurd hk (Nat.not_lt_zero k), fun h => absurd h (Nat.lt_irrefl n)⟩
    (by omega)
  exact ⟨inv.le_n, inv.below, inv.above⟩

/-! ### Searching a list padded with `true` -/

/-- The test read off a list: `p` of element `k`, and `true` past the end. -/
def onList {α : Type} (S : List α) (p : α → Bool) (k : Nat) : Bool := (S[k]?).all p

section OnList

variable {α : Type} {S : List α} {p : α → Bool}

/-- Where `p` stays true along `S` once it holds, the test on `S` is monotone. -/
theorem onList_monotone (hS : S.Pairwise fun x y => p x = true → p y = true) (n : Nat) :
    Monotone (onList S p) n := by
  intro a b hab _ ha
  unfold onList at ha ⊢
  cases hb : S[b]? with
  | none => rfl
  | some y =>
    obtain ⟨hbS, rfl⟩ := List.getElem?_eq_some_iff.mp hb
    have hx : S[a]? = some S[a] := List.getElem?_eq_getElem (by omega)
    rw [hx] at ha
    rcases Nat.eq_or_lt_of_le hab with rfl | hlt
    · exact ha
    · exact List.pairwise_iff_getElem.mp hS a b (by omega) hbS hlt ha

/-- `sort.Search` over a list on which `p` is false and then true: the result splits the list
into the elements that fail `p` and those that pass it. -/
theorem Search_onList (hS : S.Pairwise fun x y => p x = true → p y = true) {n : Nat}
    (hn : S.length ≤ n) :
    Search (onList S p) n ≤ S.length ∧ (∀ x ∈ S.take (Search (onList S p) n), p x = false) ∧
      ∀ x ∈ S.drop (Search (onList S p) n), p x = true := by
  obtain ⟨-, hbelow, hat⟩ := Search_spec (onList_monotone hS n)
  generalize Search (onList S p) n = i at hbelow hat ⊢
  -- past the end the test holds, so the search stops at the end at the latest
  have hiS : i ≤ S.length := by
    by_contra h
    have hend := hbelow S.length (by omega)
    simp [onList] at hend
  refine ⟨hiS, fun x hx => ?_, fun x hx => ?_⟩
  · obtain ⟨k, hk, rfl⟩ := List.getElem_of_mem hx
    have hk' : k < i := by simp at hk; omega
    have hfail := hbelow k hk'
    simpa [onList, List.getElem?_eq_getElem (show k < S.length by omega)] using hfail
  · obtain ⟨y, rest, hdrop⟩ : ∃ y rest, S.drop i = y :: rest :=
      List.exists_cons_of_ne_nil (List.ne_nil_of_mem hx)
    have hi : i < S.length := by
      have hlen := congrArg List.length hdrop
      simp at hlen
      omega
    have hy : p y = true := by
      have hpass := hat (by omega)
      simpa [onList, ← List.head?_drop, hdrop] using hpass
    have hpw : (y :: rest).Pairwise fun x y => p x = true → p y = true :=
      hdrop ▸ hS.sublist (List.drop_sublist i S)
    rw [hdrop] at hx
    rcases List.mem_cons.mp hx with rfl | hx
    · exact hy
    · exact List.rel_of_pairwise_cons hpw hx hy

/-! Inserting `e` at the split point `i` of a list. -/

/-- `e` between the elements related to it and those it relates to keeps a list ordered. -/
theorem pairwise_insert {R : α → α → Prop} (hS : S.Pairwise R) {i : Nat} {e : α}
    (hnear : ∀ x ∈ S.take i, R x e) (hfar : ∀ x ∈ S.drop i, R e x) :
    (S.take i ++ e :: S.drop i).Pairwise R := by
  have hsplit : (S.take i ++ S.drop i).Pairwise R := by rw [List.take_append_drop]; exact hS
  refine List.pairwise_append.mpr ⟨hS.sublist (List.take_sublist i S),
    List.pairwise_cons.mpr ⟨hfar, hS.sublist (List.drop_sublist i S)⟩, fun x hx y hy => ?_⟩
  rcases List.mem_cons.mp hy with rfl | hy
  · exact hnear x hx
  · exact (List.pairwise_append.mp hsplit).2.2 x hx y hy

theorem mem_take_insert {i k : Nat} (hi : i ≤ S.length) (hk : i < k) (e : α) :
    e ∈ (S.take i ++ e :: S.drop i).take k := by
  have hlen : (S.take i).length = i := List.length_take_of_le hi
  rw [List.take_append, hlen, show k - i = (k - i - 1) + 1 by omega, List.take_succ_cons]
  simp

theorem length_insert {i : Nat} (e : α) : (S.take i ++ e :: S.drop i).length = S.length + 1 := by
  simp
  omega

end OnList

end BinarySearch
