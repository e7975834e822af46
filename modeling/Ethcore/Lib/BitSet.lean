import Mathlib

/-!
# Numbers as sets of bits

A natural number stands for the set of the positions of its one bits, `Nat.bitSet`.  Or is
union, `1 <<< k` is the singleton `{k}`, and `a &&& b = b` says that the bits of `b` are among
those of `a`.  A left fold of `|||` over a list is the union of the sets of its items, and a
number whose bits all lie below `w` is below `2 ^ w`.
-/

namespace Nat

/-- The positions of the one bits of `n`. -/
def bitSet (n : Nat) : Set Nat := {i | n.testBit i = true}

@[simp] theorem mem_bitSet {n i : Nat} : i ∈ n.bitSet ↔ n.testBit i = true := Iff.rfl

@[simp] theorem bitSet_zero : bitSet 0 = ∅ := by
  ext i
  simp

@[simp] theorem bitSet_or (a b : Nat) : (a ||| b).bitSet = a.bitSet ∪ b.bitSet := by
  ext i
  simp

@[simp] theorem bitSet_one_shiftLeft (k : Nat) : (1 <<< k).bitSet = {k} := by
  ext i
  simp [Nat.one_shiftLeft, Nat.testBit_two_pow, eq_comm]

/-- The bits of `b` are among those of `a` exactly when masking `b` with `a` keeps it. -/
theorem land_eq_right_iff {a b : Nat} : a &&& b = b ↔ b.bitSet ⊆ a.bitSet := by
  constructor
  · intro h i hi
    rw [mem_bitSet, ← h, Nat.testBit_and] at hi
    exact (Bool.and_eq_true_iff.mp hi).1
  · intro h
    apply Nat.eq_of_testBit_eq
    intro i
    rw [Nat.testBit_and]
    cases hb : b.testBit i
    · simp
    · have ha : a.testBit i = true := h (Iff.mpr mem_bitSet hb)
      simp [ha]

/-- A left fold of `|||` sets the bits of its start and of every item, and no others. -/
theorem bitSet_foldl_or {α : Type} (f : α → Nat) (l : List α) (init : Nat) :
    (l.foldl (fun acc x => acc ||| f x) init).bitSet = init.bitSet ∪ ⋃ x ∈ l, (f x).bitSet := by
  induction l generalizing init with
  | nil => simp
  | cons x l ih =>
    rw [List.foldl_cons, ih, bitSet_or]
    ext i
    simp only [Set.mem_union, Set.mem_iUnion, List.mem_cons, exists_prop]
    constructor
    · rintro ((h | h) | ⟨y, hy, h⟩)
      · exact .inl h
      · exact .inr ⟨x, .inl rfl, h⟩
      · exact .inr ⟨y, .inr hy, h⟩
    · rintro (h | ⟨y, rfl | hy, h⟩)
      · exact .inl (.inl h)
      · exact .inl (.inr h)
      · exact .inr ⟨y, hy, h⟩

/-- A left fold of `|||` from any start is the start or-ed with the fold from `0`. -/
theorem foldl_or_eq_or_foldl {α : Type} (f : α → Nat) (l : List α) (init : Nat) :
    l.foldl (fun acc x => acc ||| f x) init = init ||| l.foldl (fun acc x => acc ||| f x) 0 := by
  induction l generalizing init with
  | nil => simp
  | cons x l ih =>
    rw [List.foldl_cons, List.foldl_cons, ih, ih (0 ||| f x), Nat.zero_or, Nat.or_assoc]

/-- A number whose bits all lie below `w` is below `2 ^ w`. -/
theorem lt_two_pow_of_bitSet {n w : Nat} (h : ∀ i ∈ n.bitSet, i < w) : n < 2 ^ w := by
  apply Nat.lt_pow_two_of_testBit
  intro i hi
  by_contra hbit
  have := h i (Iff.mpr mem_bitSet (by simpa using hbit))
  omega

end Nat
