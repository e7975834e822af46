import Mathlib.Data.Nat.Digits.Lemmas

/-!
# Big-endian digit strings

A loop that reads digits from the most significant one, `acc := acc * b + d`, computes
`Nat.ofDigitsBE b ds`.  This module relates it to Mathlib's little-endian `Nat.ofDigits` and
`Nat.digits`: the value of an appended string, the bounds by the length, and the round trip
with the digits of a number.
-/

namespace Nat

/-- The number the big-endian digits `ds` write in base `b`. -/
def ofDigitsBE (b : Nat) (ds : List Nat) : Nat := ds.foldl (fun acc d => acc * b + d) 0

@[simp] theorem ofDigitsBE_nil (b : Nat) : ofDigitsBE b [] = 0 := rfl

/-- The loop from any start: the start shifted past the digits, plus their value. -/
theorem foldl_ofDigitsBE (b : Nat) (ds : List Nat) (acc : Nat) :
    ds.foldl (fun acc d => acc * b + d) acc = acc * b ^ ds.length + ofDigitsBE b ds := by
  induction ds generalizing acc with
  | nil => simp
  | cons d ds ih =>
    rw [ofDigitsBE, List.foldl_cons, List.foldl_cons, ih, ih (0 * b + d), List.length_cons,
      pow_succ]
    ring

theorem ofDigitsBE_append (b : Nat) (xs ys : List Nat) :
    ofDigitsBE b (xs ++ ys) = ofDigitsBE b xs * b ^ ys.length + ofDigitsBE b ys := by
  rw [ofDigitsBE, List.foldl_append, foldl_ofDigitsBE]
  rfl

theorem ofDigitsBE_cons (b d : Nat) (ds : List Nat) :
    ofDigitsBE b (d :: ds) = d * b ^ ds.length + ofDigitsBE b ds := by
  rw [← List.singleton_append, ofDigitsBE_append]
  simp [ofDigitsBE]

/-- The big-endian value is the little-endian value of the reversed digits. -/
theorem ofDigitsBE_eq_ofDigits_reverse (b : Nat) (ds : List Nat) :
    ofDigitsBE b ds = ofDigits b ds.reverse := by
  induction ds using List.reverseRecOn with
  | nil => rfl
  | append_singleton ds d ih =>
    rw [ofDigitsBE_append, List.reverse_append, ih]
    simp [ofDigitsBE, ofDigits_cons]
    ring

/-- Digits below the base write a number below the base to the length. -/
theorem ofDigitsBE_lt {b : Nat} {ds : List Nat} (hb : 1 < b) (h : ∀ d ∈ ds, d < b) :
    ofDigitsBE b ds < b ^ ds.length := by
  rw [ofDigitsBE_eq_ofDigits_reverse, ← List.length_reverse]
  exact ofDigits_lt_base_pow_length hb (fun d hd => h d (List.mem_reverse.mp hd))

/-- A non-zero leading digit makes the number at least the base to the other digits' count. -/
theorem pow_le_ofDigitsBE_cons {b d : Nat} (ds : List Nat) (hd : 0 < d) :
    b ^ ds.length ≤ ofDigitsBE b (d :: ds) := by
  rw [ofDigitsBE_cons]
  calc b ^ ds.length ≤ d * b ^ ds.length := Nat.le_mul_of_pos_left _ hd
    _ ≤ d * b ^ ds.length + ofDigitsBE b ds := Nat.le_add_right _ _

/-- The digits of a number, most significant first, write the number. -/
@[simp] theorem ofDigitsBE_digits (b n : Nat) : ofDigitsBE b (digits b n).reverse = n := by
  rw [ofDigitsBE_eq_ofDigits_reverse, List.reverse_reverse, ofDigits_digits]

/-- Digits below the base with a non-zero leading one are the digits of what they write. -/
theorem digits_ofDigitsBE {b : Nat} {ds : List Nat} (hb : 1 < b) (h : ∀ d ∈ ds, d < b)
    (hlead : ∀ d, ds.head? = some d → d ≠ 0) : (digits b (ofDigitsBE b ds)).reverse = ds := by
  rw [ofDigitsBE_eq_ofDigits_reverse, digits_ofDigits b hb _
    (fun d hd => h d (List.mem_reverse.mp hd)), List.reverse_reverse]
  intro hne
  rw [List.getLast_reverse]
  exact hlead _ (List.head?_eq_some_head _)

end Nat
