import Mathlib.Data.Nat.Digits.Lemmas

/-!
# Minimal big-endian byte strings

A length or an integer is written on the wire as a big-endian base-256 string.  Two
functions describe such strings independently of any particular encoder:

* `value bs` is the number a big-endian byte string denotes;
* `minimal n` is the shortest string denoting `n`: it has no leading zero byte and is
  empty for zero.

The lemmas below are the ones a round trip through a length prefix needs: `minimal` is a
right inverse of `value`, it is also a left inverse on strings without a leading zero
byte, and its length is governed by the powers of 256.  Everything is transported from
`Nat.digits`, which lists the same digits little-endian.
-/

namespace BigEndian

/-- A fact about bytes holds of every byte once it holds of the 256 of them. -/
theorem forall_byte {P : UInt8 → Prop} (h : ∀ n < 256, P (UInt8.ofNat n)) (c : UInt8) : P c := by
  simpa using h c.toNat c.toNat_lt

/-- The number a big-endian byte string denotes. -/
def value (bs : List UInt8) : Nat :=
  Nat.ofDigits 256 (bs.reverse.map UInt8.toNat)

/-- The shortest big-endian byte string denoting `n`: no leading zero byte, empty for
zero. -/
def minimal (n : Nat) : List UInt8 :=
  ((Nat.digits 256 n).map UInt8.ofNat).reverse

/-- The `n` low bytes of `i`, most significant first: the bytes `byte(i >> 8k)` for
`k = n - 1, …, 0`. -/
def fixed (n i : Nat) : List UInt8 :=
  (List.range n).reverse.map fun k => UInt8.ofNat (i >>> (8 * k))

/-- A string has no leading zero byte. -/
def NoLeadingZero (bs : List UInt8) : Prop :=
  ∀ b rest, bs = b :: rest → b ≠ 0

@[simp] theorem value_nil : value [] = 0 := rfl

theorem value_append_singleton (bs : List UInt8) (b : UInt8) :
    value (bs ++ [b]) = value bs * 256 + b.toNat := by
  simp [value, Nat.ofDigits_cons]
  ring

theorem value_cons (b : UInt8) (bs : List UInt8) :
    value (b :: bs) = b.toNat * 256 ^ bs.length + value bs := by
  simp only [value, List.reverse_cons, List.map_append, List.map_reverse, List.map_cons,
    List.map_nil, Nat.ofDigits_append, List.length_reverse, List.length_map,
    Nat.ofDigits_singleton]
  ring

/-- Leading zero bytes do not change the value. -/
@[simp] theorem value_zero_cons (bs : List UInt8) : value (0 :: bs) = value bs := by
  simp [value_cons]

@[simp] theorem value_replicate_zero_append (k : Nat) (bs : List UInt8) :
    value (List.replicate k 0 ++ bs) = value bs := by
  induction k with
  | zero => rfl
  | succ k ih => rw [List.replicate_succ, List.cons_append, value_zero_cons, ih]

/-- Strings of one length are equal when they denote one number. -/
theorem eq_of_value_eq {bs cs : List UInt8} (hlen : bs.length = cs.length)
    (h : value bs = value cs) : bs = cs := by
  have hdig : ∀ ds : List UInt8, ∀ d ∈ ds.reverse.map UInt8.toNat, d < 256 := by
    intro ds d hd
    obtain ⟨b, -, rfl⟩ := List.mem_map.mp hd
    exact b.toNat_lt
  have hmap := Nat.ofDigits_inj_of_len_eq (by norm_num) (by simpa using hlen) (hdig bs) (hdig cs) h
  have hrev := List.map_injective_iff.mpr (fun _ _ e => UInt8.toNat_inj.mp e) hmap
  exact List.reverse_inj.mp hrev

@[simp] theorem length_fixed (n i : Nat) : (fixed n i).length = n := by
  simp [fixed]

theorem fixed_succ (n i : Nat) :
    fixed (n + 1) i = UInt8.ofNat (i >>> (8 * n)) :: fixed n i := by
  simp [fixed, List.range_succ]

/-- A fixed-width string denotes its number modulo the width. -/
theorem value_fixed (n i : Nat) : value (fixed n i) = i % 256 ^ n := by
  induction n with
  | zero => simp [fixed, Nat.mod_one]
  | succ n ih =>
      rw [fixed_succ, value_cons, length_fixed, ih, UInt8.toNat_ofNat', Nat.shiftRight_eq_div_pow]
      have h256 : (2 : Nat) ^ (8 * n) = 256 ^ n := by rw [pow_mul]; norm_num
      have h8 : (2 : Nat) ^ 8 = 256 := by norm_num
      rw [h256, h8, pow_succ, Nat.mod_mul, Nat.mul_comm (256 ^ n), Nat.add_comm]

theorem value_lt (bs : List UInt8) : value bs < 256 ^ bs.length := by
  have hdigits : ∀ d ∈ bs.reverse.map UInt8.toNat, d < 256 := by
    intro d hd
    obtain ⟨b, -, rfl⟩ := List.mem_map.mp hd
    exact b.toNat_lt
  simpa [value] using Nat.ofDigits_lt_base_pow_length (by norm_num) hdigits

theorem value_append (bs cs : List UInt8) :
    value (bs ++ cs) = value bs * 256 ^ cs.length + value cs := by
  induction bs with
  | nil => simp
  | cons b bs ih =>
    simp only [List.cons_append, value_cons, List.length_append, ih, Nat.pow_add]
    ring

/-- The first `8 nb + r` bits of a byte string: its first `nb` bytes, then the top `r` bits of
byte `nb`. -/
theorem value_div_two_pow {bs rest : List UInt8} {nb r : Nat} {b : UInt8}
    (hb : bs.drop nb = b :: rest) (hr : r ≤ 8) :
    value bs / 2 ^ (8 * (rest.length + 1) - r) =
      value (bs.take nb) * 2 ^ r + b.toNat / 2 ^ (8 - r) := by
  set m := rest.length
  have hsplit : value bs = value (bs.take nb) * 256 ^ (m + 1) + (b.toNat * 256 ^ m + value rest) := by
    conv_lhs => rw [← List.take_append_drop nb bs, hb]
    rw [value_append, value_cons, List.length_cons]
  have hP : (256 : Nat) ^ m = 2 ^ (8 * m) := by rw [Nat.pow_mul]
  have hQ : 2 ^ (8 * (m + 1) - r) = 2 ^ (8 * m) * 2 ^ (8 - r) := by
    rw [← Nat.pow_add]
    congr 1
    omega
  have hhead : (256 : Nat) ^ (m + 1) = 2 ^ r * (2 ^ (8 * m) * 2 ^ (8 - r)) := by
    rw [show (256 : Nat) ^ (m + 1) = 2 ^ (8 * (m + 1)) by rw [Nat.pow_mul],
      ← Nat.pow_add, ← Nat.pow_add]
    congr 1
    omega
  have hrest : value rest < 2 ^ (8 * m) := hP ▸ value_lt rest
  have hpos : 0 < 2 ^ (8 * m) := Nat.two_pow_pos _
  -- the head bytes are whole multiples of the divisor; the rest divides in two steps
  have hlow : (b.toNat * 2 ^ (8 * m) + value rest) / 2 ^ (8 * m) = b.toNat := by
    rw [Nat.add_comm, Nat.add_mul_div_right _ _ hpos, Nat.div_eq_of_lt hrest, Nat.zero_add]
  rw [hsplit, hQ, hhead, hP, show value (bs.take nb) * (2 ^ r * (2 ^ (8 * m) * 2 ^ (8 - r))) +
      (b.toNat * 2 ^ (8 * m) + value rest) =
      (b.toNat * 2 ^ (8 * m) + value rest) + value (bs.take nb) * 2 ^ r * (2 ^ (8 * m) * 2 ^ (8 - r))
      by ring, Nat.add_mul_div_right _ _ (Nat.mul_pos hpos (Nat.two_pow_pos _)),
    ← Nat.div_div_eq_div_mul, hlow, Nat.add_comm]

/-- A byte string is the fixed-width encoding of its value at its own length. -/
theorem fixed_value (bs : List UInt8) : fixed bs.length (value bs) = bs :=
  eq_of_value_eq (length_fixed _ _)
    (by rw [value_fixed, Nat.mod_eq_of_lt (value_lt bs)])

/-- Digits below 256 survive the round trip through `UInt8`. -/
private theorem map_toNat_map_ofNat (n : Nat) :
    ((Nat.digits 256 n).map UInt8.ofNat).map UInt8.toNat = Nat.digits 256 n := by
  rw [List.map_map]
  refine List.map_congr_left (fun d hd => ?_) |>.trans (List.map_id _)
  have hd' : d < 256 := Nat.digits_lt_base (by norm_num) hd
  simp [Nat.mod_eq_of_lt hd']

@[simp] theorem value_minimal (n : Nat) : value (minimal n) = n := by
  simp only [value, minimal, List.reverse_reverse, map_toNat_map_ofNat, Nat.ofDigits_digits]

@[simp] theorem length_minimal (n : Nat) :
    (minimal n).length = (Nat.digits 256 n).length := by
  simp [minimal]

theorem length_minimal_le_iff (n k : Nat) : (minimal n).length ≤ k ↔ n < 256 ^ k := by
  rw [length_minimal]
  exact Nat.digits_length_le_iff (by norm_num) n

@[simp] theorem minimal_eq_nil_iff (n : Nat) : minimal n = [] ↔ n = 0 := by
  simp [minimal, Nat.digits_eq_nil_iff_eq_zero]

theorem minimal_noLeadingZero (n : Nat) : NoLeadingZero (minimal n) := by
  intro b rest h
  have hn : n ≠ 0 := by
    rintro rfl
    simp [minimal] at h
  have hne : Nat.digits 256 n ≠ [] := Nat.digits_ne_nil_iff_ne_zero.mpr hn
  have hlast := Nat.getLast_digit_ne_zero 256 hn
  have hb : b = UInt8.ofNat ((Nat.digits 256 n).getLast hne) := by
    have := congrArg List.head? h
    simp only [minimal, List.head?_reverse, List.getLast?_map, List.head?_cons,
      List.getLast?_eq_some_getLast hne, Option.map_some, Option.some.injEq] at this
    exact this.symm
  have hlt : (Nat.digits 256 n).getLast hne < 256 :=
    Nat.digits_lt_base (by norm_num) (List.getLast_mem hne)
  rw [hb]
  intro h0
  apply hlast
  have := congrArg UInt8.toNat h0
  simpa [UInt8.toNat_ofNat, Nat.mod_eq_of_lt hlt] using this

/-- On strings without a leading zero byte `minimal` inverts `value`. -/
theorem minimal_value (bs : List UInt8) (h : NoLeadingZero bs) : minimal (value bs) = bs := by
  have hdigits : ∀ d ∈ bs.reverse.map UInt8.toNat, d < 256 := by
    intro d hd
    obtain ⟨b, -, rfl⟩ := List.mem_map.mp hd
    exact b.toNat_lt
  have hlast : ∀ hne : bs.reverse.map UInt8.toNat ≠ [],
      (bs.reverse.map UInt8.toNat).getLast hne ≠ 0 := by
    intro hne
    cases bs with
    | nil => simp at hne
    | cons b rest =>
        have hb := h b rest rfl
        simp only [List.reverse_cons, List.map_append, List.map_cons, List.map_nil,
          List.getLast_append]
        intro h0
        exact hb (UInt8.toNat_inj.mp (by simpa using h0))
  unfold minimal value
  rw [Nat.digits_ofDigits 256 (by norm_num) _ hdigits hlast]
  simp [Function.comp_def, UInt8.ofNat_toNat]

/-- A fixed-width string whose top byte is significant is the minimal one. -/
theorem fixed_eq_minimal (n i : Nat) (hlt : i < 256 ^ (n + 1)) (hge : 256 ^ n ≤ i) :
    fixed (n + 1) i = minimal i := by
  have hval : value (fixed (n + 1) i) = i := by
    rw [value_fixed, Nat.mod_eq_of_lt hlt]
  have hhead : NoLeadingZero (fixed (n + 1) i) := by
    intro b rest h
    rw [fixed_succ] at h
    obtain ⟨rfl, -⟩ := List.cons.inj h
    have h256 : (2 : Nat) ^ (8 * n) = 256 ^ n := by rw [pow_mul]; norm_num
    have hpos : 0 < 256 ^ n := by positivity
    have hdiv : 1 ≤ i / 256 ^ n := (Nat.le_div_iff_mul_le hpos).mpr (by simpa using hge)
    have hdiv' : i / 256 ^ n < 256 := by
      rw [Nat.div_lt_iff_lt_mul hpos, ← pow_succ']
      exact hlt
    intro h0
    have := congrArg UInt8.toNat h0
    rw [UInt8.toNat_ofNat', Nat.shiftRight_eq_div_pow, h256] at this
    have h8 : (2 : Nat) ^ 8 = 256 := by norm_num
    rw [h8, Nat.mod_eq_of_lt hdiv'] at this
    simp at this
    omega
  conv_rhs => rw [← hval]
  exact (minimal_value _ hhead).symm

end BigEndian
