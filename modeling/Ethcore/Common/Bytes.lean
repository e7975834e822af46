import Mathlib.Data.Int.Bitwise
import Mathlib.Data.Nat.Bitwise
import Ethcore.Lib.BigEndian
import Ethcore.Rlp.Item

/-!
# Byte and word helpers: `common/bytes.go`, `common/big.go`

`LeftPadBytes` and `RightPadBytes` pad a slice with zero bytes up to a length, and leave a
longer slice as it is.  `U256` and `S256` read a `*big.Int` as a 256-bit word, unsigned
and two's complement signed.

A `*big.Int` is an unbounded integer whose bitwise operations act on its infinite two's
complement; Mathlib's `Int.land`, `Int.lor` and `Int.lnot` are those operations.  `U256`
is an `And` with `2^256 - 1`, which is the remainder modulo `2^256` also on negative
integers (`U256_eq`).  A word left-padded to 32 bytes is its fixed-width big-endian string
(`LeftPadBytes_minimal`).
-/

/-- Clearing the low `k` bits of `n` from all ones: the bits of `2^k - 1` not in `n` are
those of `2^k - 1 - n mod 2^k`. -/
theorem Nat.ldiff_two_pow_sub_one (k n : Nat) :
    Nat.ldiff (2 ^ k - 1) n = 2 ^ k - (n % 2 ^ k + 1) := by
  apply Nat.eq_of_testBit_eq
  intro i
  rw [Nat.testBit_ldiff, Nat.testBit_two_pow_sub_one,
    Nat.testBit_two_pow_sub_succ (Nat.mod_lt _ (Nat.two_pow_pos k)), Nat.testBit_mod_two_pow]
  by_cases hi : i < k <;> simp [hi]

namespace Ethcore
namespace Common

/-! ### Padding -/

/-- `LeftPadBytes`: zero bytes in front up to length `l`. -/
def LeftPadBytes (slice : Bytes) (l : Nat) : Bytes :=
  if l < slice.length then slice else List.replicate (l - slice.length) 0 ++ slice

/-- `RightPadBytes`: zero bytes behind up to length `l`. -/
def RightPadBytes (slice : Bytes) (l : Nat) : Bytes :=
  if l < slice.length then slice else slice ++ List.replicate (l - slice.length) 0

theorem length_RightPadBytes_of_le {slice : Bytes} {l : Nat} (h : slice.length ≤ l) :
    (RightPadBytes slice l).length = l := by
  simp [RightPadBytes, Nat.not_lt.mpr h]
  omega

/-- A slice of at least `l` bytes is left as it is. -/
theorem RightPadBytes_of_le {slice : Bytes} {l : Nat} (h : l ≤ slice.length) :
    RightPadBytes slice l = slice := by
  by_cases hl : l < slice.length
  · rw [RightPadBytes, if_pos hl]
  · rw [RightPadBytes, if_neg hl, Nat.sub_eq_zero_of_le h, List.replicate_zero, List.append_nil]

/-- A word padded to `n` bytes is its `n`-byte big-endian string. -/
theorem LeftPadBytes_minimal {v n : Nat} (h : v < 256 ^ n) :
    LeftPadBytes (BigEndian.minimal v) n = BigEndian.fixed n v := by
  have hlen : (BigEndian.minimal v).length ≤ n := (BigEndian.length_minimal_le_iff v n).mpr h
  apply BigEndian.eq_of_value_eq
  · rw [LeftPadBytes, if_neg (Nat.not_lt.mpr hlen), List.length_append, List.length_replicate,
      BigEndian.length_fixed]
    omega
  · rw [LeftPadBytes, if_neg (Nat.not_lt.mpr hlen), BigEndian.value_replicate_zero_append,
      BigEndian.value_minimal, BigEndian.value_fixed, Nat.mod_eq_of_lt h]

/-! ### Words -/

/-- `tt256`: `2^256`. -/
def tt256 : Int := 2 ^ 256

/-- `tt256m1`: `2^256 - 1`, the mask of a word. -/
def tt256m1 : Int := 2 ^ 256 - 1

/-- `tt255`: `2^255`, the least word whose sign bit is set. -/
def tt255 : Int := 2 ^ 255

/-- `MaxBig`: `2^256 - 1`. -/
def MaxBig : Int := 2 ^ 256 - 1

/-- `big.Int.Uint64`: the low 64 bits of the absolute value. -/
def Uint64 (x : Int) : Nat := x.natAbs % 2 ^ 64

/-- `Uint64` does not tell apart naturals `2^64` apart. -/
theorem Uint64_add_two_pow (n : Nat) : Uint64 ((n + 2 ^ 64 : Nat) : Int) = Uint64 n := by
  rw [Uint64, Uint64, Int.natAbs_natCast, Int.natAbs_natCast, Nat.add_mod_right]

/-- `U256`: the low 256 bits, as an `And` with `2^256 - 1`. -/
def U256 (x : Int) : Int := Int.land x tt256m1

/-- `S256`: a word read as a two's complement signed number. -/
def S256 (x : Int) : Int := if x < tt255 then x else x - tt256

/-- `U256` is the remainder modulo `2^256`, negative integers included. -/
theorem U256_eq (x : Int) : U256 x = x % 2 ^ 256 := by
  have hmask : tt256m1 = ((2 ^ 256 - 1 : Nat) : Int) := by norm_num [tt256m1]
  rw [U256, hmask]
  cases x with
  | ofNat n =>
      -- both operands are naturals: the `And` of `Nat`
      show ((n &&& (2 ^ 256 - 1) : Nat) : Int) = _
      rw [Nat.and_two_pow_sub_one_eq_mod]
      push_cast
      rfl
  | negSucc n =>
      -- a negative operand: the mask's bits that are clear in `n`
      show ((Nat.ldiff (2 ^ 256 - 1) n : Nat) : Int) = _
      rw [Nat.ldiff_two_pow_sub_one]
      have hlt := Nat.mod_lt n (Nat.two_pow_pos 256)
      have hmod : ((n % 2 ^ 256 : Nat) : Int) = (n : Int) % 2 ^ 256 := by push_cast; rfl
      rw [Int.negSucc_eq]
      omega

theorem U256_nonneg (x : Int) : 0 ≤ U256 x := by
  rw [U256_eq]
  exact Int.emod_nonneg _ (by norm_num)

theorem U256_lt (x : Int) : U256 x < 2 ^ 256 := by
  rw [U256_eq]
  exact Int.emod_lt_of_pos _ (by norm_num)

/-- `U256` leaves a word alone. -/
theorem U256_of_lt {x : Int} (h0 : 0 ≤ x) (h : x < 2 ^ 256) : U256 x = x := by
  rw [U256_eq, Int.emod_eq_of_lt h0 h]

/-- `S256` of a word below the sign bit is the word. -/
theorem S256_of_lt {x : Int} (h : x < 2 ^ 255) : S256 x = x := by
  rw [S256, if_pos (by simpa [tt255] using h)]

/-- `S256` of a word with the sign bit set is the word less `2^256`. -/
theorem S256_of_le {x : Int} (h : 2 ^ 255 ≤ x) : S256 x = x - 2 ^ 256 := by
  rw [S256, if_neg (by simpa [tt255] using h), tt256]

theorem S256_lt (x : Int) (h : x < 2 ^ 256) : S256 x < 2 ^ 255 := by
  unfold S256 tt255 tt256
  split <;> omega

end Common
end Ethcore
