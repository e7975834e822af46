import Ethcore.Vm.Instructions

/-!
# The arithmetic instructions compute the Yellow Paper's functions

`YellowPaper` states the functions of Appendix H on words, numbers in `[0, 2^256)`, with
the signed instructions reading a word as two's complement (`signed`) and writing a
signed result back as a word (`word`).  `SIGNEXTEND` and `NOT` are bitwise there; they are
stated here as numbers, and `testBit_SIGNEXTEND` and `testBit_NOT` give their bits back.

The lemmas after them take each instruction of `instructions.go` on a stack whose top
words are `x`, `y` (and `z`), and show that it leaves the rest of the stack alone and
pushes the Yellow Paper's value: the unbounded `big.Int` arithmetic followed by `U256`
is arithmetic modulo `2^256`, the quotient and remainder of absolute values with the sign
put back are truncated signed division and remainder (`opSdiv_cons`, `opSmod_cons`),
`ADDMOD` and `MULMOD` reduce the exact sum and product, and `opSignExtend`'s mask
arithmetic on the two's complement is the sign extension, the value staying on the stack
from byte 31 on (`opSignExtend_cons_of_le`).
-/

namespace Ethcore
namespace Vm

open Common

namespace YellowPaper

/-- A word read as a two's complement signed number. -/
def signed (x : Nat) : Int := if x < 2 ^ 255 then x else x - 2 ^ 256

/-- The word of a signed number. -/
def word (v : Int) : Nat := (v % 2 ^ 256).toNat

def ADD (x y : Nat) : Nat := (x + y) % 2 ^ 256

def SUB (x y : Nat) : Nat := (x + 2 ^ 256 - y) % 2 ^ 256

def MUL (x y : Nat) : Nat := x * y % 2 ^ 256

def DIV (x y : Nat) : Nat := if y = 0 then 0 else x / y

/-- `SDIV`: zero for a zero divisor, `-2^255` for `-2^255 / -1`, and otherwise
`sgn(x ÷ y) ⌊|x ÷ y|⌋` on the signed readings. -/
def SDIV (x y : Nat) : Nat :=
  if y = 0 then 0
  else if signed x = -2 ^ 255 ∧ signed y = -1 then word (-2 ^ 255)
  else word ((signed x).sign * (signed y).sign * ((signed x).natAbs / (signed y).natAbs : Nat))

def MOD (x y : Nat) : Nat := if y = 0 then 0 else x % y

/-- `SMOD`: zero for a zero divisor, otherwise `sgn(x) (|x| mod |y|)` on the signed
readings. -/
def SMOD (x y : Nat) : Nat :=
  if y = 0 then 0
  else word ((signed x).sign * ((signed x).natAbs % (signed y).natAbs : Nat))

def ADDMOD (x y z : Nat) : Nat := if z = 0 then 0 else (x + y) % z

def MULMOD (x y z : Nat) : Nat := if z = 0 then 0 else x * y % z

def EXP (x y : Nat) : Nat := x ^ y % 2 ^ 256

/-- `SIGNEXTEND b x`: for `b < 32` every bit from `t = 8b + 7` up is bit `t` of `x` (the
Yellow Paper counts bits from the top, `256 - 8(b + 1)`); a larger `b` leaves `x`. -/
def SIGNEXTEND (b x : Nat) : Nat :=
  if b < 32 then
    let t := 8 * b + 7
    if x.testBit t then x % 2 ^ t + (2 ^ 256 - 2 ^ t) else x % 2 ^ t
  else x

/-- `NOT`: every one of the 256 bits flipped. -/
def NOT (x : Nat) : Nat := 2 ^ 256 - 1 - x

/-- `BYTE i x`: byte `i` of `x`, counted from the most significant, and `0` from 32 on. -/
def BYTE (i x : Nat) : Nat := if i < 32 then (x >>> (8 * (31 - i))) % 256 else 0

def LT (x y : Nat) : Nat := if x < y then 1 else 0

def GT (x y : Nat) : Nat := if x > y then 1 else 0

def SLT (x y : Nat) : Nat := if signed x < signed y then 1 else 0

def SGT (x y : Nat) : Nat := if signed x > signed y then 1 else 0

def EQ (x y : Nat) : Nat := if x = y then 1 else 0

def ISZERO (x : Nat) : Nat := if x = 0 then 1 else 0

/-! #### Words, and the bits of the bitwise instructions -/

theorem word_lt (v : Int) : word v < 2 ^ 256 := by
  have h := Int.emod_lt_of_pos v (show (0 : Int) < 2 ^ 256 by norm_num)
  have h0 := Int.emod_nonneg v (show (2 : Int) ^ 256 ≠ 0 by norm_num)
  unfold word
  omega

@[simp] theorem natCast_word (v : Int) : (word v : Int) = v % 2 ^ 256 :=
  Int.toNat_of_nonneg (Int.emod_nonneg v (by norm_num))

theorem testBit_NOT {x : Nat} (hx : x < 2 ^ 256) {i : Nat} (hi : i < 256) :
    (NOT x).testBit i = !x.testBit i := by
  rw [NOT, show 2 ^ 256 - 1 - x = 2 ^ 256 - (x + 1) by omega, Nat.testBit_two_pow_sub_succ hx]
  simp [hi]

/-- The bits of `SIGNEXTEND`: the Yellow Paper's definition. -/
theorem testBit_SIGNEXTEND {b x : Nat} (hb : b < 32) {i : Nat} (hi : i < 256) :
    (SIGNEXTEND b x).testBit i = if 8 * b + 7 ≤ i then x.testBit (8 * b + 7) else x.testBit i := by
  have ht : 8 * b + 7 < 256 := by omega
  have hlow : ∀ j, (x % 2 ^ (8 * b + 7)).testBit j = (decide (j < 8 * b + 7) && x.testBit j) :=
    fun j => Nat.testBit_mod_two_pow x (8 * b + 7) j
  rw [SIGNEXTEND, if_pos hb]
  dsimp only
  cases hx : x.testBit (8 * b + 7) with
  | false =>
      rw [if_neg (by simp), hlow]
      by_cases hit : 8 * b + 7 ≤ i
      · simp [hit, Nat.not_lt.mpr hit]
      · simp [hit, Nat.lt_of_not_le hit]
  | true =>
      -- the high bits come from `2^256 - 2^t`, which has no bit below `t`
      rw [if_pos rfl]
      have hlt : x % 2 ^ (8 * b + 7) < 2 ^ (8 * b + 7) := Nat.mod_lt _ (Nat.two_pow_pos _)
      have hsplit : x % 2 ^ (8 * b + 7) + (2 ^ 256 - 2 ^ (8 * b + 7)) =
          2 ^ (8 * b + 7) * (2 ^ (256 - (8 * b + 7)) - 1) + x % 2 ^ (8 * b + 7) := by
        rw [Nat.mul_sub_one, ← Nat.pow_add, Nat.add_sub_cancel' ht.le]
        omega
      rw [hsplit, Nat.testBit_two_pow_mul_add _ hlt, hlow]
      by_cases hit : 8 * b + 7 ≤ i
      · rw [if_neg (Nat.not_lt.mpr hit), if_pos hit, Nat.testBit_two_pow_sub_one]
        simp
        omega
      · rw [if_pos (Nat.lt_of_not_le hit), if_neg hit]
        simp [Nat.lt_of_not_le hit]

/-- From byte 31 on `SIGNEXTEND` leaves a word alone: at byte 31 it copies the sign bit onto
itself. -/
theorem SIGNEXTEND_of_le {b x : Nat} (hx : x < 2 ^ 256) (hb : 31 ≤ b) : SIGNEXTEND b x = x := by
  by_cases h32 : b < 32
  · obtain rfl : b = 31 := by omega
    rw [SIGNEXTEND, if_pos h32]
    show (if x.testBit 255 then x % 2 ^ 255 + (2 ^ 256 - 2 ^ 255) else x % 2 ^ 255) = x
    split_ifs with hbit
    · have hge : 2 ^ 255 ≤ x := Nat.ge_two_pow_of_testBit hbit
      rw [Nat.mod_eq_sub_mod hge, Nat.mod_eq_of_lt (by omega)]
      omega
    · apply Nat.mod_eq_of_lt
      by_contra hge
      exact hbit (Nat.testBit_of_two_pow_le_and_two_pow_add_one_gt (Nat.le_of_not_lt hge) hx)
  · rw [SIGNEXTEND, if_neg h32]

end YellowPaper

open YellowPaper

/-! ### Reading words back -/

section Words

variable {x y : Nat}

theorem S256_natCast (hx : x < 2 ^ 256) : S256 (x : Int) = signed x := by
  unfold signed
  split_ifs with h
  · exact S256_of_lt (by exact_mod_cast h)
  · exact S256_of_le (by push_cast; omega)

theorem signed_lt (hx : x < 2 ^ 256) : signed x < 2 ^ 255 := by
  unfold signed
  split_ifs <;> omega

theorem signed_eq_zero_iff (hx : x < 2 ^ 256) : signed x = 0 ↔ x = 0 := by
  unfold signed
  split_ifs <;> omega

/-- A value reduced by `U256` is the word of the value. -/
theorem U256_eq_word (v : Int) : U256 v = (word v : Int) := by
  rw [U256_eq, natCast_word]

theorem natCast_sign_ne_zero_iff : (x : Int).sign ≠ 0 ↔ x ≠ 0 := by
  simp [Int.sign_eq_zero_iff_zero]

end Words

/-! ### Each instruction pushes its Yellow Paper value -/

section Instructions

variable {x y z : Nat} (rest : List Int)

theorem opAdd_cons : opAdd ⟨x :: y :: rest⟩ = some ⟨(ADD x y : Int) :: rest⟩ := by
  simp only [opAdd, binaryOp_cons, U256_eq, ADD]
  push_cast
  rfl

theorem opSub_cons (hy : y < 2 ^ 256) : opSub ⟨x :: y :: rest⟩ = some ⟨(SUB x y : Int) :: rest⟩ := by
  simp only [opSub, binaryOp_cons, U256_eq, SUB, Option.some.injEq, stack.mk.injEq,
    List.cons.injEq, and_true]
  push_cast [Nat.cast_sub (show y ≤ x + 2 ^ 256 by omega)]
  omega

theorem opMul_cons : opMul ⟨x :: y :: rest⟩ = some ⟨(MUL x y : Int) :: rest⟩ := by
  simp only [opMul, binaryOp_cons, U256_eq, MUL]
  push_cast
  rfl

theorem opDiv_cons (hx : x < 2 ^ 256) : opDiv ⟨x :: y :: rest⟩ = some ⟨(DIV x y : Int) :: rest⟩ := by
  simp only [opDiv, binaryOp_cons, DIV, Option.some.injEq, stack.mk.injEq, List.cons.injEq,
    and_true, natCast_sign_ne_zero_iff]
  by_cases hy : y = 0
  · simp [hy]
  · have hq : ((x / y : Nat) : Int) < 2 ^ 256 := by
      have := Nat.div_le_self x y
      omega
    rw [if_pos hy, if_neg hy, ← Int.natCast_div, U256_of_lt (by positivity) hq]

theorem opMod_cons (hx : x < 2 ^ 256) : opMod ⟨x :: y :: rest⟩ = some ⟨(MOD x y : Int) :: rest⟩ := by
  simp only [opMod, binaryOp_cons, MOD, Option.some.injEq, stack.mk.injEq, List.cons.injEq,
    and_true, Int.sign_eq_zero_iff_zero, Nat.cast_eq_zero]
  by_cases hy : y = 0
  · simp [hy]
  · have hr : ((x % y : Nat) : Int) < 2 ^ 256 := by
      have := Nat.mod_le x y
      omega
    rw [if_neg hy, if_neg hy, ← Int.natCast_mod, U256_of_lt (by positivity) hr]

/-- The sign the source computes for `SDIV` (`-1` when the product is negative) is the
product of the signs, whenever the quotient can be nonzero. -/
theorem sdiv_sign (a b : Int) (hb : b ≠ 0) :
    (a.natAbs : Int) / (b.natAbs : Int) * (if (a * b).sign < 0 then -1 else 1) =
      a.sign * b.sign * ((a.natAbs / b.natAbs : Nat) : Int) := by
  rw [← Int.natCast_div]
  rcases Int.lt_trichotomy a 0 with ha | rfl | ha <;>
    rcases Int.lt_trichotomy b 0 with hb' | rfl | hb'
  all_goals first
    | exact absurd rfl hb
    | simp [Int.sign_mul, Int.sign_eq_neg_one_of_neg, Int.sign_eq_one_of_pos, *]

theorem opSdiv_cons (hx : x < 2 ^ 256) (hy : y < 2 ^ 256) :
    opSdiv ⟨x :: y :: rest⟩ = some ⟨(SDIV x y : Int) :: rest⟩ := by
  simp only [opSdiv, binaryOp_cons, S256_natCast hx, S256_natCast hy, Option.some.injEq,
    stack.mk.injEq, List.cons.injEq, and_true, Int.sign_eq_zero_iff_zero]
  unfold SDIV
  by_cases hy0 : y = 0
  · simp [hy0, signed]
  · have hsy : signed y ≠ 0 := fun h => hy0 ((signed_eq_zero_iff hy).mp h)
    rw [if_neg hsy, if_neg hy0, U256_eq_word, sdiv_sign _ _ hsy]
    -- `-2^255 / -1` falls under the general formula: its quotient `2^255` is the same word
    split_ifs with hmin
    · obtain ⟨hxm, hym⟩ := hmin
      rw [hxm, hym]
      norm_num [word]
    · rfl

theorem opSmod_cons (hx : x < 2 ^ 256) (hy : y < 2 ^ 256) :
    opSmod ⟨x :: y :: rest⟩ = some ⟨(SMOD x y : Int) :: rest⟩ := by
  simp only [opSmod, binaryOp_cons, S256_natCast hx, S256_natCast hy, Option.some.injEq,
    stack.mk.injEq, List.cons.injEq, and_true, Int.sign_eq_zero_iff_zero]
  unfold SMOD
  by_cases hy0 : y = 0
  · simp [hy0, signed]
  · have hsy : signed y ≠ 0 := fun h => hy0 ((signed_eq_zero_iff hy).mp h)
    rw [if_neg hsy, if_neg hy0, U256_eq_word]
    -- the source's factor is the sign of the dividend, or the remainder is zero
    congr 2
    rcases Int.lt_trichotomy (signed x) 0 with hs | hs | hs
    · simp [Int.sign_eq_neg_one_of_neg hs]
    · simp [hs]
    · simp [Int.sign_eq_one_of_pos hs]

theorem opExp_cons : opExp ⟨x :: y :: rest⟩ = some ⟨(EXP x y : Int) :: rest⟩ := by
  simp only [opExp, binaryOp_cons, bigExp, Pow256, Int.toNat_natCast, Option.some.injEq,
    stack.mk.injEq, List.cons.injEq, and_true, EXP]
  have hlt : (((x ^ y % 2 ^ 256 : Nat)) : Int) < 2 ^ 256 := by
    have := Nat.mod_lt (x ^ y) (show 0 < 2 ^ 256 by norm_num)
    omega
  push_cast at hlt ⊢
  exact U256_of_lt (Int.emod_nonneg _ (by norm_num)) hlt

theorem opSignExtend_cons_of_lt (hx : x < 31) :
    opSignExtend ⟨x :: y :: rest⟩ = some ⟨(SIGNEXTEND x y : Int) :: rest⟩ := by
  have hxi : (x : Int) < 31 := by exact_mod_cast hx
  have ht : (x : Int).toNat * 8 + 7 = 8 * x + 7 := by rw [Int.toNat_natCast]; ring
  rw [opSignExtend_eq, if_pos hxi, ht, SIGNEXTEND, if_pos (show x < 32 by omega)]
  dsimp only
  -- the mask `2^t - 1` as a natural number
  have hmask : ((2 : Int) ^ (8 * x + 7) - 1) = ((2 ^ (8 * x + 7) - 1 : Nat) : Int) := by
    push_cast [Nat.one_le_two_pow]
    rfl
  have hbit : BitTest (y : Int) (8 * x + 7) = y.testBit (8 * x + 7) := rfl
  rw [hmask, hbit]
  have hp0 : 0 < 2 ^ (8 * x + 7) := Nat.two_pow_pos _
  have hp256 : 2 ^ (8 * x + 7) ≤ 2 ^ 256 := Nat.pow_le_pow_right (by norm_num) (by omega)
  cases y.testBit (8 * x + 7) with
  | true =>
      -- `num | ^mask` is the negative number `num mod 2^t - 2^t`
      have hor : Int.lor (y : Int) (Int.lnot ((2 ^ (8 * x + 7) - 1 : Nat) : Int)) =
          Int.negSucc (Nat.ldiff (2 ^ (8 * x + 7) - 1) y) := rfl
      rw [if_pos rfl, if_pos rfl, hor, U256_eq, Nat.ldiff_two_pow_sub_one, Int.negSucc_eq]
      simp only [Option.some.injEq, stack.mk.injEq, List.cons.injEq, and_true]
      generalize 2 ^ (8 * x + 7) = p at hp0 hp256 ⊢
      have hmod := Nat.mod_lt y hp0
      push_cast [Nat.cast_sub hp256, Nat.cast_sub (show y % p + 1 ≤ p by omega)]
      omega
  | false =>
      have hand : Int.land (y : Int) ((2 ^ (8 * x + 7) - 1 : Nat) : Int) =
          ((y &&& (2 ^ (8 * x + 7) - 1) : Nat) : Int) := rfl
      rw [if_neg (by simp), if_neg (by simp), hand, Nat.and_two_pow_sub_one_eq_mod]
      have hmod := Nat.mod_lt y hp0
      simp only [Option.some.injEq, stack.mk.injEq, List.cons.injEq, and_true]
      exact U256_of_lt (by positivity) (by omega)

theorem opSignExtend_cons_of_le (hy : y < 2 ^ 256) (hx : 31 ≤ x) :
    opSignExtend ⟨x :: y :: rest⟩ = some ⟨(SIGNEXTEND x y : Int) :: rest⟩ := by
  have hxi : ¬ (x : Int) < 31 := by omega
  rw [opSignExtend_eq, if_neg hxi, SIGNEXTEND_of_le hy hx]

theorem opNot_cons (hx : x < 2 ^ 256) : opNot ⟨x :: rest⟩ = some ⟨(NOT x : Int) :: rest⟩ := by
  have hnot : Int.lnot (x : Int) = Int.negSucc x := rfl
  simp only [opNot, unaryOp_cons, hnot, U256_eq, Int.negSucc_eq, NOT, Option.some.injEq,
    stack.mk.injEq, List.cons.injEq, and_true]
  push_cast [Nat.cast_sub (show 1 ≤ 2 ^ 256 by norm_num), Nat.cast_sub (show x ≤ 2 ^ 256 - 1 by omega)]
  omega

theorem opLt_cons : opLt ⟨x :: y :: rest⟩ = some ⟨(YellowPaper.LT x y : Int) :: rest⟩ := by
  simp only [opLt, binaryOp_cons, YellowPaper.LT, Nat.cast_lt]
  split_ifs <;> rfl

theorem opGt_cons : opGt ⟨x :: y :: rest⟩ = some ⟨(GT x y : Int) :: rest⟩ := by
  simp only [opGt, binaryOp_cons, GT, gt_iff_lt, Nat.cast_lt]
  split_ifs <;> rfl

theorem opSlt_cons (hx : x < 2 ^ 256) (hy : y < 2 ^ 256) :
    opSlt ⟨x :: y :: rest⟩ = some ⟨(SLT x y : Int) :: rest⟩ := by
  -- the second `S256` finds a number below the sign bit and keeps it
  simp only [opSlt, binaryOp_cons, S256_natCast hx, S256_natCast hy, S256_of_lt (signed_lt hy),
    SLT]
  split_ifs <;> rfl

theorem opSgt_cons (hx : x < 2 ^ 256) (hy : y < 2 ^ 256) :
    opSgt ⟨x :: y :: rest⟩ = some ⟨(SGT x y : Int) :: rest⟩ := by
  simp only [opSgt, binaryOp_cons, S256_natCast hx, S256_natCast hy, SGT]
  split_ifs <;> rfl

theorem opEq_cons : opEq ⟨x :: y :: rest⟩ = some ⟨(EQ x y : Int) :: rest⟩ := by
  simp only [opEq, binaryOp_cons, EQ, Nat.cast_inj]
  split_ifs <;> rfl

theorem opIszero_cons : opIszero ⟨x :: rest⟩ = some ⟨(ISZERO x : Int) :: rest⟩ := by
  simp only [opIszero, unaryOp_cons, ISZERO, natCast_sign_ne_zero_iff]
  by_cases hx : x = 0 <;> simp [hx]

theorem opByte_cons (hy : y < 2 ^ 256) : opByte ⟨x :: y :: rest⟩ = some ⟨(BYTE x y : Int) :: rest⟩ := by
  rw [opByte_eq, Int.toNat_natCast, Int.toNat_natCast, BYTE]
  by_cases hx : x < 32
  · -- the padded string is the fixed-width one, whose byte `x` is `y >> 8 (31 - x)`
    rw [if_pos (by exact_mod_cast hx), if_pos hx, LeftPadBytes_minimal (by simpa using hy)]
    simp [BigEndian.fixed, hx]
  · rw [if_neg (by exact_mod_cast hx), if_neg hx]
    rfl

theorem opAddmod_cons (hz : z < 2 ^ 256) :
    opAddmod ⟨x :: y :: z :: rest⟩ = some ⟨(ADDMOD x y z : Int) :: rest⟩ := by
  simp only [opAddmod, ternaryOp_cons, ADDMOD, Option.some.injEq, stack.mk.injEq,
    List.cons.injEq, and_true, Int.sign_pos_iff, Nat.cast_pos]
  by_cases hz0 : z = 0
  · simp [hz0]
  · have hr := Nat.mod_lt (x + y) (Nat.pos_of_ne_zero hz0)
    rw [if_pos (Nat.pos_of_ne_zero hz0), if_neg hz0]
    push_cast
    exact U256_of_lt (Int.emod_nonneg _ (by exact_mod_cast hz0)) (by exact_mod_cast hr.trans hz)

theorem opMulmod_cons (hz : z < 2 ^ 256) :
    opMulmod ⟨x :: y :: z :: rest⟩ = some ⟨(MULMOD x y z : Int) :: rest⟩ := by
  simp only [opMulmod, ternaryOp_cons, MULMOD, Option.some.injEq, stack.mk.injEq,
    List.cons.injEq, and_true, Int.sign_pos_iff, Nat.cast_pos]
  by_cases hz0 : z = 0
  · simp [hz0]
  · have hr := Nat.mod_lt (x * y) (Nat.pos_of_ne_zero hz0)
    rw [if_pos (Nat.pos_of_ne_zero hz0), if_neg hz0]
    push_cast
    exact U256_of_lt (Int.emod_nonneg _ (by exact_mod_cast hz0)) (by exact_mod_cast hr.trans hz)

end Instructions

/-! ### The values are words -/

section Bounds

variable {x y z : Nat}

theorem SIGNEXTEND_lt (hx : x < 2 ^ 256) (b : Nat) : SIGNEXTEND b x < 2 ^ 256 := by
  rw [SIGNEXTEND]
  split_ifs with hb
  · dsimp only
    have hp := Nat.mod_lt x (Nat.two_pow_pos (8 * b + 7))
    have hle : 2 ^ (8 * b + 7) ≤ 2 ^ 256 := Nat.pow_le_pow_right (by norm_num) (by omega)
    split_ifs <;> omega
  · exact hx

theorem BYTE_lt (i x : Nat) : BYTE i x < 2 ^ 256 := by
  unfold BYTE
  split_ifs
  · exact (Nat.mod_lt _ (by norm_num)).trans (by norm_num)
  · norm_num

/-- Every Yellow Paper value of words is a word. -/
theorem yellowPaper_lt (hx : x < 2 ^ 256) (hy : y < 2 ^ 256) (hz : z < 2 ^ 256) :
    ADD x y < 2 ^ 256 ∧ SUB x y < 2 ^ 256 ∧ MUL x y < 2 ^ 256 ∧ DIV x y < 2 ^ 256 ∧
      SDIV x y < 2 ^ 256 ∧ MOD x y < 2 ^ 256 ∧ SMOD x y < 2 ^ 256 ∧
      ADDMOD x y z < 2 ^ 256 ∧ MULMOD x y z < 2 ^ 256 ∧ EXP x y < 2 ^ 256 ∧
      SIGNEXTEND x y < 2 ^ 256 ∧ NOT x < 2 ^ 256 ∧ BYTE x y < 2 ^ 256 ∧
      YellowPaper.LT x y < 2 ^ 256 ∧ GT x y < 2 ^ 256 ∧ SLT x y < 2 ^ 256 ∧
      SGT x y < 2 ^ 256 ∧ EQ x y < 2 ^ 256 ∧ ISZERO x < 2 ^ 256 := by
  have hmod : ∀ n, n % 2 ^ 256 < 2 ^ 256 := fun n => Nat.mod_lt n (by norm_num)
  have hbit : ∀ p : Prop, [Decidable p] → (if p then 1 else 0 : Nat) < 2 ^ 256 := by
    intro p _
    split_ifs <;> norm_num
  refine ⟨hmod _, hmod _, hmod _, ?_, ?_, ?_, ?_, ?_, ?_, hmod _, SIGNEXTEND_lt hy x, ?_,
    BYTE_lt x y, hbit _, hbit _, hbit _, hbit _, hbit _, hbit _⟩
  · unfold DIV
    split_ifs
    · norm_num
    · exact (Nat.div_le_self x y).trans_lt hx
  · unfold SDIV
    split_ifs
    · norm_num
    · exact word_lt _
    · exact word_lt _
  · unfold MOD
    split_ifs
    · norm_num
    · exact (Nat.mod_le x y).trans_lt hx
  · unfold SMOD
    split_ifs
    · norm_num
    · exact word_lt _
  · unfold ADDMOD
    split_ifs with h
    · norm_num
    · exact (Nat.mod_lt _ (Nat.pos_of_ne_zero h)).trans hz
  · unfold MULMOD
    split_ifs with h
    · norm_num
    · exact (Nat.mod_lt _ (Nat.pos_of_ne_zero h)).trans hz
  · unfold NOT
    omega

end Bounds

/-- **The arithmetic instructions follow the Yellow Paper.**  On a stack whose top words are
`x`, `y` and `z`, each instruction replaces its operands by the Yellow Paper's value and
leaves the rest of the stack alone; every such value is a word. -/
theorem instructions_yellowPaper (x y z : Nat) (hx : x < 2 ^ 256) (hy : y < 2 ^ 256)
    (hz : z < 2 ^ 256) (rest : List Int) :
    (opAdd ⟨x :: y :: rest⟩ = some ⟨(ADD x y : Int) :: rest⟩ ∧
      opSub ⟨x :: y :: rest⟩ = some ⟨(SUB x y : Int) :: rest⟩ ∧
      opMul ⟨x :: y :: rest⟩ = some ⟨(MUL x y : Int) :: rest⟩ ∧
      opDiv ⟨x :: y :: rest⟩ = some ⟨(DIV x y : Int) :: rest⟩ ∧
      opSdiv ⟨x :: y :: rest⟩ = some ⟨(SDIV x y : Int) :: rest⟩ ∧
      opMod ⟨x :: y :: rest⟩ = some ⟨(MOD x y : Int) :: rest⟩ ∧
      opSmod ⟨x :: y :: rest⟩ = some ⟨(SMOD x y : Int) :: rest⟩ ∧
      opAddmod ⟨x :: y :: z :: rest⟩ = some ⟨(ADDMOD x y z : Int) :: rest⟩ ∧
      opMulmod ⟨x :: y :: z :: rest⟩ = some ⟨(MULMOD x y z : Int) :: rest⟩ ∧
      opExp ⟨x :: y :: rest⟩ = some ⟨(EXP x y : Int) :: rest⟩ ∧
      opSignExtend ⟨x :: y :: rest⟩ = some ⟨(SIGNEXTEND x y : Int) :: rest⟩ ∧
      opNot ⟨x :: rest⟩ = some ⟨(NOT x : Int) :: rest⟩ ∧
      opByte ⟨x :: y :: rest⟩ = some ⟨(BYTE x y : Int) :: rest⟩ ∧
      opLt ⟨x :: y :: rest⟩ = some ⟨(YellowPaper.LT x y : Int) :: rest⟩ ∧
      opGt ⟨x :: y :: rest⟩ = some ⟨(GT x y : Int) :: rest⟩ ∧
      opSlt ⟨x :: y :: rest⟩ = some ⟨(SLT x y : Int) :: rest⟩ ∧
      opSgt ⟨x :: y :: rest⟩ = some ⟨(SGT x y : Int) :: rest⟩ ∧
      opEq ⟨x :: y :: rest⟩ = some ⟨(EQ x y : Int) :: rest⟩ ∧
      opIszero ⟨x :: rest⟩ = some ⟨(ISZERO x : Int) :: rest⟩) ∧
    (ADD x y < 2 ^ 256 ∧ SUB x y < 2 ^ 256 ∧ MUL x y < 2 ^ 256 ∧ DIV x y < 2 ^ 256 ∧
      SDIV x y < 2 ^ 256 ∧ MOD x y < 2 ^ 256 ∧ SMOD x y < 2 ^ 256 ∧
      ADDMOD x y z < 2 ^ 256 ∧ MULMOD x y z < 2 ^ 256 ∧ EXP x y < 2 ^ 256 ∧
      SIGNEXTEND x y < 2 ^ 256 ∧ NOT x < 2 ^ 256 ∧ BYTE x y < 2 ^ 256 ∧
      YellowPaper.LT x y < 2 ^ 256 ∧ GT x y < 2 ^ 256 ∧ SLT x y < 2 ^ 256 ∧
      SGT x y < 2 ^ 256 ∧ EQ x y < 2 ^ 256 ∧ ISZERO x < 2 ^ 256) := by
  -- `SIGNEXTEND` pops its value only below byte 31
  have hse : opSignExtend ⟨x :: y :: rest⟩ = some ⟨(SIGNEXTEND x y : Int) :: rest⟩ := by
    by_cases hb : x < 31
    · exact opSignExtend_cons_of_lt rest hb
    · exact opSignExtend_cons_of_le rest hy (Nat.le_of_not_lt hb)
  exact ⟨⟨opAdd_cons rest, opSub_cons rest hy, opMul_cons rest, opDiv_cons rest hx,
    opSdiv_cons rest hx hy, opMod_cons rest hx, opSmod_cons rest hx hy, opAddmod_cons rest hz,
    opMulmod_cons rest hz, opExp_cons rest, hse, opNot_cons rest hx, opByte_cons rest hy,
    opLt_cons rest, opGt_cons rest, opSlt_cons rest hx hy, opSgt_cons rest hx hy, opEq_cons rest,
    opIszero_cons rest⟩, yellowPaper_lt hx hy hz⟩

/-- `SDIV` at the sign boundary: `-2^255 / -1` pushes `-2^255`, the word `2^255`. -/
theorem instructions_yellowPaper_sdiv_min :
    opSdiv ⟨(2 ^ 255 : Nat) :: (2 ^ 256 - 1 : Nat) :: []⟩ =
      some ⟨(SDIV (2 ^ 255) (2 ^ 256 - 1) : Int) :: []⟩ :=
  (instructions_yellowPaper (2 ^ 255) (2 ^ 256 - 1) 1 (by norm_num) (by norm_num) (by norm_num)
    []).1.2.2.2.2.1

example : SDIV (2 ^ 255) (2 ^ 256 - 1) = 2 ^ 255 := by decide

end Vm
end Ethcore
