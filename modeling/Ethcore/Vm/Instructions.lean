import Ethcore.Common.Bytes

/-!
# Arithmetic, comparison and bitwise instructions: `instructions.go`, `stack.go`

The interpreter keeps its operand stack as a slice of `*big.Int`.  An instruction pops its
operands, computes on the unbounded integers (Go's `Div` and `Mod` are Euclidean, its
bitwise operations act on the infinite two's complement) and pushes the result reduced to
a word with `U256`; the signed instructions read their operands through `S256`.

The model keeps the stack's top, the last element of the Go slice, at the head of a list.
Popping an empty stack indexes the slice out of range and panics; an instruction returns
`none` then.  (The interpreter checks the stack height before running an instruction; the
functions here do not rely on that check.)

Most instructions pop one, two or three operands and push one value computed from them:
`unaryOp`, `binaryOp` and `ternaryOp` describe that shape once, and each such instruction
is one of them applied to what it computes.  `opSignExtend` pops its second operand only
for a byte index below 31, and keeps its own body.
-/

namespace Ethcore
namespace Vm

open Common

/-- `stack`: the operand stack, top first. -/
structure stack where
  data : List Int

namespace stack

/-- `push`: put a value on top. -/
def push (st : stack) (d : Int) : stack := ⟨d :: st.data⟩

/-- `pop`: take the top value; `none` is the panic on an empty stack. -/
def pop (st : stack) : Option (Int × stack) :=
  match st.data with
  | [] => none
  | x :: rest => some (x, ⟨rest⟩)

@[simp] theorem pop_cons (x : Int) (rest : List Int) : pop ⟨x :: rest⟩ = some (x, ⟨rest⟩) := rfl

@[simp] theorem pop_nil : pop ⟨[]⟩ = none := rfl

@[simp] theorem push_data (st : stack) (d : Int) : (st.push d).data = d :: st.data := rfl

end stack

/-- An instruction that pops `x` and pushes `f x`. -/
def unaryOp (f : Int → Int) (st : stack) : Option stack := do
  let (x, st) ← st.pop
  pure (st.push (f x))

/-- An instruction that pops `x`, then `y`, and pushes `f x y`. -/
def binaryOp (f : Int → Int → Int) (st : stack) : Option stack := do
  let (x, st) ← st.pop
  let (y, st) ← st.pop
  pure (st.push (f x y))

/-- An instruction that pops `x`, `y`, then `z`, and pushes `f x y z`. -/
def ternaryOp (f : Int → Int → Int → Int) (st : stack) : Option stack := do
  let (x, st) ← st.pop
  let (y, st) ← st.pop
  let (z, st) ← st.pop
  pure (st.push (f x y z))

@[simp] theorem unaryOp_cons (f : Int → Int) (x : Int) (rest : List Int) :
    unaryOp f ⟨x :: rest⟩ = some ⟨f x :: rest⟩ := rfl

@[simp] theorem binaryOp_cons (f : Int → Int → Int) (x y : Int) (rest : List Int) :
    binaryOp f ⟨x :: y :: rest⟩ = some ⟨f x y :: rest⟩ := rfl

@[simp] theorem ternaryOp_cons (f : Int → Int → Int → Int) (x y z : Int) (rest : List Int) :
    ternaryOp f ⟨x :: y :: z :: rest⟩ = some ⟨f x y z :: rest⟩ := rfl

/-- `Pow256`: `2^256`. -/
def Pow256 : Int := 2 ^ 256

/-- Go's `x.Exp(x, y, m)` for `m > 0` and `y ≥ 0`: `x^y mod m`.  (The exponent is a stack
word, never negative.) -/
def bigExp (x y m : Int) : Int := x ^ y.toNat % m

/-- `common.BitTest`: whether bit `i` of `num` is set. -/
def BitTest (num : Int) (i : Nat) : Bool := num.testBit i

def opAdd : stack → Option stack := binaryOp fun x y => U256 (x + y)

def opSub : stack → Option stack := binaryOp fun x y => U256 (x - y)

def opMul : stack → Option stack := binaryOp fun x y => U256 (x * y)

def opDiv : stack → Option stack :=
  binaryOp fun x y => if y.sign ≠ 0 then U256 (x / y) else 0

/-- `opSdiv`: the quotient of the absolute values, negated when the product of the
operands is negative. -/
def opSdiv : stack → Option stack :=
  binaryOp fun x y =>
    let x := S256 x
    let y := S256 y
    if y.sign = 0 then 0
    else
      let n : Int := if (x * y).sign < 0 then -1 else 1
      U256 (x.natAbs / y.natAbs * n)

def opMod : stack → Option stack :=
  binaryOp fun x y => if y.sign = 0 then 0 else U256 (x % y)

/-- `opSmod`: the remainder of the absolute values, with the sign of the dividend. -/
def opSmod : stack → Option stack :=
  binaryOp fun x y =>
    let x := S256 x
    let y := S256 y
    if y.sign = 0 then 0
    else
      let n : Int := if x.sign < 0 then -1 else 1
      U256 (x.natAbs % y.natAbs * n)

def opExp : stack → Option stack := binaryOp fun x y => U256 (bigExp x y Pow256)

/-- `opSignExtend`: for a byte index `back` below 31, pop the value and copy its bit
`8 * back + 7` into every higher bit; for a larger index the value stays on the stack. -/
def opSignExtend (st : stack) : Option stack := do
  let (back, st) ← st.pop
  if back < 31 then
    let bit := back.toNat * 8 + 7
    let (num, st) ← st.pop
    let mask : Int := 2 ^ bit - 1
    if BitTest num bit then pure (st.push (U256 (Int.lor num (Int.lnot mask))))
    else pure (st.push (U256 (Int.land num mask)))
  else pure st

/-- `opSignExtend` on a stack with two words: the mask arithmetic, or nothing popped. -/
theorem opSignExtend_eq (back num : Int) (rest : List Int) :
    opSignExtend ⟨back :: num :: rest⟩ =
      if back < 31 then
        if BitTest num (back.toNat * 8 + 7) then
          some ⟨U256 (Int.lor num (Int.lnot (2 ^ (back.toNat * 8 + 7) - 1))) :: rest⟩
        else some ⟨U256 (Int.land num (2 ^ (back.toNat * 8 + 7) - 1)) :: rest⟩
      else some ⟨num :: rest⟩ := rfl

def opNot : stack → Option stack := unaryOp fun x => U256 (Int.lnot x)

def opLt : stack → Option stack := binaryOp fun x y => if x < y then 1 else 0

def opGt : stack → Option stack := binaryOp fun x y => if x > y then 1 else 0

/-- `opSlt`: the source applies `S256` to the second operand twice. -/
def opSlt : stack → Option stack :=
  binaryOp fun x y =>
    let x := S256 x
    let y := S256 y
    if x < S256 y then 1 else 0

def opSgt : stack → Option stack :=
  binaryOp fun x y => if S256 x > S256 y then 1 else 0

def opEq : stack → Option stack := binaryOp fun x y => if x = y then 1 else 0

def opIszero : stack → Option stack := unaryOp fun x => if x.sign ≠ 0 then 0 else 1

def opAnd : stack → Option stack := binaryOp Int.land

def opOr : stack → Option stack := binaryOp Int.lor

def opXor : stack → Option stack := binaryOp Int.xor

/-- `opByte`: byte `th` of the value written big-endian in 32 bytes (`val.Bytes()` is the
minimal big-endian string), and `0` from byte 32 on. -/
def opByte (st : stack) : Option stack := do
  let (th, st) ← st.pop
  let (val, st) ← st.pop
  if th < 32 then
    match (LeftPadBytes (BigEndian.minimal val.toNat) 32)[th.toNat]? with
    | some b => pure (st.push b.toNat)
    | none => none
  else pure (st.push 0)

theorem opByte_eq (th val : Int) (rest : List Int) :
    opByte ⟨th :: val :: rest⟩ =
      if th < 32 then
        match (LeftPadBytes (BigEndian.minimal val.toNat) 32)[th.toNat]? with
        | some b => some ⟨(b.toNat : Int) :: rest⟩
        | none => none
      else some ⟨0 :: rest⟩ := rfl

def opAddmod : stack → Option stack :=
  ternaryOp fun x y z => if z.sign > 0 then U256 ((x + y) % z) else 0

def opMulmod : stack → Option stack :=
  ternaryOp fun x y z => if z.sign > 0 then U256 (x * y % z) else 0

end Vm
end Ethcore
