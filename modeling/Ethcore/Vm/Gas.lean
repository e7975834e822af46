import Mathlib.Data.Nat.Size
import Ethcore.Vm.Contracts
import Ethcore.Vm.Instructions

/-!
# What an instruction costs: `gas.go`, `common.go`, `memory.go`, `calculateGasAndSize`

Before it runs an instruction, the interpreter asks `calculateGasAndSize` for the gas the
instruction costs and the memory size it needs.  `baseCheck` checks the stack height against
the table `_baseCheck` and adds the instruction's base gas.  The switch after it sets or adds
the gas of the instructions whose price depends on the state or on their operands, and for
the instructions that touch memory asks `quadMemGas` for the fee of growing it.

`quadMemGas` rounds the requested size up to whole words, writing the rounded size back into
its argument, and charges `quadCost` of the new word count minus that of the old one when
the rounded size exceeds the memory (`quadMemGas_snd`).  The interpreter then grows the memory
to that rounded size.  The memory is modelled by its length alone: no instruction changes
the length but `Resize` (`Set` copies into the store `Resize` has made).

`callGas` is the EIP-150 rule of the calls: with `CreateBySuicide` set, a call is given at
most all but one 64th of the gas left after the call's own cost, and when that cost already
exceeds the gas left the total charged exceeds it too (`callGas_spec`).  The calls charge
their cost plus that call gas (`callAccess_spec`).

Every result of `calculateGasAndSize` has one of three shapes (`calculateGasAndSize_shape`):
no memory, an access to memory at operands from the stack, or a call.  On a stack of words
that are not negative the size is then a whole number of words (`GasShape.wordSized`), and a
result the contract can pay for leaves such a stack (`GasShape.stack_nonneg`).

The state queries of the switch (whether an account exists, a storage word, whether the
contract has suicided) are in `GasEnv`.
-/

namespace Ethcore
namespace Vm

open Common

/-- `OpCode`: an instruction byte. -/
abbrev OpCode := UInt8

namespace OpCode

def STOP : OpCode := 0x00
def ADD : OpCode := 0x01
def MUL : OpCode := 0x02
def SUB : OpCode := 0x03
def DIV : OpCode := 0x04
def SDIV : OpCode := 0x05
def MOD : OpCode := 0x06
def SMOD : OpCode := 0x07
def ADDMOD : OpCode := 0x08
def MULMOD : OpCode := 0x09
def EXP : OpCode := 0x0a
def SIGNEXTEND : OpCode := 0x0b
def LT : OpCode := 0x10
def GT : OpCode := 0x11
def SLT : OpCode := 0x12
def SGT : OpCode := 0x13
def EQ : OpCode := 0x14
def ISZERO : OpCode := 0x15
def AND : OpCode := 0x16
def OR : OpCode := 0x17
def XOR : OpCode := 0x18
def NOT : OpCode := 0x19
def BYTE : OpCode := 0x1a
def SHA3 : OpCode := 0x20
def ADDRESS : OpCode := 0x30
def BALANCE : OpCode := 0x31
def ORIGIN : OpCode := 0x32
def CALLER : OpCode := 0x33
def CALLVALUE : OpCode := 0x34
def CALLDATALOAD : OpCode := 0x35
def CALLDATASIZE : OpCode := 0x36
def CALLDATACOPY : OpCode := 0x37
def CODESIZE : OpCode := 0x38
def CODECOPY : OpCode := 0x39
def GASPRICE : OpCode := 0x3a
def EXTCODESIZE : OpCode := 0x3b
def EXTCODECOPY : OpCode := 0x3c
def BLOCKHASH : OpCode := 0x40
def COINBASE : OpCode := 0x41
def TIMESTAMP : OpCode := 0x42
def NUMBER : OpCode := 0x43
def DIFFICULTY : OpCode := 0x44
def GASLIMIT : OpCode := 0x45
def POP : OpCode := 0x50
def MLOAD : OpCode := 0x51
def MSTORE : OpCode := 0x52
def MSTORE8 : OpCode := 0x53
def SLOAD : OpCode := 0x54
def SSTORE : OpCode := 0x55
def JUMP : OpCode := 0x56
def JUMPI : OpCode := 0x57
def PC : OpCode := 0x58
def MSIZE : OpCode := 0x59
def GAS : OpCode := 0x5a
def JUMPDEST : OpCode := 0x5b
def PUSH1 : OpCode := 0x60
def PUSH32 : OpCode := 0x7f
def DUP1 : OpCode := 0x80
def DUP16 : OpCode := 0x8f
def SWAP1 : OpCode := 0x90
def SWAP16 : OpCode := 0x9f
def LOG0 : OpCode := 0xa0
def LOG4 : OpCode := 0xa4
def CREATE : OpCode := 0xf0
def CALL : OpCode := 0xf1
def CALLCODE : OpCode := 0xf2
def RETURN : OpCode := 0xf3
def DELEGATECALL : OpCode := 0xf4
def SUICIDE : OpCode := 0xff

end OpCode

open OpCode

/-- `GasTable`: the prices a rule set fixes at a block.  `CreateBySuicide` is `nil` before
the EIP-150 prices. -/
structure GasTable where
  ExtcodeSize : Int
  ExtcodeCopy : Int
  Balance : Int
  SLoad : Int
  Calls : Int
  Suicide : Int
  ExpByte : Int
  CreateBySuicide : Option Int

def GasQuickStep : Int := 2
def GasFastestStep : Int := 3
def GasFastStep : Int := 5
def GasMidStep : Int := 8
def GasSlowStep : Int := 10
def GasExtStep : Int := 20

/-- `stackLimit`: the most items the stack may hold. -/
def stackLimit : Nat := 1024

/-- `callGas`: the gas a call passes on.  With `CreateBySuicide` set it is the requested
`callCost` capped at all but one 64th of what is left after `base`.  `Div` of `big.Int` is
Euclidean, as `/` on `Int` is. -/
def callGas (gasTable : GasTable) (availableGas base callCost : Int) : Int :=
  if gasTable.CreateBySuicide.isSome then
    let availableGas := availableGas - base
    let g := availableGas - availableGas / 64
    if g < callCost then g else callCost
  else callCost

/-- `toWordSize`: the number of 32-byte words that hold `size` bytes. -/
def toWordSize (size : Int) : Int := (size + 31) / 32

/-- `calcMemSize`: the memory an access of `l` bytes at `off` needs; none for an empty
access. -/
def calcMemSize (off l : Int) : Int := if l.sign = 0 then 0 else off + l

/-- `Memory`, by its length: what the instructions store is not modelled. -/
structure Memory where
  Len : Nat

/-- `Resize`: grow the memory to `size` bytes. -/
def Memory.Resize (m : Memory) (size : Nat) : Memory := if m.Len < size then ⟨size⟩ else m

/-- The price of a memory of `w` words: three per word and a quadratic part. -/
def quadCost (w : Int) : Int := w * 3 + w ^ 2 / 512

/-- `quadMemGas`: round a positive requested size up to whole words, and add to `gas` the
price of the rounded size's words less that of the memory's.  The source writes the rounded
size into its argument, which the caller reads back, and returns it here.  It reuses its
temporaries (`linCoef` is `oldSize`), each after its last read, so the fee is the difference
of the two prices. -/
def quadMemGas (mem : Memory) (newMemSize gas : Int) : Int × Int :=
  if newMemSize.sign > 0 then
    let newMemSizeWords := toWordSize newMemSize
    let newMemSize := newMemSizeWords * 32
    if newMemSize > mem.Len then
      let oldSize := toWordSize mem.Len
      (newMemSize, gas + (quadCost newMemSizeWords - quadCost oldSize))
    else (newMemSize, gas)
  else (newMemSize, gas)

/-- The fee `quadMemGas` adds when it returns the size `size` for `mem`. -/
def memoryFee (mem : Memory) (size : Int) : Int :=
  if size > mem.Len then quadCost (size / 32) - quadCost (toWordSize mem.Len) else 0

/-- The errors of the interpreter loop. -/
inductive RunError where
  /-- `OutOfGasError`, the error `RunPrecompiled` shares. -/
  | vm (e : VmError)
  /-- "stack underflow (%d <=> %d)": the stack's height and the height required. -/
  | stackUnderflow (len n : Nat)
  /-- "stack length %d exceed limit %d". -/
  | stackLimit (len limit : Nat)
  /-- "invalid jump destination (%v) %v": the opcode at the destination, and the
  destination. -/
  | invalidJump (nop : OpCode) (dest : Int)
  /-- "Invalid opcode %x". -/
  | invalidOpcode (op : OpCode)

namespace stack

def len (st : stack) : Nat := st.data.length

/-- `require`: fail unless the stack holds `n` items. -/
def require (st : stack) (n : Nat) : Except RunError Unit :=
  if st.len < n then .error (.stackUnderflow st.len n) else .ok ()

/-- `stack.data[stack.len()-n]`: the `n`-th item from the top, the first being `peek()`;
`none` is the panic of an index out of range. -/
def back (st : stack) (n : Nat) : Option Int := st.data[n - 1]?

/-- `stack.data[stack.len()-1] = v`, on a stack the caller has read the top of. -/
def setTop (st : stack) (v : Int) : stack := ⟨v :: st.data.tail⟩

end stack

/-- `req`: what `baseCheck` requires of an instruction. -/
structure req where
  stackPop : Nat
  gas : Int
  stackPush : Nat

/-- `_baseCheck`: the stack items an instruction pops and pushes, and its base gas.  All the
pushes share the entry of `PUSH1`, all the duplications that of `DUP1`. -/
def _baseCheck : List (OpCode × req) :=
  [(ADD, ⟨2, GasFastestStep, 1⟩), (LT, ⟨2, GasFastestStep, 1⟩), (GT, ⟨2, GasFastestStep, 1⟩),
   (SLT, ⟨2, GasFastestStep, 1⟩), (SGT, ⟨2, GasFastestStep, 1⟩), (EQ, ⟨2, GasFastestStep, 1⟩),
   (ISZERO, ⟨1, GasFastestStep, 1⟩), (SUB, ⟨2, GasFastestStep, 1⟩),
   (AND, ⟨2, GasFastestStep, 1⟩), (OR, ⟨2, GasFastestStep, 1⟩), (XOR, ⟨2, GasFastestStep, 1⟩),
   (NOT, ⟨1, GasFastestStep, 1⟩), (BYTE, ⟨2, GasFastestStep, 1⟩),
   (CALLDATALOAD, ⟨1, GasFastestStep, 1⟩), (CALLDATACOPY, ⟨3, GasFastestStep, 1⟩),
   (MLOAD, ⟨1, GasFastestStep, 1⟩), (MSTORE, ⟨2, GasFastestStep, 0⟩),
   (MSTORE8, ⟨2, GasFastestStep, 0⟩), (CODECOPY, ⟨3, GasFastestStep, 0⟩),
   (MUL, ⟨2, GasFastStep, 1⟩), (DIV, ⟨2, GasFastStep, 1⟩), (SDIV, ⟨2, GasFastStep, 1⟩),
   (MOD, ⟨2, GasFastStep, 1⟩), (SMOD, ⟨2, GasFastStep, 1⟩),
   (SIGNEXTEND, ⟨2, GasFastStep, 1⟩), (ADDMOD, ⟨3, GasMidStep, 1⟩),
   (MULMOD, ⟨3, GasMidStep, 1⟩), (JUMP, ⟨1, GasMidStep, 0⟩), (JUMPI, ⟨2, GasSlowStep, 0⟩),
   (EXP, ⟨2, GasSlowStep, 1⟩), (ADDRESS, ⟨0, GasQuickStep, 1⟩),
   (ORIGIN, ⟨0, GasQuickStep, 1⟩), (CALLER, ⟨0, GasQuickStep, 1⟩),
   (CALLVALUE, ⟨0, GasQuickStep, 1⟩), (CODESIZE, ⟨0, GasQuickStep, 1⟩),
   (GASPRICE, ⟨0, GasQuickStep, 1⟩), (COINBASE, ⟨0, GasQuickStep, 1⟩),
   (TIMESTAMP, ⟨0, GasQuickStep, 1⟩), (NUMBER, ⟨0, GasQuickStep, 1⟩),
   (CALLDATASIZE, ⟨0, GasQuickStep, 1⟩), (DIFFICULTY, ⟨0, GasQuickStep, 1⟩),
   (GASLIMIT, ⟨0, GasQuickStep, 1⟩), (POP, ⟨1, GasQuickStep, 0⟩), (PC, ⟨0, GasQuickStep, 1⟩),
   (MSIZE, ⟨0, GasQuickStep, 1⟩), (GAS, ⟨0, GasQuickStep, 1⟩),
   (BLOCKHASH, ⟨1, GasExtStep, 1⟩), (BALANCE, ⟨1, 0, 1⟩), (EXTCODESIZE, ⟨1, 0, 1⟩),
   (EXTCODECOPY, ⟨4, 0, 0⟩), (SLOAD, ⟨1, 50, 1⟩), (SSTORE, ⟨2, 0, 0⟩), (SHA3, ⟨2, 30, 1⟩),
   (CREATE, ⟨3, 32000, 1⟩), (CALL, ⟨7, 0, 1⟩), (CALLCODE, ⟨7, 0, 1⟩),
   (DELEGATECALL, ⟨6, 0, 1⟩), (SUICIDE, ⟨1, 0, 0⟩), (JUMPDEST, ⟨0, 1, 0⟩),
   (RETURN, ⟨2, 0, 0⟩), (PUSH1, ⟨0, GasFastestStep, 1⟩), (DUP1, ⟨0, 0, 1⟩)]

/-- `baseCheck`: check the stack against the instruction's entry of `_baseCheck` and add its
base gas; an instruction without an entry passes unchanged. -/
def baseCheck (op : OpCode) (st : stack) (gas : Int) : Except RunError Int :=
  let op := if PUSH1 ≤ op ∧ op ≤ PUSH32 then PUSH1 else op
  let op := if DUP1 ≤ op ∧ op ≤ DUP16 then DUP1 else op
  match _baseCheck.lookup op with
  | some r =>
      match st.require r.stackPop with
      | .error e => .error e
      | .ok () =>
          if r.stackPush > 0 ∧ st.len - r.stackPop + r.stackPush > stackLimit then
            .error (.stackLimit st.len stackLimit)
          else .ok (gas + r.gas)
  | none => .ok gas

/-- What `calculateGasAndSize` asks of the state: whether the account at an address word
exists, the running contract's storage word at a key word, and whether the running contract
has suicided. -/
structure GasEnv where
  Exist : Int → Bool
  GetState : Int → Int
  HasSuicided : Bool

/-- `len(x.Bytes())`: the length of the absolute value without leading zero bytes. -/
def bytesLen (x : Int) : Nat := (BigEndian.minimal x.natAbs).length

/-- `common.EmptyHash(common.BigToHash(y))`: the hash keeps the low 32 bytes of `|y|`. -/
def EmptyWord (y : Int) : Bool := y.natAbs % 2 ^ 256 == 0

/-- What `calculateGasAndSize` returns, and what it changes on the way. -/
structure GasResult where
  newMemSize : Int
  gas : Int
  /-- The stack, with the top replaced by the call gas for the calls. -/
  stack : stack
  /-- What `statedb.AddRefund` received. -/
  refund : Int

/-- An instruction reading `l` bytes of memory at `off`, its gas so far `gas`: the size and
fee from `quadMemGas`. -/
def memoryAccess (mem : Memory) (st : stack) (off l gas : Int) : Except RunError GasResult :=
  let (newMemSize, gas) := quadMemGas mem (calcMemSize off l) gas
  .ok ⟨newMemSize, gas, st, 0⟩

/-- The calls, after their cost `gas` so far: the larger of the input and output regions for
the memory, and the call gas from `callGas` in place of the requested gas on the stack.  The
regions are at the `inOff`-th and `outOff`-th items from the top, their sizes just below. -/
def callAccess (gasTable : GasTable) (contractGas : Int) (mem : Memory) (st : stack)
    (inOff outOff : Nat) (gas : Int) : Option (Except RunError GasResult) := do
  let x := calcMemSize (← st.back outOff) (← st.back (outOff + 1))
  let y := calcMemSize (← st.back inOff) (← st.back (inOff + 1))
  let (newMemSize, gas) := quadMemGas mem (max x y) gas
  let cg := callGas gasTable contractGas gas (← st.back 1)
  pure (.ok ⟨newMemSize, gas + cg, st.setTop cg, 0⟩)

/-- `calculateGasAndSize`: the memory size an instruction needs and the gas it costs, for a
contract with `contractGas` left; `none` is a panic. -/
def calculateGasAndSize (gasTable : GasTable) (env : GasEnv) (contractGas : Int) (op : OpCode)
    (mem : Memory) (st : stack) : Option (Except RunError GasResult) :=
  match baseCheck op st 0 with
  | .error e => some (.error e)
  | .ok gas =>
    if op = SUICIDE then do
      -- the homestead gas fork: a suicide to an account that does not exist creates it
      let gas ← match gasTable.CreateBySuicide with
        | some create => do
            let addr ← st.back 1
            pure (if env.Exist addr then gasTable.Suicide else gasTable.Suicide + create)
        | none => pure gas
      pure (.ok ⟨0, gas, st, if env.HasSuicided then 0 else 24000⟩)
    else if op = EXTCODESIZE then some (.ok ⟨0, gasTable.ExtcodeSize, st, 0⟩)
    else if op = BALANCE then some (.ok ⟨0, gasTable.Balance, st, 0⟩)
    else if op = SLOAD then some (.ok ⟨0, gasTable.SLoad, st, 0⟩)
    else if SWAP1 ≤ op ∧ op ≤ SWAP16 then
      some ((st.require (op - SWAP1 + 2).toNat).map fun () => ⟨0, GasFastestStep, st, 0⟩)
    else if DUP1 ≤ op ∧ op ≤ DUP16 then
      some ((st.require (op - DUP1 + 1).toNat).map fun () => ⟨0, GasFastestStep, st, 0⟩)
    else if LOG0 ≤ op ∧ op ≤ LOG4 then
      let n := (op - LOG0).toNat
      match st.require (n + 2) with
      | .error e => some (.error e)
      | .ok () => do
          let mSize ← st.back 2
          let mStart ← st.back 1
          pure (memoryAccess mem st mStart mSize (gas + 375 + n * 375 + mSize * 8))
    else if op = EXP then do
      pure (.ok ⟨0, gas + bytesLen (← st.back 2) * gasTable.ExpByte, st, 0⟩)
    else if op = SSTORE then
      match st.require 2 with
      | .error e => some (.error e)
      | .ok () => do
          let y ← st.back 2
          let val := env.GetState (← st.back 1)
          -- a new value, a deletion (refunded), or a change
          if val = 0 ∧ !EmptyWord y then pure (.ok ⟨0, 20000, st, 0⟩)
          else if val ≠ 0 ∧ EmptyWord y then pure (.ok ⟨0, 5000, st, 15000⟩)
          else pure (.ok ⟨0, 5000, st, 0⟩)
    else if op = MLOAD then do pure (memoryAccess mem st (← st.back 1) 32 gas)
    else if op = MSTORE8 then do pure (memoryAccess mem st (← st.back 1) 1 gas)
    else if op = MSTORE then do pure (memoryAccess mem st (← st.back 1) 32 gas)
    else if op = RETURN then do pure (memoryAccess mem st (← st.back 1) (← st.back 2) gas)
    else if op = SHA3 then do
      let size ← st.back 2
      pure (memoryAccess mem st (← st.back 1) size (gas + toWordSize size * 6))
    else if op = CALLDATACOPY then do
      let l ← st.back 3
      pure (memoryAccess mem st (← st.back 1) l (gas + toWordSize l * 3))
    else if op = CODECOPY then do
      let l ← st.back 3
      pure (memoryAccess mem st (← st.back 1) l (gas + toWordSize l * 3))
    else if op = EXTCODECOPY then do
      let l ← st.back 4
      pure (memoryAccess mem st (← st.back 2) l (gasTable.ExtcodeCopy + toWordSize l * 3))
    else if op = CREATE then do pure (memoryAccess mem st (← st.back 2) (← st.back 3) gas)
    else if op = CALL ∨ op = CALLCODE then do
      -- a value transfer to an account that does not exist creates it
      let gas ← if op = CALL then do
          pure (if env.Exist (← st.back 2) then gasTable.Calls else gasTable.Calls + 25000)
        else pure gasTable.Calls
      let gas := if bytesLen (← st.back 3) > 0 then gas + 9000 else gas
      callAccess gasTable contractGas mem st 4 6 gas
    else if op = DELEGATECALL then callAccess gasTable contractGas mem st 3 5 gasTable.Calls
    else some (.ok ⟨0, gas, st, 0⟩)


/-- `DefaultHomeSteadGasTable` of `core/data_gastable.go`. -/
def DefaultHomeSteadGasTable : GasTable := ⟨20, 20, 20, 50, 40, 0, 10, none⟩

/-- `DefaultGasRepriceGasTable`: the EIP-150 prices. -/
def DefaultGasRepriceGasTable : GasTable := ⟨700, 700, 400, 200, 700, 5000, 10, some 25000⟩

/-! ### The call gas -/

section callGas

variable {gasTable : GasTable}

/-- With `CreateBySuicide` set the call gas is the smaller of the request and all but one
64th of what the base leaves. -/
theorem callGas_of_isSome (h : gasTable.CreateBySuicide.isSome) (G B c : Int) :
    callGas gasTable G B c = min c ((G - B) - (G - B) / 64) := by
  simp only [callGas, h, if_true]
  split_ifs with hlt
  · exact (min_eq_right hlt.le).symm
  · exact (min_eq_left (not_lt.mp hlt)).symm

theorem callGas_of_none (h : gasTable.CreateBySuicide = none) (G B c : Int) :
    callGas gasTable G B c = c := by
  simp [callGas, h]

/-- What the base leaves, less its 64th, is between nothing and all of it. -/
theorem sub_div_64_bounds {x : Int} (hx : 0 ≤ x) : 0 ≤ x - x / 64 ∧ x - x / 64 ≤ x := by
  omega

/-- Short of gas for the base, what the base leaves less its 64th is still more than it:
Euclidean division rounds the negative 64th down. -/
theorem lt_sub_div_64 {x : Int} (hx : x < 0) : x < x - x / 64 := by
  omega

/-- **EIP-150's call gas**: when the base cost `B` fits in the gas `G` left, the call is given
the smaller of its request `c` and all but one 64th of `G - B`, so the base and the call gas
together fit in `G`; when it does not fit, the base and the call gas together exceed `G`. -/
theorem callGas_spec (gasTable : GasTable) (h : gasTable.CreateBySuicide.isSome) (G B c : Int)
    (hc : 0 ≤ c) :
    (B ≤ G → callGas gasTable G B c = min c ((G - B) - (G - B) / 64) ∧
        callGas gasTable G B c ≤ (G - B) - (G - B) / 64 ∧ B + callGas gasTable G B c ≤ G) ∧
      (G < B → G < B + callGas gasTable G B c) := by
  rw [callGas_of_isSome h]
  constructor
  · intro hle
    have hx := (sub_div_64_bounds (x := G - B) (by omega)).2
    have hmin : min c ((G - B) - (G - B) / 64) ≤ (G - B) - (G - B) / 64 := min_le_right _ _
    exact ⟨rfl, hmin, by omega⟩
  · intro hlt
    -- both the request and the capped gas exceed `G - B < 0`
    have hcap := lt_sub_div_64 (x := G - B) (by omega)
    have hmin : G - B < min c ((G - B) - (G - B) / 64) := lt_min (by omega) hcap
    omega

theorem callGas_spec_reprice :
    ((100 : Int) ≤ 1000 → callGas DefaultGasRepriceGasTable 1000 100 5000 = min 5000 ((1000 - 100) - (1000 - 100) / 64) ∧
        callGas DefaultGasRepriceGasTable 1000 100 5000 ≤ (1000 - 100) - (1000 - 100) / 64 ∧
        100 + callGas DefaultGasRepriceGasTable 1000 100 5000 ≤ 1000) ∧
      ((1000 : Int) < 100 → 1000 < 100 + callGas DefaultGasRepriceGasTable 1000 100 5000) :=
  callGas_spec DefaultGasRepriceGasTable rfl 1000 100 5000 (by decide)

/-- A call gas the contract can pay on top of the base is not negative. -/
theorem callGas_nonneg {G B c : Int} (hc : 0 ≤ c) (hle : B + callGas gasTable G B c ≤ G) :
    0 ≤ callGas gasTable G B c := by
  rcases hs : gasTable.CreateBySuicide with _ | create
  · rw [callGas_of_none hs]
    exact hc
  · have hsome : gasTable.CreateBySuicide.isSome := by rw [hs]; rfl
    rw [callGas_of_isSome hsome] at hle ⊢
    by_cases hB : B ≤ G
    · exact le_min hc (sub_div_64_bounds (x := G - B) (by omega)).1
    · have := (callGas_spec gasTable hsome G B c hc).2 (by omega)
      rw [callGas_of_isSome hsome] at this
      omega

end callGas

/-! ### Memory expansion -/

@[simp] theorem Memory.Len_Resize (m : Memory) (size : Nat) :
    (m.Resize size).Len = max m.Len size := by
  unfold Memory.Resize
  split_ifs with h
  · exact (max_eq_right h.le).symm
  · exact (max_eq_left (Nat.le_of_not_lt h)).symm

theorem sign_pos_iff {n : Int} : n.sign > 0 ↔ 0 < n := by
  rcases Int.lt_trichotomy n 0 with h | rfl | h
  · simp only [Int.sign_eq_neg_one_of_neg h]
    omega
  · simp
  · simp [Int.sign_eq_one_of_pos h, h]

/-- The size `quadMemGas` returns: a positive request rounded up to whole words. -/
theorem quadMemGas_fst (mem : Memory) (n gas : Int) :
    (quadMemGas mem n gas).1 = if 0 < n then toWordSize n * 32 else n := by
  unfold quadMemGas
  simp only [sign_pos_iff]
  split_ifs <;> rfl

/-- **The fee `quadMemGas` adds** is `memoryFee` of the size it returns. -/
theorem quadMemGas_snd (mem : Memory) (n gas : Int) :
    (quadMemGas mem n gas).2 = gas + memoryFee mem (quadMemGas mem n gas).1 := by
  unfold quadMemGas memoryFee
  simp only [sign_pos_iff]
  split_ifs with hpos hgt hgt'
  · -- the rounded size is a whole number of words
    dsimp only
    rw [Int.mul_ediv_cancel _ (by decide)]
  · exact (Int.add_zero gas).symm
  · -- a request that is not positive is below the memory's length
    dsimp only at hgt'
    omega
  · exact (Int.add_zero gas).symm

/-- A request that is not negative comes back as a whole number of words. -/
theorem quadMemGas_words {n : Int} (hn : 0 ≤ n) (mem : Memory) (gas : Int) :
    0 ≤ (quadMemGas mem n gas).1 ∧ (quadMemGas mem n gas).1 % 32 = 0 := by
  rw [quadMemGas_fst]
  split_ifs with hpos
  · have : 0 ≤ toWordSize n := by unfold toWordSize; omega
    omega
  · omega

/-- No fee for a size the memory already has. -/
theorem memoryFee_of_le {mem : Memory} {size : Int} (h : size ≤ mem.Len) :
    memoryFee mem size = 0 := by
  rw [memoryFee, if_neg (not_lt.mpr h)]

/-! ### What `calculateGasAndSize` returns -/

/-- A stack whose items are not negative, as every word the interpreter pushes is. -/
def stack.Nonneg (st : stack) : Prop := ∀ x ∈ st.data, 0 ≤ x

theorem stack.back_nonneg {st : stack} (hst : st.Nonneg) {n : Nat} {x : Int}
    (h : st.back n = some x) : 0 ≤ x :=
  hst x (List.mem_of_getElem? h)

theorem calcMemSize_nonneg {off l : Int} (hoff : 0 ≤ off) (hl : 0 ≤ l) :
    0 ≤ calcMemSize off l := by
  unfold calcMemSize
  split_ifs <;> omega

/-- A size the interpreter resizes the memory to: a whole number of words. -/
def WordSized (size : Int) : Prop := 0 ≤ size ∧ size % 32 = 0

theorem wordSized_zero : WordSized 0 := ⟨le_rfl, rfl⟩

theorem memoryAccess_wordSized {mem : Memory} {st : stack} {off l gas : Int} {res : GasResult}
    (h : memoryAccess mem st off l gas = .ok res) (hoff : 0 ≤ off) (hl : 0 ≤ l) :
    WordSized res.newMemSize ∧ res.stack = st := by
  unfold memoryAccess at h
  cases h
  exact ⟨quadMemGas_words (calcMemSize_nonneg hoff hl) mem gas, rfl⟩

variable {gasTable : GasTable} {env : GasEnv} {G : Int} {op : OpCode} {mem : Memory}
  {st : stack} {res : GasResult}

/-- Every result `o` returns without an error has the property `p`: the switch of
`calculateGasAndSize` is taken apart branch by branch with the rules below. -/
def OkAll {ε β : Type} (p : β → Prop) (o : Option (Except ε β)) : Prop :=
  ∀ r, o = some (.ok r) → p r

namespace OkAll

variable {ε β : Type} {p : β → Prop}

theorem ite {c : Prop} [Decidable c] {a b : Option (Except ε β)} (ha : OkAll p a)
    (hb : OkAll p b) : OkAll p (if c then a else b) := by
  split
  · exact ha
  · exact hb

theorem error (e : ε) : OkAll p (some (.error e : Except ε β)) := fun _ h => by cases h

theorem pure {e : Except ε β} (h : ∀ r, e = .ok r → p r) : OkAll p (Pure.pure e) :=
  fun r hr => h r (Option.some.inj hr)

theorem ok {r : β} (h : p r) : OkAll p (some (.ok r : Except ε β)) :=
  pure fun _ hr => by cases hr; exact h

theorem map {e : Except ε Unit} {f : Unit → β} (h : p (f ())) : OkAll p (some (e.map f)) := by
  intro r hr
  rcases e with e | u
  · cases hr
  · cases hr
    exact h

theorem bind {α : Type} {o : Option α} {f : α → Option (Except ε β)}
    (h : ∀ x, o = some x → OkAll p (f x)) : OkAll p (o >>= f) := by
  intro r hr
  rcases ho : o with _ | x
  · rw [ho] at hr
    cases hr
  · rw [ho] at hr
    exact h x ho r hr

end OkAll

/-- The results of `calculateGasAndSize`: one that needs no memory and leaves the stack, an
access to memory at an offset and of a length that are not negative on a stack that is not,
and a call. -/
inductive GasShape (gasTable : GasTable) (G : Int) (mem : Memory) (st : stack) :
    GasResult → Prop
  | plain (gas refund : Int) : GasShape gasTable G mem st ⟨0, gas, st, refund⟩
  | access {off l gas : Int} {res : GasResult} (hoff : st.Nonneg → 0 ≤ off)
      (hl : st.Nonneg → 0 ≤ l) (h : memoryAccess mem st off l gas = .ok res) :
      GasShape gasTable G mem st res
  | call {inOff outOff : Nat} {gas : Int} {res : GasResult}
      (h : callAccess gasTable G mem st inOff outOff gas = some (.ok res)) :
      GasShape gasTable G mem st res

/-- An item of the stack as an operand that is not negative on a stack that is not. -/
theorem stack.back_nonneg_of {st : stack} {n : Nat} {x : Int} (h : st.back n = some x) :
    st.Nonneg → 0 ≤ x :=
  fun hst => stack.back_nonneg hst h

/-- **The branches of `calculateGasAndSize`**: each result it returns has one of the three
shapes. -/
theorem calculateGasAndSize_shape :
    OkAll (GasShape gasTable G mem st) (calculateGasAndSize gasTable env G op mem st) := by
  unfold calculateGasAndSize
  split
  · exact OkAll.error _
  repeat' apply OkAll.ite
  · -- SUICIDE: the price of a suicide, no memory
    dsimp only
    split
    · exact OkAll.bind fun _ _ => OkAll.bind fun _ _ => OkAll.ok (GasShape.plain _ _)
    · exact OkAll.bind fun _ _ => OkAll.ok (GasShape.plain _ _)
  · exact OkAll.ok (.plain _ _)
  · exact OkAll.ok (.plain _ _)
  · exact OkAll.ok (.plain _ _)
  · exact OkAll.map (.plain _ _)
  · exact OkAll.map (.plain _ _)
  · -- LOG: the logged data in memory
    dsimp only
    split
    · exact OkAll.error _
    · exact OkAll.bind fun _ hl => OkAll.bind fun _ hoff =>
        OkAll.pure fun _ h => .access (stack.back_nonneg_of hoff) (stack.back_nonneg_of hl) h
  · exact OkAll.bind fun _ _ => OkAll.ok (.plain _ _)
  · -- SSTORE: the price of the storage change, no memory
    split
    · exact OkAll.error _
    · refine OkAll.bind fun _ _ => OkAll.bind fun _ _ => ?_
      dsimp only
      repeat' apply OkAll.ite
      all_goals exact OkAll.ok (.plain _ _)
  · exact OkAll.bind fun _ hoff =>
      OkAll.pure fun _ h => .access (stack.back_nonneg_of hoff) (fun _ => by decide) h
  · exact OkAll.bind fun _ hoff =>
      OkAll.pure fun _ h => .access (stack.back_nonneg_of hoff) (fun _ => by decide) h
  · exact OkAll.bind fun _ hoff =>
      OkAll.pure fun _ h => .access (stack.back_nonneg_of hoff) (fun _ => by decide) h
  · -- RETURN
    exact OkAll.bind fun _ hoff => OkAll.bind fun _ hl =>
      OkAll.pure fun _ h => .access (stack.back_nonneg_of hoff) (stack.back_nonneg_of hl) h
  · -- SHA3, CALLDATACOPY, CODECOPY, EXTCODECOPY: a length with a price per word
    exact OkAll.bind fun _ hl => OkAll.bind fun _ hoff =>
      OkAll.pure fun _ h => .access (stack.back_nonneg_of hoff) (stack.back_nonneg_of hl) h
  · exact OkAll.bind fun _ hl => OkAll.bind fun _ hoff =>
      OkAll.pure fun _ h => .access (stack.back_nonneg_of hoff) (stack.back_nonneg_of hl) h
  · exact OkAll.bind fun _ hl => OkAll.bind fun _ hoff =>
      OkAll.pure fun _ h => .access (stack.back_nonneg_of hoff) (stack.back_nonneg_of hl) h
  · exact OkAll.bind fun _ hl => OkAll.bind fun _ hoff =>
      OkAll.pure fun _ h => .access (stack.back_nonneg_of hoff) (stack.back_nonneg_of hl) h
  · -- CREATE: the init code
    exact OkAll.bind fun _ hoff => OkAll.bind fun _ hl =>
      OkAll.pure fun _ h => .access (stack.back_nonneg_of hoff) (stack.back_nonneg_of hl) h
  · -- CALL, then CALLCODE, then DELEGATECALL
    exact OkAll.bind fun _ _ => OkAll.bind fun _ _ => OkAll.bind fun _ _ => fun _ h => .call h
  · exact OkAll.bind fun _ _ => OkAll.bind fun _ _ => fun _ h => .call h
  · exact fun _ h => .call h
  · exact OkAll.ok (.plain _ _)

/-- What a call charges: the base `B` (its price and the memory fee) and the call gas on top,
which also takes the place of the requested gas `c` on the stack. -/
theorem callAccess_spec {inOff outOff : Nat} {gas : Int}
    (h : callAccess gasTable G mem st inOff outOff gas = some (.ok res)) :
    ∃ req c, (st.Nonneg → 0 ≤ req) ∧ st.back 1 = some c ∧
      res.newMemSize = (quadMemGas mem req gas).1 ∧
      res.gas = (quadMemGas mem req gas).2 + callGas gasTable G (quadMemGas mem req gas).2 c ∧
      res.stack = st.setTop (callGas gasTable G (quadMemGas mem req gas).2 c) := by
  unfold callAccess at h
  simp only [bind, Option.bind_eq_some_iff, pure, Option.some.injEq] at h
  obtain ⟨o1, h1, o2, h2, i1, h3, i2, h4, c, hc, hres⟩ := h
  cases hres
  refine ⟨max (calcMemSize o1 o2) (calcMemSize i1 i2), c, fun hst => ?_, hc, rfl, rfl, rfl⟩
  exact le_max_of_le_left (calcMemSize_nonneg (stack.back_nonneg hst h1) (stack.back_nonneg hst h2))

theorem stack.setTop_nonneg {st : stack} (hst : st.Nonneg) {v : Int} (hv : 0 ≤ v) :
    (st.setTop v).Nonneg := by
  intro x hx
  rcases List.mem_cons.mp hx with rfl | hx
  · exact hv
  · exact hst x (List.mem_of_mem_tail hx)

namespace GasShape

variable {gasTable : GasTable} {G : Int} {mem : Memory} {st : stack} {res : GasResult}

/-- On a stack that is not negative, the memory size is a whole number of words. -/
theorem wordSized (hs : GasShape gasTable G mem st res) (hst : st.Nonneg) :
    WordSized res.newMemSize := by
  cases hs with
  | plain => exact wordSized_zero
  | access hoff hl h => exact (memoryAccess_wordSized h (hoff hst) (hl hst)).1
  | call h =>
      obtain ⟨req, _, hreq, _, hsize, -⟩ := callAccess_spec h
      rw [hsize]
      exact quadMemGas_words (hreq hst) mem _

/-- A result the contract can pay for leaves a stack that is not negative: the call gas put
on the stack is not negative once its base and itself are paid. -/
theorem stack_nonneg (hs : GasShape gasTable G mem st res) (hst : st.Nonneg)
    (hpay : res.gas ≤ G) : res.stack.Nonneg := by
  cases hs with
  | plain => exact hst
  | access hoff hl h => rw [(memoryAccess_wordSized h (hoff hst) (hl hst)).2]; exact hst
  | call h =>
      obtain ⟨req, c, -, hc, -, hgas, hstack⟩ := callAccess_spec h
      rw [hstack]
      rw [hgas] at hpay
      exact stack.setTop_nonneg hst (callGas_nonneg (stack.back_nonneg hst hc) hpay)

/-- The memory fee of a result: none for a result without memory, and otherwise the size
is what `quadMemGas` returned while adding `memoryFee` of it. -/
theorem quadMemGas_fee (hs : GasShape gasTable G mem st res) :
    res.newMemSize = 0 ∨
      ∃ n gas, quadMemGas mem n gas = (res.newMemSize, gas + memoryFee mem res.newMemSize) := by
  cases hs with
  | plain => exact .inl rfl
  | access _ _ h =>
      unfold memoryAccess at h
      cases h
      exact .inr ⟨_, _, Prod.ext rfl (quadMemGas_snd _ _ _)⟩
  | call h =>
      obtain ⟨req, _, -, -, hsize, -⟩ := callAccess_spec h
      exact .inr ⟨req, _, Prod.ext hsize.symm (by rw [hsize]; exact quadMemGas_snd _ _ _)⟩

end GasShape

end Vm
end Ethcore
