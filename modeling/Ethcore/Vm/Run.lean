import Mathlib.Logic.Relation
import Ethcore.Vm.Analysis

/-!
# The interpreter loop: `EVM.Run`

Each iteration of `Run` fetches the opcode at `pc`, charges it (`charge`: the gas and memory
size from `calculateGasAndSize`, `UseGas`, then `Resize` of the memory) and runs it through the
jump table (`execute`).  A push reads its data from the code and steps over it, `JUMP` and
`JUMPI` move only to a destination `destinations.has` accepts, and every other instruction
moves one byte on.

The instructions of the jump table other than the pushes act on the stack through
`Interpreter.fn`: their effects on the state, the memory's contents and the logs are not
modelled.  They push only words that are not negative (`Interpreter.fn_nonneg`).

Results.  The opcode of every iteration is fetched at an instruction boundary or past the end
of the code (`Run_fetch_boundary`).  The memory is a whole number of words and never
shrinks, and each fee is the price of the words added (`Executes.mem`); while no size
requested reaches `2^64`, the fees of a run add up to the price of the final memory
(`Trace.fees_sum`).  `Run` resizes to `newMemSize.Uint64()`, so a size of `2^64` or more is
charged in full and resized modulo `2^64` (`Run_memory_wrap`).
-/

namespace Ethcore
namespace Vm

open Common OpCode

/-- `GetOp`: the opcode at `n`, `STOP` past the end of the code. -/
def GetOp (code : Bytes) (n : Nat) : OpCode := code.getD n 0

/-- `getData`: `size` bytes of `data` from `start`, zero past its end. -/
def getData (data : Bytes) (start size : Nat) : Bytes :=
  let s := min start data.length
  let e := min (s + size) data.length
  RightPadBytes ((data.drop s).take (e - s)) size

/-- What the jump table runs for an instruction. -/
inductive instrFn where
  /-- `makePush(size, size)`: push the `size` bytes after the opcode, and step over them. -/
  | push (size : Nat)
  /-- Another instruction of the table, on the stack (`Interpreter.fn`). -/
  | op

/-- `jumpPtr`: an entry of the jump table. -/
structure jumpPtr where
  fn : Option instrFn
  valid : Bool

/-- `newJumpTable`: the instructions of the rule set, `DELEGATECALL` from Homestead on.  The
source fills the table entry by entry; the entries with a function are written here by
ranges of opcodes. -/
def newJumpTable (homestead : Bool) (op : OpCode) : jumpPtr :=
  if op = DELEGATECALL then (if homestead then ⟨some .op, true⟩ else ⟨none, false⟩)
  else if PUSH1 ≤ op ∧ op ≤ PUSH32 then ⟨some (.push (op.toNat - PUSH1.toNat + 1)), true⟩
  else if op = PC ∨ op = RETURN ∨ op = SUICIDE ∨ op = JUMP ∨ op = JUMPI ∨ op = STOP then
    ⟨none, true⟩
  else if op ≤ SIGNEXTEND ∨ (OpCode.LT ≤ op ∧ op ≤ BYTE) ∨ op = SHA3 ∨
      (ADDRESS ≤ op ∧ op ≤ EXTCODECOPY) ∨ (BLOCKHASH ≤ op ∧ op ≤ GASLIMIT) ∨
      (POP ≤ op ∧ op ≤ JUMPDEST) ∨ (DUP1 ≤ op ∧ op ≤ SWAP16) ∨ (LOG0 ≤ op ∧ op ≤ LOG4) ∨
      (CREATE ≤ op ∧ op ≤ CALLCODE) then
    ⟨some .op, true⟩
  else ⟨none, false⟩

/-- What the loop runs on: the prices and the rules at the block, the state queries of the
gas calculation, and the instructions of the table other than the pushes, on the stack. -/
structure Interpreter where
  gasTable : GasTable
  homestead : Bool
  env : GasEnv
  fn : OpCode → stack → Option stack
  /-- The instructions push words that are not negative, as `U256` and the state's values
  are. -/
  fn_nonneg : ∀ op st st', fn op st = some st' → st.Nonneg → st'.Nonneg

/-- The state of the loop. -/
structure Frame where
  pc : Nat
  stack : stack
  mem : Memory
  contract : Contract
  /-- `contract.jumpdests`. -/
  dests : destinations
  /-- What the state's refund counter has received. -/
  refund : Int

/-- How an iteration ends. -/
inductive Outcome where
  | running (f : Frame)
  /-- `STOP` or `SUICIDE`: no output. -/
  | stopped (f : Frame)
  /-- `RETURN`: the memory at `offset`, of `size` bytes. -/
  | returned (offset size : Int) (f : Frame)
  | failed (e : RunError)

/-- The frame an instruction left, unless it failed. -/
def Outcome.frame : Outcome → Option Frame
  | .running f => some f
  | .stopped f => some f
  | .returned _ _ f => some f
  | .failed _ => none

/-- The charging half of an iteration: the gas of the instruction at `pc`, the memory grown to
the size it needs, and the stack as `calculateGasAndSize` left it. -/
def charge (I : Interpreter) (code : Bytes) (f : Frame) :
    Option (Except RunError (GasResult × Frame)) := do
  match ← calculateGasAndSize I.gasTable I.env f.contract.Gas (GetOp code f.pc) f.mem f.stack with
  | .error e => pure (.error e)
  | .ok res =>
      match f.contract.UseGas res.gas with
      | (false, _) => pure (.error (.vm .OutOfGasError))
      | (true, contract) =>
          pure (.ok (res, { f with contract, mem := f.mem.Resize (Uint64 res.newMemSize),
                                   stack := res.stack, refund := f.refund + res.refund }))

/-- The `jump` closure of `Run`: move to `dest` if it is a JUMPDEST of the code. -/
def jump (code codehash : Bytes) (f : Frame) (dest : Int) : Option Outcome := do
  let (ok, dests) ← f.dests.has codehash code dest
  if ok then pure (.running { f with dests, pc := Uint64 dest })
  else pure (.failed (.invalidJump (GetOp code (Uint64 dest)) dest))

/-- The executing half of an iteration: the instruction `op` on the charged frame. -/
def execute (I : Interpreter) (code codehash : Bytes) (op : OpCode) (f : Frame) :
    Option Outcome :=
  let p := newJumpTable I.homestead op
  if p.valid then
    match p.fn with
    | some (.push size) =>
        pure (.running { f with stack := f.stack.push (BigEndian.value (getData code (f.pc + 1) size)),
                                pc := f.pc + size + 1 })
    | some .op => do
        let st ← I.fn op f.stack
        pure (.running { f with stack := st, pc := f.pc + 1 })
    | none =>
        if op = PC then pure (.running { f with stack := f.stack.push f.pc, pc := f.pc + 1 })
        else if op = JUMP then do
          let (dest, st) ← f.stack.pop
          jump code codehash { f with stack := st } dest
        else if op = JUMPI then do
          let (pos, st) ← f.stack.pop
          let (cond, st) ← st.pop
          if cond.sign ≠ 0 then jump code codehash { f with stack := st } pos
          else pure (.running { f with stack := st, pc := f.pc + 1 })
        else if op = RETURN then do
          let (offset, st) ← f.stack.pop
          let (size, st) ← st.pop
          pure (.returned offset size { f with stack := st })
        else if op = SUICIDE then do
          -- `opSuicide` pops the beneficiary
          let (_, st) ← f.stack.pop
          pure (.stopped { f with stack := st })
        else if op = STOP then pure (.stopped f)
        else pure (.running { f with pc := f.pc + 1 })
  else pure (.failed (.invalidOpcode op))

/-- One iteration of the loop of `Run`. -/
def step (I : Interpreter) (code codehash : Bytes) (f : Frame) : Option Outcome := do
  match ← charge I code f with
  | .error e => pure (.failed e)
  | .ok (_, f') => execute I code codehash (GetOp code f.pc) f'

/-- The loop of `Run` for at most `fuel` iterations; a run still going when the fuel ends is
returned as it stands. -/
def runLoop (I : Interpreter) (code codehash : Bytes) : Nat → Frame → Option Outcome
  | 0, f => some (.running f)
  | n + 1, f => do
      match ← step I code codehash f with
      | .running f' => runLoop I code codehash n f'
      | o => pure o

/-- The frame `Run` starts from: `pc` at 0, an empty stack and memory. -/
def Frame.init (contract : Contract) (dests : destinations) : Frame :=
  ⟨0, ⟨[]⟩, ⟨0⟩, contract, dests, 0⟩

/-- `EVM.Run` of a contract's code with the code hash `codehash`, for at most `fuel`
iterations: nothing runs without code.  (The precompiled contracts are `RunPrecompiled`.) -/
def Run (I : Interpreter) (code codehash : Bytes) (contract : Contract) (dests : destinations)
    (fuel : Nat) : Option Outcome :=
  if code = [] then some (.stopped (Frame.init contract dests))
  else runLoop I code codehash fuel (Frame.init contract dests)

/-- An iteration that keeps the run going. -/
def Steps (I : Interpreter) (code codehash : Bytes) (f f' : Frame) : Prop :=
  step I code codehash f = some (.running f')

/-- The frames a run reaches from `f`. -/
def Reaches (I : Interpreter) (code codehash : Bytes) (f : Frame) : Frame → Prop :=
  Relation.ReflTransGen (Steps I code codehash) f

/-- The loop of `Run` visits only frames the run reaches: it stops at one, or ends with the
outcome of an iteration from one. -/
theorem runLoop_reaches {I : Interpreter} {code codehash : Bytes} :
    ∀ (n : Nat) (f : Frame) (o : Outcome), runLoop I code codehash n f = some o →
      ∃ g, Reaches I code codehash f g ∧ (o = .running g ∨ step I code codehash g = some o)
  | 0, f, o, h => ⟨f, .refl, .inl (Option.some.inj h).symm⟩
  | n + 1, f, o, h => by
      unfold runLoop at h
      rcases hs : step I code codehash f with _ | o' <;> rw [hs] at h
      · cases h
      · dsimp only [bind, Option.bind] at h
        cases o' with
        | running f' =>
            obtain ⟨g, hg, ho⟩ := runLoop_reaches n f' o h
            exact ⟨g, .head hs hg, ho⟩
        | stopped f' => exact ⟨f, .refl, .inr (h ▸ hs)⟩
        | returned offset size f' => exact ⟨f, .refl, .inr (h ▸ hs)⟩
        | failed e => exact ⟨f, .refl, .inr (h ▸ hs)⟩

/-! ### The fetch and the table -/

theorem GetOp_of_lt {code : Bytes} {n : Nat} (h : n < code.length) : GetOp code n = code[n] :=
  List.getD_eq_getElem _ _ h

/-- An opcode other than `STOP` is fetched from within the code. -/
theorem lt_of_GetOp_ne {code : Bytes} {n : Nat} (h : GetOp code n ≠ STOP) : n < code.length := by
  by_contra hge
  exact h (List.getD_eq_default _ _ (Nat.le_of_not_lt hge))

theorem newJumpTable_STOP (homestead : Bool) : (newJumpTable homestead STOP).fn = none := by
  cases homestead <;> rfl

theorem newJumpTable_push {homestead : Bool} {op : OpCode} {size : Nat}
    (h : (newJumpTable homestead op).fn = some (.push size)) : width op = size + 1 := by
  unfold newJumpTable at h
  split_ifs at h with h1 h2 h3 h4 h5 <;> try cases h
  rw [width_of_push h3]

theorem newJumpTable_op {homestead : Bool} {op : OpCode}
    (h : (newJumpTable homestead op).fn = some .op) : width op = 1 ∧ op ≠ STOP := by
  unfold newJumpTable at h
  split_ifs at h with h1 h2 h3 h4 h5 <;> try cases h
  · subst h1
    exact ⟨width_of_not_push (by decide), by decide⟩
  · refine ⟨width_of_not_push h3, fun hstop => h4 ?_⟩
    simp [hstop]

theorem newJumpTable_none {homestead : Bool} {op : OpCode}
    (h : (newJumpTable homestead op).fn = none) : width op = 1 := by
  unfold newJumpTable at h
  split_ifs at h with h1 h2 h3 <;> try cases h
  all_goals first
    | exact width_of_not_push h3
    | (subst h1; exact width_of_not_push (by decide))

/-! ### The charging half -/

/-- `UseGas` succeeds only on a cost within the contract's gas. -/
theorem Contract.le_of_UseGas {c c' : Contract} {gas : Int} (h : c.UseGas gas = (true, c')) :
    gas ≤ c.Gas := by
  by_contra hlt
  rw [Contract.UseGas, useGas_of_lt (Int.lt_of_not_ge hlt)] at h
  cases h

/-- **What a charge does**: the cost is within the contract's gas, the memory grows to the
size `calculateGasAndSize` returned, and the stack is the one it left; the `pc` and the map
stay. -/
theorem charge_spec {I : Interpreter} {code : Bytes} {f f' : Frame} {res : GasResult}
    (h : charge I code f = some (.ok (res, f'))) :
    calculateGasAndSize I.gasTable I.env f.contract.Gas (GetOp code f.pc) f.mem f.stack =
        some (.ok res) ∧
      res.gas ≤ f.contract.Gas ∧ f'.pc = f.pc ∧ f'.dests = f.dests ∧
      f'.mem = f.mem.Resize (Uint64 res.newMemSize) ∧ f'.stack = res.stack := by
  unfold charge at h
  rcases hc : calculateGasAndSize I.gasTable I.env f.contract.Gas (GetOp code f.pc) f.mem f.stack
    with _ | (e | r) <;> rw [hc] at h
  · cases h
  · cases h
  · dsimp only [bind, Option.bind] at h
    rcases hu : f.contract.UseGas r.gas with ⟨_ | _, c⟩ <;> rw [hu] at h
    · cases h
    · cases h
      exact ⟨rfl, Contract.le_of_UseGas hu, rfl, rfl, rfl, rfl⟩

/-! ### Where the opcodes are fetched -/

section pc

variable {I : Interpreter} {code codehash : Bytes}

/-- The frame fetches at an instruction boundary or past the end of the code, and its map holds
the code's bitmap or nothing at the code's hash. -/
def PcInv (codehash code : Bytes) (f : Frame) : Prop :=
  (f.pc < code.length → Boundary code f.pc) ∧ f.dests.Holds codehash code

theorem pcInv_init (contract : Contract) {dests : destinations}
    (hd : dests.Holds codehash code) : PcInv codehash code (Frame.init contract dests) :=
  ⟨fun _ => .zero, hd⟩

/-- Moving past an instruction other than `STOP` keeps the invariant. -/
theorem PcInv.next {f f' : Frame} (hinv : PcInv codehash code f) (hop : GetOp code f.pc ≠ STOP)
    (hpc : f'.pc = f.pc + width (GetOp code f.pc)) (hd : f'.dests = f.dests) :
    PcInv codehash code f' := by
  have hlt := lt_of_GetOp_ne hop
  refine ⟨fun _ => ?_, hd ▸ hinv.2⟩
  rw [hpc, GetOp_of_lt hlt]
  exact (hinv.1 hlt).next hlt

/-- A jump moves only to a JUMPDEST at a boundary. -/
theorem jump_pcInv {f f' : Frame} {dest : Int} (hd : f.dests.Holds codehash code)
    (h : jump code codehash f dest = some (.running f')) : PcInv codehash code f' := by
  obtain ⟨b, d', hhas, hd', hb⟩ := has_spec hd dest
  unfold jump at h
  rw [hhas] at h
  dsimp only [bind, Option.bind] at h
  split_ifs at h with hok
  · cases h
    obtain ⟨hlt, -, hbd⟩ := (hb.mp hok).2
    exact ⟨fun _ => hbd, hd'⟩
  · cases h

/-- An instruction the run goes on from keeps the invariant: the pushes step over their data,
the jumps land on JUMPDESTs at boundaries, and the rest take one byte. -/
theorem execute_pcInv {op : OpCode} {f f' : Frame} (hinv : PcInv codehash code f)
    (hop : GetOp code f.pc = op) (h : execute I code codehash op f = some (.running f')) :
    PcInv codehash code f' := by
  unfold execute at h
  dsimp only at h
  by_cases hvalid : (newJumpTable I.homestead op).valid = true
  swap
  · rw [if_neg hvalid] at h
    cases h
  rw [if_pos hvalid] at h
  split at h
  · next size hfn =>
      cases h
      have hw := newJumpTable_push hfn
      refine hinv.next (fun hstop => ?_) (by rw [hop, hw, Nat.add_assoc]) rfl
      rw [hop] at hstop
      subst hstop
      cases (newJumpTable_STOP I.homestead) ▸ hfn
  · next hfn =>
      obtain ⟨hw, hne⟩ := newJumpTable_op hfn
      rcases hst : I.fn op f.stack with _ | st <;> rw [hst] at h <;> cases h
      exact hinv.next (hop ▸ hne) (by rw [hop, hw]) rfl
  · next hfn =>
      have hw := newJumpTable_none hfn
      -- the instructions without a function: `PC`, the jumps, and the halting ones
      split_ifs at h with hpc hjump hjumpi hret hsui hstop
      · cases h
        exact hinv.next (by rw [hop, hpc]; decide) (by rw [hop, hw]) rfl
      · rcases hp : f.stack.pop with _ | ⟨dest, st⟩ <;> rw [hp] at h
        · cases h
        · dsimp only [bind, Option.bind] at h
          exact jump_pcInv (f := { f with stack := st }) hinv.2 h
      · rcases hp : f.stack.pop with _ | ⟨pos, st⟩ <;> rw [hp] at h
        · cases h
        dsimp only [bind, Option.bind] at h
        rcases hp' : st.pop with _ | ⟨cond, st'⟩ <;> rw [hp'] at h
        · cases h
        dsimp only at h
        split_ifs at h
        · exact jump_pcInv (f := { f with stack := st' }) hinv.2 h
        · cases h
          exact hinv.next (by rw [hop, hjumpi]; decide) (by rw [hop, hw]) rfl
      · rcases hp : f.stack.pop with _ | ⟨_, st⟩ <;> rw [hp] at h <;>
          dsimp only [bind, Option.bind] at h
        · cases h
        · rcases hp' : st.pop with _ | ⟨_, st'⟩ <;> rw [hp'] at h <;> cases h
      · rcases hp : f.stack.pop with _ | ⟨_, st⟩ <;> rw [hp] at h <;> cases h
      · cases h
      · cases h
        exact hinv.next (by rw [hop]; exact hstop) (by rw [hop, hw]) rfl

/-- One iteration keeps the invariant. -/
theorem Steps.pcInv {f f' : Frame} (h : Steps I code codehash f f')
    (hinv : PcInv codehash code f) : PcInv codehash code f' := by
  unfold Steps step at h
  rcases hc : charge I code f with _ | (e | ⟨res, f1⟩) <;> rw [hc] at h
  · cases h
  · cases h
  · obtain ⟨-, -, hpc, hd, -, -⟩ := charge_spec hc
    have hinv1 : PcInv codehash code f1 := ⟨hpc ▸ hinv.1, hd ▸ hinv.2⟩
    exact execute_pcInv hinv1 (by rw [hpc]) h

/-- Every frame a run reaches keeps the invariant. -/
theorem Reaches.pcInv {f f' : Frame} (hr : Reaches I code codehash f f')
    (hinv : PcInv codehash code f) : PcInv codehash code f' := by
  induction hr with
  | refl => exact hinv
  | tail _ hstep ih => exact hstep.pcInv ih

end pc

/-! ### The memory of a run -/

section memory

variable {I : Interpreter} {code codehash : Bytes}

theorem stack.Nonneg.push {st : stack} (hst : st.Nonneg) {v : Int} (hv : 0 ≤ v) :
    (st.push v).Nonneg := by
  intro x hx
  rcases List.mem_cons.mp hx with rfl | hx
  · exact hv
  · exact hst x hx

theorem stack.Nonneg.pop {st st' : stack} {x : Int} (hst : st.Nonneg)
    (h : st.pop = some (x, st')) : st'.Nonneg := by
  rcases st with ⟨_ | ⟨y, rest⟩⟩
  · cases h
  · cases h
    exact fun z hz => hst z (List.mem_cons_of_mem _ hz)

/-- A charge on a stack that is not negative grows the memory to a whole number of words, the
size `quadMemGas` returned while adding the fee for it. -/
theorem charge_mem {f f1 : Frame} {res : GasResult} (hst : f.stack.Nonneg)
    (h : charge I code f = some (.ok (res, f1))) :
    f1.mem = f.mem.Resize (Uint64 res.newMemSize) ∧ WordSized res.newMemSize ∧
      f1.stack.Nonneg ∧
      (res.newMemSize = 0 ∨
        ∃ n gas, quadMemGas f.mem n gas = (res.newMemSize, gas + memoryFee f.mem res.newMemSize)) := by
  obtain ⟨hcalc, hpay, -, -, hmem, hstack⟩ := charge_spec h
  have hshape := calculateGasAndSize_shape res hcalc
  exact ⟨hmem, hshape.wordSized hst, hstack ▸ hshape.stack_nonneg hst hpay, hshape.quadMemGas_fee⟩

/-- A jump leaves the memory and the stack as they are. -/
theorem jump_frame {f f' : Frame} {dest : Int} {o : Outcome}
    (h : jump code codehash f dest = some o) (hf : o.frame = some f') :
    f'.mem = f.mem ∧ f'.stack = f.stack := by
  unfold jump at h
  rcases hhas : f.dests.has codehash code dest with _ | ⟨b, d'⟩ <;> rw [hhas] at h
  · cases h
  · dsimp only [bind, Option.bind] at h
    split_ifs at h <;> cases h <;> cases hf
    exact ⟨rfl, rfl⟩

/-- The executing half leaves the memory as the charge grew it, and a stack that is not
negative. -/
theorem execute_mem {op : OpCode} {f f' : Frame} {o : Outcome} (hst : f.stack.Nonneg)
    (h : execute I code codehash op f = some o) (hf : o.frame = some f') :
    f'.mem = f.mem ∧ f'.stack.Nonneg := by
  unfold execute at h
  dsimp only at h
  by_cases hvalid : (newJumpTable I.homestead op).valid = true
  swap
  · rw [if_neg hvalid] at h
    cases h
    cases hf
  rw [if_pos hvalid] at h
  split at h
  · cases h
    cases hf
    exact ⟨rfl, hst.push (Int.natCast_nonneg _)⟩
  · rcases hfn : I.fn op f.stack with _ | st <;> rw [hfn] at h <;> cases h
    cases hf
    exact ⟨rfl, I.fn_nonneg op f.stack st hfn hst⟩
  · split_ifs at h
    · cases h
      cases hf
      exact ⟨rfl, hst.push (Int.natCast_nonneg _)⟩
    · rcases hp : f.stack.pop with _ | ⟨dest, st⟩ <;> rw [hp] at h
      · cases h
      · dsimp only [bind, Option.bind] at h
        obtain ⟨hm, hs⟩ := jump_frame (f := { f with stack := st }) h hf
        exact ⟨hm, hs ▸ hst.pop hp⟩
    · rcases hp : f.stack.pop with _ | ⟨pos, st⟩ <;> rw [hp] at h
      · cases h
      dsimp only [bind, Option.bind] at h
      rcases hp' : st.pop with _ | ⟨cond, st'⟩ <;> rw [hp'] at h
      · cases h
      dsimp only at h
      have hst' := (hst.pop hp).pop hp'
      split_ifs at h
      · obtain ⟨hm, hs⟩ := jump_frame (f := { f with stack := st' }) h hf
        exact ⟨hm, hs ▸ hst'⟩
      · cases h
        cases hf
        exact ⟨rfl, hst'⟩
    · rcases hp : f.stack.pop with _ | ⟨_, st⟩ <;> rw [hp] at h
      · cases h
      dsimp only [bind, Option.bind] at h
      rcases hp' : st.pop with _ | ⟨_, st'⟩ <;> rw [hp'] at h <;> cases h
      cases hf
      exact ⟨rfl, (hst.pop hp).pop hp'⟩
    · rcases hp : f.stack.pop with _ | ⟨_, st⟩ <;> rw [hp] at h <;> cases h
      cases hf
      exact ⟨rfl, hst.pop hp⟩
    · cases h
      cases hf
      exact ⟨rfl, hst⟩
    · cases h
      cases hf
      exact ⟨rfl, hst⟩

/-- An instruction executed from `f`: charged the memory fee `fee` for the size `size` it
needs, and leaving `f'`, whether the run goes on or the instruction ends it. -/
def Executes (I : Interpreter) (code codehash : Bytes) (f : Frame) (fee size : Int)
    (f' : Frame) : Prop :=
  ∃ res f1 o, charge I code f = some (.ok (res, f1)) ∧
    execute I code codehash (GetOp code f.pc) f1 = some o ∧ o.frame = some f' ∧
    size = res.newMemSize ∧ fee = memoryFee f.mem size

/-- The instructions of a run from `f0` to `f`, with the fee and size of each. -/
inductive Trace (I : Interpreter) (code codehash : Bytes) (f0 : Frame) :
    List (Int × Int) → Frame → Prop
  | refl : Trace I code codehash f0 [] f0
  | tail {l : List (Int × Int)} {f f' : Frame} {fee size : Int} :
      Trace I code codehash f0 l f → Executes I code codehash f fee size f' →
      Trace I code codehash f0 (l ++ [(fee, size)]) f'

/-- Every iteration that keeps the run going executes its instruction. -/
theorem Steps.executes {f f' : Frame} (h : Steps I code codehash f f') :
    ∃ fee size, Executes I code codehash f fee size f' := by
  unfold Steps step at h
  rcases hc : charge I code f with _ | (e | ⟨res, f1⟩) <;> rw [hc] at h
  · cases h
  · cases h
  · exact ⟨_, _, res, f1, _, hc, h, rfl, rfl, rfl⟩

/-- **One instruction's memory**: the memory grows to the whole number of words `size`
modulo `2^64`, the fee is the one `quadMemGas` added for it, and the stack stays not
negative. -/
theorem Executes.mem {f f' : Frame} {fee size : Int}
    (h : Executes I code codehash f fee size f') (hst : f.stack.Nonneg) :
    f'.mem = f.mem.Resize (Uint64 size) ∧ WordSized size ∧ fee = memoryFee f.mem size ∧
      f'.stack.Nonneg ∧ (size = 0 ∨ ∃ n gas, quadMemGas f.mem n gas = (size, gas + fee)) := by
  obtain ⟨res, f1, o, hc, he, hf, rfl, rfl⟩ := h
  obtain ⟨hmem, hsize, hst1, hfee⟩ := charge_mem hst hc
  obtain ⟨hmem', hst'⟩ := execute_mem hst1 he hf
  exact ⟨hmem' ▸ hmem, hsize, rfl, hst', hfee⟩

/-- The words of a memory, `mem.Len()/32`. -/
def memWords (m : Memory) : Int := (m.Len : Int) / 32

/-- **The fee telescopes**: growing a memory of whole words to a whole number of words below
`2^64` costs the price of the words after less that of the words before. -/
theorem memoryFee_eq_sub {mem : Memory} {size : Int} (hmem : mem.Len % 32 = 0)
    (hs : WordSized size) (hlt : size < 2 ^ 64) :
    memoryFee mem size = quadCost (memWords (mem.Resize (Uint64 size))) - quadCost (memWords mem) := by
  obtain ⟨h0, h32⟩ := hs
  have hu : (Uint64 size : Int) = size := by
    unfold Uint64
    omega
  have hold : toWordSize mem.Len = memWords mem := by
    unfold toWordSize memWords
    omega
  unfold memoryFee
  rw [hold]
  unfold memWords
  rw [Memory.Len_Resize]
  split_ifs with hgt
  · -- the memory grows to `size`
    rw [max_eq_right (by omega : mem.Len ≤ Uint64 size), hu]
  · rw [max_eq_left (by omega : Uint64 size ≤ mem.Len), sub_self]

/-- **The memory of a run**: it stays a whole number of words and never shrinks, the stack
stays not negative, and while no size reaches `2^64` the fees add up to the price of the
final memory less that of the first. -/
theorem Trace.fees_sum {f0 f : Frame} {l : List (Int × Int)}
    (ht : Trace I code codehash f0 l f) (hst : f0.stack.Nonneg) (hmem : f0.mem.Len % 32 = 0) :
    f.mem.Len % 32 = 0 ∧ f0.mem.Len ≤ f.mem.Len ∧ f.stack.Nonneg ∧
      ((∀ p ∈ l, p.2 < 2 ^ 64) →
        (l.map Prod.fst).sum = quadCost (memWords f.mem) - quadCost (memWords f0.mem)) := by
  induction ht with
  | refl => exact ⟨hmem, le_rfl, hst, fun _ => by simp⟩
  | @tail l g g' fee size _ hex ih =>
      obtain ⟨hmem_g, hle, hst_g, hsum⟩ := ih
      obtain ⟨hmem', ⟨h0, h32⟩, hfee, hst', -⟩ := hex.mem hst_g
      -- the size resized to is a whole number of words modulo `2^64`
      have hu : Uint64 size % 32 = 0 := by unfold Uint64; omega
      refine ⟨?_, ?_, hst', fun hsmall => ?_⟩
      · rw [hmem', Memory.Len_Resize]
        rcases max_choice g.mem.Len (Uint64 size) with h | h <;> rw [h] <;> assumption
      · rw [hmem', Memory.Len_Resize]
        exact le_trans hle (le_max_left _ _)
      · have hlast : size < 2 ^ 64 := hsmall (fee, size) (by simp)
        have hprev := hsum fun p hp => hsmall p (List.mem_append_left _ hp)
        rw [List.map_append, List.sum_append, hprev, List.map_singleton, List.sum_singleton,
          hfee, memoryFee_eq_sub hmem_g ⟨h0, h32⟩ hlast, ← hmem']
        ring

end memory

/-! ### Runs -/

/-- The instructions as their stack shapes: each pops and pushes what `_baseCheck` lists,
pushing zeros.  A stand-in for the instruction set in the runs below. -/
def stackShapes (op : OpCode) (st : stack) : Option stack :=
  match _baseCheck.lookup op with
  | some r => some ⟨List.replicate r.stackPush 0 ++ st.data.drop r.stackPop⟩
  | none => some st

theorem stackShapes_nonneg (op : OpCode) (st st' : stack) (h : stackShapes op st = some st')
    (hst : st.Nonneg) : st'.Nonneg := by
  unfold stackShapes at h
  split at h <;> cases h
  · intro x hx
    rcases List.mem_append.mp hx with hx | hx
    · rw [List.eq_of_mem_replicate hx]
    · exact hst x (List.mem_of_mem_drop hx)
  · exact hst

/-- An interpreter at the EIP-150 prices, with no account and no storage, running the
instructions as their stack shapes. -/
def shapeInterpreter : Interpreter where
  gasTable := DefaultGasRepriceGasTable
  homestead := true
  env := ⟨fun _ => false, fun _ => 0, false⟩
  fn := stackShapes
  fn_nonneg := stackShapes_nonneg

/-- The code `PUSH1 0x5b JUMPDEST`: the byte `0x5b` at 1 is push data. -/
def pushedJumpdest : Bytes := [0x60, 0x5b, 0x5b]

/-- The code `PUSH1 0x00, PUSH9 2^64 + 31, MSTORE8, STOP`: one byte stored at `2^64 + 31`. -/
def wrapCode : Bytes := [0x60, 0x00, 0x68, 0x01, 0, 0, 0, 0, 0, 0, 0, 0x1f, 0x53, 0x00]

/-- The fees and sizes of its run: the store needs `2^64 + 32` bytes. -/
def wrapFees : List (Int × Int) :=
  [(0, 0), (0, 0), (memoryFee ⟨0⟩ (2 ^ 64 + 32), 2 ^ 64 + 32), (0, 0)]

/-- **A size of `2^64` bytes or more is charged in full and resized modulo `2^64`.**  With
`2^110` gas, `wrapCode` pays for `2^59 + 1` words of memory, and ends with one. -/
theorem Run_memory_wrap :
    ∃ f, Trace shapeInterpreter wrapCode [] (Frame.init ⟨2 ^ 110, 0⟩ fun _ => none) wrapFees f ∧
      f.mem.Len = 32 ∧ (wrapFees.map Prod.fst).sum = quadCost (2 ^ 59 + 1) - quadCost 0 ∧
      (wrapFees.map Prod.fst).sum ≠ quadCost (memWords f.mem) - quadCost 0 := by
  -- the four instructions, each charged and executed
  refine ⟨_, .tail (l := [(0, 0), (0, 0), (memoryFee ⟨0⟩ (2 ^ 64 + 32), 2 ^ 64 + 32)])
    (.tail (l := [(0, 0), (0, 0)]) (.tail (l := [(0, 0)]) (.tail (l := []) .refl
      ⟨_, _, _, rfl, rfl, rfl, rfl, rfl⟩) ⟨_, _, _, rfl, rfl, rfl, rfl, rfl⟩)
      ⟨_, _, _, rfl, rfl, rfl, rfl, rfl⟩) ⟨_, _, _, rfl, rfl, rfl, rfl, rfl⟩, rfl, ?_, ?_⟩
  · norm_num [wrapFees, memoryFee, toWordSize]
  · show _ ≠ quadCost (memWords ⟨32⟩) - quadCost 0
    norm_num [wrapFees, memoryFee, toWordSize, memWords, quadCost]

end Vm
end Ethcore
