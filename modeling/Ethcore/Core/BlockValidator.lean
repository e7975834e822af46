import Ethcore.Common.Bytes

/-!
# Header validity: `ValidateHeader` and `CalcDifficulty` of `block_validator.go`

`ValidateHeader` checks a header against its parent in a fixed order and returns the first
failure: the size of the extra data, the timestamp against the clock (or, for an uncle,
against `MaxBig`), the timestamp against the parent's, the difficulty, the gas limit and the
block number.  The difficulty it expects is `CalcDifficulty` of the chain configuration's
difficulty rule in force at the block, which panics (`none`) on a rule it does not know.

`CalcDifficulty` receives the timestamps as `uint64`s, `header.Time.Uint64()`: an uncle's
timestamp may be any word up to `MaxBig`, and the difficulty of such an uncle is computed for
its timestamp modulo `2^64` (`ValidateHeader_uncle_time_wrap`).  The proof-of-work check that
`checkPow` guards is commented out in the source, so `checkPow` changes nothing.

Header fields are the unsigned integers the RLP decoder produces, so they are `Nat`s here;
the arithmetic on them is `big.Int` arithmetic, on `Int`.
-/

namespace Ethcore
namespace Core

open Common

/-! ### Chain configuration -/

/-- `ForkFeature`, through the options the difficulty and reward rules read:
`GetString("type")`, `GetBigInt("length")` and `GetBigInt("era")`. -/
structure ForkFeature where
  ID : String
  type : Option String
  length : Option Int
  era : Option Int

/-- `Fork`: the block it starts at (`nil` for a fork that is never active) and its
features. -/
structure Fork where
  Block : Option Int
  Features : List ForkFeature

structure ChainConfig where
  Forks : List Fork

/-- `ChainConfig.GetFeature`: the last feature with the id among the forks that have started
by block `num`, with the block of its fork. -/
def ChainConfig.GetFeature (c : ChainConfig) (num : Int) (id : String) :
    Option (ForkFeature × Int) :=
  if id = "" then none
  else
    c.Forks.foldl (fun found f =>
      match f.Block with
      | none => found
      | some block =>
        if block > num then found
        else f.Features.foldl (fun found ff => if ff.ID = id then some (ff, block) else found) found)
      none

/-- `ChainConfig.HasFeature`: the last feature with the id on any fork, whatever its block,
with its fork. -/
def ChainConfig.HasFeature (c : ChainConfig) (id : String) : Option (ForkFeature × Fork) :=
  if id = "" then none
  else
    c.Forks.foldl (fun found f =>
      f.Features.foldl (fun found ff => if ff.ID = id then some (ff, f) else found) found) none

/-! ### Difficulty -/

def DurationLimit : Int := 13

def ExpDiffPeriod : Int := 100000

def MinimumDifficulty : Int := 131072

def MinGasLimit : Int := 5000

def DifficultyBoundDivisor : Int := 2048

def GasLimitBoundDivisor : Int := 1024

/-- `types.HeaderExtraMax`. -/
def HeaderExtraMax : Nat := 32

/-- The adjustment of EIP-2 that the Homestead, Defused, Diehard and Explosion rules share:
the parent's difficulty moves by `parentDiff / 2048` for every ten seconds the block time
differs from ten to twenty seconds, by at most 99 steps down, and not below
`MinimumDifficulty`. -/
def adjustedDifficulty (time parentTime : Nat) (parentDiff : Int) : Int :=
  -- `1 - (block_timestamp - parent_timestamp) // 10`, `big.Int.Div` being Euclidean
  let x : Int := 1 - ((time : Int) - parentTime) / 10
  let x := if x < -99 then -99 else x
  let x := parentDiff + parentDiff / DifficultyBoundDivisor * x
  if x < MinimumDifficulty then MinimumDifficulty else x

/-- The exponential factor, "the bomb": `2^(count - 2)` once the period count passes 1. -/
def expFactor (count : Int) : Int := if count > 1 then 2 ^ (count - 2).toNat else 0

def calcDifficultyDiehard (time parentTime : Nat) (parentDiff diehardBlock : Int) : Int :=
  adjustedDifficulty time parentTime parentDiff + expFactor (diehardBlock / ExpDiffPeriod)

def calcDifficultyExplosion (time parentTime : Nat)
    (parentNumber parentDiff delayBlock continueBlock : Int) : Int :=
  adjustedDifficulty time parentTime parentDiff +
    expFactor ((parentNumber + 1 - continueBlock + delayBlock) / ExpDiffPeriod)

def calcDifficultyDefused (time parentTime : Nat) (_parentNumber parentDiff : Int) : Int :=
  adjustedDifficulty time parentTime parentDiff

def calcDifficultyHomestead (time parentTime : Nat) (parentNumber parentDiff : Int) : Int :=
  adjustedDifficulty time parentTime parentDiff + expFactor ((parentNumber + 1) / ExpDiffPeriod)

/-- `calcDifficultyFrontier`: one step of `parentDiff / 2048` up below thirteen seconds and
down from there, then the bomb, which the source clamps again at `MinimumDifficulty`. -/
def calcDifficultyFrontier (time parentTime : Nat) (parentNumber parentDiff : Int) : Int :=
  let adjust := parentDiff / DifficultyBoundDivisor
  let diff :=
    if (time : Int) - parentTime < DurationLimit then parentDiff + adjust else parentDiff - adjust
  let diff := if diff < MinimumDifficulty then MinimumDifficulty else diff
  let periodCount := (parentNumber + 1) / ExpDiffPeriod
  if periodCount > 1 then max (diff + 2 ^ (periodCount - 2).toNat) MinimumDifficulty else diff

/-- `CalcDifficulty`: the rule the configuration's `difficulty` feature names at the block;
Frontier without one.  An unknown rule, or an `ecip1010` rule without a length, panics. -/
def CalcDifficulty (config : ChainConfig) (time parentTime : Nat) (parentNumber parentDiff : Int) :
    Option Int :=
  let num := parentNumber + 1
  match config.GetFeature num "difficulty" with
  | none => some (calcDifficultyFrontier time parentTime parentNumber parentDiff)
  | some (f, forkBlock) =>
    match f.type.getD "" with
    | "defused" => some (calcDifficultyDefused time parentTime parentNumber parentDiff)
    | "ecip1010" =>
      match f.length with
      | some length =>
        let explosionBlock := forkBlock + length
        if num < explosionBlock then
          some (calcDifficultyDiehard time parentTime parentDiff forkBlock)
        else
          some (calcDifficultyExplosion time parentTime parentNumber parentDiff forkBlock
            explosionBlock)
      | none => none
    | "homestead" => some (calcDifficultyHomestead time parentTime parentNumber parentDiff)
    | "frontier" => some (calcDifficultyFrontier time parentTime parentNumber parentDiff)
    | _ => none

/-! ### Headers -/

/-- The fields of `types.Header` that `ValidateHeader` reads. -/
structure Header where
  Extra : Bytes
  Time : Nat
  Difficulty : Nat
  GasLimit : Nat
  Number : Nat

/-- The errors of `ValidateHeader`, with the values their messages print. -/
inductive ValidateHeaderError where
  /-- "extra data size %d exceeds limit of %d" -/
  | extraSize (size limit : Nat)
  /-- `BlockTSTooBigErr`, "block time too big" -/
  | BlockTSTooBigErr
  /-- `BlockFutureErr`, "block time is in the future" -/
  | BlockFutureErr
  /-- `BlockEqualTSErr`, "block time stamp equal to previous" -/
  | BlockEqualTSErr
  /-- "Difficulty check failed for header %v != %v at %v" -/
  | difficulty (difficulty expected : Int) (number : Nat)
  /-- "GasLimit check failed for header %v (%v > %v)" -/
  | gasLimit (gasLimit : Nat) (a b : Int)
  /-- `BlockNumberErr`, "block number invalid" -/
  | BlockNumberErr
  deriving DecidableEq, Repr

set_option linter.unusedVariables false in
/-- `ValidateHeader`, with `now` for `time.Now().Unix()`; `none` is the panic of
`CalcDifficulty`. -/
def ValidateHeader (config : ChainConfig) (header parent : Header) (checkPow uncle : Bool)
    (now : Int) : Option (Except ValidateHeaderError Unit) :=
  if HeaderExtraMax < header.Extra.length then
    some (.error (.extraSize header.Extra.length HeaderExtraMax))
  else if uncle ∧ MaxBig < header.Time then some (.error .BlockTSTooBigErr)
  else if !uncle ∧ now < header.Time then some (.error .BlockFutureErr)
  else if header.Time ≤ parent.Time then some (.error .BlockEqualTSErr)
  else
    (CalcDifficulty config (Uint64 header.Time) (Uint64 parent.Time) parent.Number
        parent.Difficulty).map fun (expd : Int) =>
      if expd ≠ header.Difficulty then .error (.difficulty header.Difficulty expd header.Number)
      else
        let a := |(parent.GasLimit : Int) - header.GasLimit|
        let b := (parent.GasLimit : Int) / GasLimitBoundDivisor
        if ¬ a < b ∨ (header.GasLimit : Int) < MinGasLimit then
          .error (.gasLimit header.GasLimit a b)
        else if (header.Number : Int) - parent.Number ≠ 1 then .error .BlockNumberErr
        -- `checkPow` guards the proof-of-work check, which the source has commented out
        else .ok ()

/-- `ValidateHeader` accepts exactly the headers that pass every check, the difficulty taken
at the timestamps modulo `2^64`. -/
theorem ValidateHeader_eq_ok_iff {config : ChainConfig} {header parent : Header}
    {checkPow uncle : Bool} {now : Int} :
    ValidateHeader config header parent checkPow uncle now = some (.ok ()) ↔
      header.Extra.length ≤ HeaderExtraMax ∧
      (if uncle then (header.Time : Int) ≤ MaxBig else (header.Time : Int) ≤ now) ∧
      parent.Time < header.Time ∧
      CalcDifficulty config (Uint64 header.Time) (Uint64 parent.Time) parent.Number
        parent.Difficulty = some header.Difficulty ∧
      |(parent.GasLimit : Int) - header.GasLimit| < (parent.GasLimit : Int) / GasLimitBoundDivisor ∧
      MinGasLimit ≤ header.GasLimit ∧
      header.Number = parent.Number + 1 := by
  unfold ValidateHeader
  -- every check either returns its error or passes on to the next
  cases uncle <;>
    cases CalcDifficulty config (Uint64 header.Time) (Uint64 parent.Time) parent.Number
      parent.Difficulty <;>
    simp <;> split_ifs <;> simp <;> omega

/-- The proof of work is never checked: `checkPow` does not change the result. -/
theorem ValidateHeader_checkPow (config : ChainConfig) (header parent : Header) (uncle : Bool)
    (now : Int) :
    ValidateHeader config header parent true uncle now =
      ValidateHeader config header parent false uncle now := rfl

/-- An uncle is judged as the same uncle `2^64` seconds later: the difficulty it must have is
computed for its timestamp modulo `2^64`. -/
theorem ValidateHeader_uncle_time_wrap (config : ChainConfig) (header parent : Header)
    (checkPow : Bool) (now : Int) (hp : parent.Time < header.Time)
    (hmax : (header.Time : Int) + 2 ^ 64 ≤ MaxBig) :
    ValidateHeader config { header with Time := header.Time + 2 ^ 64 } parent checkPow true now =
      ValidateHeader config header parent checkPow true now := by
  have hbig : ¬ MaxBig < ((header.Time + 2 ^ 64 : Nat) : Int) := by push_cast; omega
  have hbig' : ¬ MaxBig < (header.Time : Int) := by omega
  have hle : ¬ header.Time + 2 ^ 64 ≤ parent.Time := by omega
  have hle' : ¬ header.Time ≤ parent.Time := by omega
  simp only [ValidateHeader, Uint64_add_two_pow, hbig, hbig', hle, hle']
  rfl

/-- Under the Frontier rule, an uncle one second after its parent with the difficulty raised
by `parentDiff / 2048` is valid; the same uncle `2^64` seconds later is valid too, although
the rule at its exact timestamp lowers the difficulty. -/
theorem ValidateHeader_uncle_time_wrap_frontier :
    ValidateHeader ⟨[]⟩ ⟨[], 1 + 2 ^ 64, 2 ^ 20 + 2 ^ 9, 2 ^ 20, 1⟩ ⟨[], 0, 2 ^ 20, 2 ^ 20, 0⟩
        false true 0 =
      ValidateHeader ⟨[]⟩ ⟨[], 1, 2 ^ 20 + 2 ^ 9, 2 ^ 20, 1⟩ ⟨[], 0, 2 ^ 20, 2 ^ 20, 0⟩
        false true 0 ∧
    ValidateHeader ⟨[]⟩ ⟨[], 1, 2 ^ 20 + 2 ^ 9, 2 ^ 20, 1⟩ ⟨[], 0, 2 ^ 20, 2 ^ 20, 0⟩
        false true 0 = some (.ok ()) ∧
    CalcDifficulty ⟨[]⟩ (1 + 2 ^ 64) 0 0 (2 ^ 20) = some (2 ^ 20 - 2 ^ 9) :=
  ⟨ValidateHeader_uncle_time_wrap ⟨[]⟩ ⟨[], 1, 2 ^ 20 + 2 ^ 9, 2 ^ 20, 1⟩
      ⟨[], 0, 2 ^ 20, 2 ^ 20, 0⟩ false 0 (by decide) (by decide),
    by decide, by decide⟩

end Core
end Ethcore
