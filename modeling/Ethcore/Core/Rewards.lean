import Ethcore.Core.BlockValidator
import Ethcore.State.StateDB

/-!
# Block rewards: `AccumulateRewards` of `state_processor.go`

`AccumulateRewards` credits the block's coinbase and the coinbase of each uncle.  Without a
`reward` feature in the configuration it pays the original schedule: five ether to the
winner, one thirty-second of that more per uncle, and `(u + 8 - n)/8` of five ether to the
miner of an uncle of number `u`.  With one, the feature must be ECIP-1017 with a positive era
length `L`, and the rewards depend on the era of the block: the winner's reward shrinks by
four fifths from one era to the next, and from the second era on the uncle miners earn what
the winner earns per uncle.

ECIP-1017 numbers the eras from zero, blocks `1..L` forming era 0, so the era of block `n` is
`(n - 1) / L`.  `GetBlockEra` computes it as `(n - (n - 1) % L) / L`, which is that era for
`L ≥ 2` but `n` itself for `L = 1`, a length the configuration check accepts
(`GetBlockEra_of_two_le`, `GetBlockEra_one`): with eras of one block the first block is
already paid as the second era.

The state is the state database of `Ethcore.State`, read through `GetBalance`; the credits
of a call are stated as one function of the address (`credits`), so that rewards paid twice
to one coinbase add up.
-/

namespace Ethcore
namespace Core
namespace StateProcessor

open State

/-- The fields of `types.Header` that `AccumulateRewards` reads. -/
structure Header where
  Number : Int
  Coinbase : Address

def MaximumBlockReward : Int := 5 * 10 ^ 18

def big8 : Int := 8

def big32 : Int := 32

def DisinflationRateQuotient : Int := 4

def DisinflationRateDivisor : Int := 5

/-! ### The reward functions -/

/-- `GetBlockEra`: the zero-based era of a block, `0` for the genesis.  (The source divides
by `eraLength`, which panics at `0`; `AccumulateRewards` calls it with a positive length
only.) -/
def GetBlockEra (blockNum eraLength : Int) : Int :=
  if blockNum.sign < 1 then 0
  else
    let remainder := (blockNum - 1) % eraLength
    let base := blockNum - remainder
    let d := base / eraLength
    let dremainder := d % 1
    d - dremainder

/-- `GetBlockWinnerRewardByEra`: `MaximumBlockReward · 4^era / 5^era`; `big.Int.Exp` of a
negative exponent is `1`, as `toNat` makes it here. -/
def GetBlockWinnerRewardByEra (era : Int) : Int :=
  if era = 0 then MaximumBlockReward
  else
    let q := DisinflationRateQuotient ^ era.toNat
    let d := DisinflationRateDivisor ^ era.toNat
    MaximumBlockReward * q / d

def getEraUncleBlockReward (era : Int) : Int := GetBlockWinnerRewardByEra era / big32

def GetBlockUncleRewardByEra (era : Int) (header uncle : Header) : Int :=
  if era = 0 then (uncle.Number + big8 - header.Number) * MaximumBlockReward / big8
  else getEraUncleBlockReward era

def GetBlockWinnerRewardForUnclesByEra (era : Int) (uncles : List Header) : Int :=
  uncles.foldl (fun r _ => r + getEraUncleBlockReward era) 0

/-- `AccumulateRewards`; `none` is the panic on a `reward` feature that is not ECIP-1017
with a positive era length. -/
def AccumulateRewards (config : ChainConfig) (statedb : StateDB) (header : Header)
    (uncles : List Header) : Option StateDB :=
  match config.HasFeature "reward" with
  | none =>
    -- the uncles are paid as the loop meets them, the winner last
    let paid := uncles.foldl
      (fun (acc : StateDB × Int) uncle =>
        let r := (uncle.Number + big8 - header.Number) * MaximumBlockReward / big8
        (acc.1.AddBalance uncle.Coinbase r, acc.2 + MaximumBlockReward / big32))
      (statedb, MaximumBlockReward)
    some (paid.1.AddBalance header.Coinbase paid.2)
  | some (feat, _) =>
    if feat.type ≠ some "ecip1017" then none
    else
      match feat.era with
      | none => none
      | some eraLen =>
        if eraLen ≤ 0 then none
        else
          let era := GetBlockEra header.Number eraLen
          let wr := GetBlockWinnerRewardByEra era + GetBlockWinnerRewardForUnclesByEra era uncles
          let statedb := statedb.AddBalance header.Coinbase wr
          some (uncles.foldl (fun statedb uncle =>
            statedb.AddBalance uncle.Coinbase (GetBlockUncleRewardByEra era header uncle)) statedb)

/-! ### The schedules -/

/-- What one call of `AccumulateRewards` pays an address: `winner` if it is the block's
coinbase, and `reward u` for each uncle `u` it mined. -/
def credits (coinbase : Address) (winner : Int) (uncles : List Header) (reward : Header → Int)
    (a : Address) : Int :=
  (if a = coinbase then winner else 0) + ((uncles.filter (·.Coinbase = a)).map reward).sum

/-- ECIP-1017's reward of the winner in era `e`: five ether times `(4/5)^e`, rounded down. -/
def eraReward (e : Int) : Int := 5 * 10 ^ 18 * 4 ^ e.toNat / 5 ^ e.toNat

/-- The original schedule, for a block of number `header.Number`. -/
def preEcip1017Credits (header : Header) (uncles : List Header) : Address → Int :=
  credits header.Coinbase (5 * 10 ^ 18 + uncles.length * (5 * 10 ^ 18 / 32)) uncles
    fun u => (u.Number + 8 - header.Number) * (5 * 10 ^ 18) / 8

/-- ECIP-1017's schedule in era `e`: the original uncle rewards in era 0, one thirty-second
of the winner's reward from then on. -/
def ecip1017Credits (header : Header) (uncles : List Header) (e : Int) : Address → Int :=
  credits header.Coinbase (eraReward e + uncles.length * (eraReward e / 32)) uncles
    fun u => if e = 0 then (u.Number + 8 - header.Number) * (5 * 10 ^ 18) / 8
      else eraReward e / 32

/-- In the first era ECIP-1017 pays what the original schedule pays. -/
theorem ecip1017Credits_zero (header : Header) (uncles : List Header) :
    ecip1017Credits header uncles 0 = preEcip1017Credits header uncles := by
  funext a
  simp [ecip1017Credits, preEcip1017Credits, eraReward]

/-! ### The era -/

section Era

variable {n L : Int}

theorem GetBlockEra_of_pos (hn : 1 ≤ n) (L : Int) :
    GetBlockEra n L = (n - (n - 1) % L) / L := by
  have hsign : ¬ n.sign < 1 := by rw [Int.sign_eq_one_of_pos (by omega)]; omega
  simp [GetBlockEra, hsign]

/-- For eras of two blocks or more, `GetBlockEra` is ECIP-1017's era `(n - 1) / L`. -/
theorem GetBlockEra_of_two_le (hn : 1 ≤ n) (hL : 2 ≤ L) : GetBlockEra n L = (n - 1) / L := by
  rw [GetBlockEra_of_pos hn]
  -- `n - (n - 1) % L` is `L * ((n - 1) / L) + 1`, and the `1` is lost in the division
  have hbase : n - (n - 1) % L = 1 + L * ((n - 1) / L) := by
    have := Int.mul_ediv_add_emod (n - 1) L
    omega
  rw [hbase, Int.add_mul_ediv_left _ _ (by omega), Int.ediv_eq_zero_of_lt (by omega) (by omega),
    zero_add]

/-- For eras of one block, `GetBlockEra` is the block number itself, one more than ECIP-1017's
era. -/
theorem GetBlockEra_one (hn : 1 ≤ n) : GetBlockEra n 1 = n := by
  rw [GetBlockEra_of_pos hn, Int.emod_one, sub_zero, Int.ediv_one]

end Era

/-! ### The rewards of an era -/

theorem GetBlockWinnerRewardByEra_eq (era : Int) : GetBlockWinnerRewardByEra era = eraReward era := by
  unfold GetBlockWinnerRewardByEra eraReward
  split_ifs with h
  · subst h
    rfl
  · rfl

theorem GetBlockWinnerRewardForUnclesByEra_eq (era : Int) (uncles : List Header) :
    GetBlockWinnerRewardForUnclesByEra era uncles = uncles.length * (eraReward era / 32) := by
  have hloop : ∀ (l : List Header) (r : Int),
      l.foldl (fun r _ => r + getEraUncleBlockReward era) r = r + l.length * (eraReward era / 32) := by
    intro l
    induction l with
    | nil => simp
    | cons _ l ih =>
      intro r
      rw [List.foldl_cons, ih, getEraUncleBlockReward, GetBlockWinnerRewardByEra_eq, big32,
        List.length_cons]
      push_cast
      ring
  rw [GetBlockWinnerRewardForUnclesByEra, hloop, zero_add]

/-! ### Paying a list of uncles -/

/-- Crediting each uncle's coinbase in turn pays every address the sum of what its uncles
earn. -/
theorem foldl_AddBalance (reward : Header → Int) :
    ∀ (uncles : List Header) (s : StateDB), s.Addressed →
      (uncles.foldl (fun s u => s.AddBalance u.Coinbase (reward u)) s).Addressed ∧
      ∀ a, ((uncles.foldl (fun s u => s.AddBalance u.Coinbase (reward u)) s).GetBalance a).1 =
        (s.GetBalance a).1 + ((uncles.filter (·.Coinbase = a)).map reward).sum := by
  intro uncles
  induction uncles with
  | nil => simp
  | cons u uncles ih =>
    intro s hs
    obtain ⟨hs', -, hbal⟩ := StateDB.AddBalance_spec hs u.Coinbase (reward u)
    obtain ⟨hfold, hfoldbal⟩ := ih _ hs'
    refine ⟨hfold, fun a => ?_⟩
    rw [List.foldl_cons, hfoldbal, hbal]
    by_cases ha : a = u.Coinbase
    · simp [ha]
      ring
    · simp [ha, Ne.symm ha]

theorem GetBlockUncleRewardByEra_eq (era : Int) (header uncle : Header) :
    GetBlockUncleRewardByEra era header uncle =
      if era = 0 then (uncle.Number + 8 - header.Number) * (5 * 10 ^ 18) / 8
      else eraReward era / 32 := by
  simp only [GetBlockUncleRewardByEra, getEraUncleBlockReward, GetBlockWinnerRewardByEra_eq,
    big8, big32, MaximumBlockReward]

/-! ### What `AccumulateRewards` pays -/

section Pay

variable {config : ChainConfig} {statedb : StateDB} (header : Header) (uncles : List Header)

/-- Without a `reward` feature the original schedule is paid. -/
theorem AccumulateRewards_unconfigured (hfeat : config.HasFeature "reward" = none)
    (hs : statedb.Addressed) :
    ∃ s', AccumulateRewards config statedb header uncles = some s' ∧ s'.Addressed ∧
      ∀ a, (s'.GetBalance a).1 = (statedb.GetBalance a).1 + preEcip1017Credits header uncles a := by
  let reward (u : Header) : Int := (u.Number + big8 - header.Number) * MaximumBlockReward / big8
  -- the loop pays the uncles and counts one thirty-second of five ether per uncle
  have hloop : ∀ (l : List Header) (s : StateDB) (r : Int),
      l.foldl (fun (acc : StateDB × Int) uncle =>
          (acc.1.AddBalance uncle.Coinbase (reward uncle), acc.2 + MaximumBlockReward / big32))
          (s, r) =
        (l.foldl (fun s u => s.AddBalance u.Coinbase (reward u)) s,
          r + l.length * (MaximumBlockReward / big32)) := by
    intro l
    induction l with
    | nil => simp
    | cons u l ih =>
      intro s r
      simp only [List.foldl_cons, ih, List.length_cons, Prod.mk.injEq, true_and]
      push_cast
      ring
  obtain ⟨hs1, hbal1⟩ := foldl_AddBalance reward uncles statedb hs
  obtain ⟨hs2, -, hbal2⟩ := StateDB.AddBalance_spec hs1 header.Coinbase
    (MaximumBlockReward + uncles.length * (MaximumBlockReward / big32))
  refine ⟨_, ?_, hs2, fun a => ?_⟩
  · simp only [AccumulateRewards, hfeat]
    rw [hloop]
  · rw [hbal2, hbal1, preEcip1017Credits, credits]
    simp only [reward, big8, big32, MaximumBlockReward]
    ring

/-- Under an ECIP-1017 feature with a positive era length, the schedule of the era that
`GetBlockEra` computes is paid. -/
theorem AccumulateRewards_ecip1017_era {feat : ForkFeature} {fork : Fork} {L : Int}
    (hfeat : config.HasFeature "reward" = some (feat, fork)) (htype : feat.type = some "ecip1017")
    (hera : feat.era = some L) (hL : 0 < L) (hs : statedb.Addressed) :
    ∃ s', AccumulateRewards config statedb header uncles = some s' ∧ s'.Addressed ∧
      ∀ a, (s'.GetBalance a).1 =
        (statedb.GetBalance a).1 + ecip1017Credits header uncles (GetBlockEra header.Number L) a := by
  let era := GetBlockEra header.Number L
  let wr := eraReward era + uncles.length * (eraReward era / 32)
  obtain ⟨hs1, -, hbal1⟩ := StateDB.AddBalance_spec hs header.Coinbase wr
  obtain ⟨hs2, hbal2⟩ := foldl_AddBalance (GetBlockUncleRewardByEra era header) uncles _ hs1
  refine ⟨_, ?_, hs2, fun a => ?_⟩
  · have hpos : ¬ L ≤ 0 := by omega
    simp only [AccumulateRewards, hfeat, htype, hera, hpos, ne_eq, not_true_eq_false, if_false,
      GetBlockWinnerRewardByEra_eq, GetBlockWinnerRewardForUnclesByEra_eq]
    rfl
  · have hreward : GetBlockUncleRewardByEra era header = fun u =>
        if era = 0 then (u.Number + 8 - header.Number) * (5 * 10 ^ 18) / 8
        else eraReward era / 32 :=
      funext (GetBlockUncleRewardByEra_eq era header)
    rw [hbal2, hbal1, hreward, ecip1017Credits, credits, add_assoc]

end Pay

/-! ### ECIP-1017 against the era it specifies -/

theorem AccumulateRewards_ecip1017 (config : ChainConfig) (feat : ForkFeature) (fork : Fork)
    (hfeat : config.HasFeature "reward" = some (feat, fork)) (htype : feat.type = some "ecip1017")
    (L : Int) (hera : feat.era = some L) (hL : 1 ≤ L) (statedb : StateDB)
    (hs : statedb.Addressed) (header : Header) (hn : 1 ≤ header.Number) (uncles : List Header) :
    ∃ s', AccumulateRewards config statedb header uncles = some s' ∧
      (∀ a, (s'.GetBalance a).1 = (statedb.GetBalance a).1 +
        ecip1017Credits header uncles
          (if L = 1 then header.Number else (header.Number - 1) / L) a) ∧
      (2 ≤ L → header.Number ≤ L → ∀ config' : ChainConfig, config'.HasFeature "reward" = none →
        ∃ s'', AccumulateRewards config' statedb header uncles = some s'' ∧
          ∀ a, (s''.GetBalance a).1 = (s'.GetBalance a).1) := by
  obtain ⟨s', hrun, -, hbal⟩ :=
    AccumulateRewards_ecip1017_era header uncles hfeat htype hera (by omega) hs
  -- the era `GetBlockEra` computes: the block number for eras of one block
  have hera' : GetBlockEra header.Number L =
      if L = 1 then header.Number else (header.Number - 1) / L := by
    split_ifs with h1
    · rw [h1, GetBlockEra_one hn]
    · exact GetBlockEra_of_two_le hn (by omega)
  refine ⟨s', hrun, fun a => hera' ▸ hbal a, ?_⟩
  intro hL2 hnL config' hnone
  obtain ⟨s'', hrun'', -, hbal''⟩ := AccumulateRewards_unconfigured header uncles hnone hs
  -- blocks `1..L` are in era 0, where both schedules agree
  have hzero : GetBlockEra header.Number L = 0 := by
    rw [GetBlockEra_of_two_le hn hL2]
    exact Int.ediv_eq_zero_of_lt (by omega) (by omega)
  refine ⟨s'', hrun'', fun a => ?_⟩
  rw [hbal'', hbal a, hzero, ecip1017Credits_zero]

/-- ECIP-1017 eras of `L` blocks from the genesis. -/
def ecip1017Config (L : Int) : ChainConfig :=
  ⟨[⟨some 0, [⟨"reward", some "ecip1017", none, some L⟩]⟩]⟩

/-- An empty state database. -/
def emptyState : StateDB := New ⟨fun _ => [], fun _ => 0, 0⟩ fun _ => none

theorem AccumulateRewards_ecip1017_first_block :
    (∃ s', AccumulateRewards (ecip1017Config 1) emptyState ⟨1, 7⟩ [] = some s' ∧
      (∀ a, (s'.GetBalance a).1 = (emptyState.GetBalance a).1 +
        ecip1017Credits ⟨1, 7⟩ [] (if (1 : Int) = 1 then 1 else (1 - 1) / 1) a) ∧
      ((2 : Int) ≤ 1 → (1 : Int) ≤ 1 → ∀ config' : ChainConfig,
        config'.HasFeature "reward" = none →
        ∃ s'', AccumulateRewards config' emptyState ⟨1, 7⟩ [] = some s'' ∧
          ∀ a, (s''.GetBalance a).1 = (s'.GetBalance a).1)) ∧
    ecip1017Credits ⟨1, 7⟩ [] 1 7 = 4 * 10 ^ 18 ∧ ecip1017Credits ⟨1, 7⟩ [] 0 7 = 5 * 10 ^ 18 :=
  ⟨AccumulateRewards_ecip1017 (ecip1017Config 1) _ _ rfl rfl 1 rfl le_rfl emptyState
      (StateDB.Addressed_New _ _) ⟨1, 7⟩ le_rfl [],
    by decide, by decide⟩

end StateProcessor
end Core
end Ethcore
