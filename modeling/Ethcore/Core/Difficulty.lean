import Mathlib
import Ethcore.Core.BlockValidator

/-!
# The difficulty schedule of a configuration

`CalcDifficulty` takes the rule of the `difficulty` feature in force at the block, and the
rules share one adjustment (`adjustedDifficulty`) and differ in the exponential term, "the
bomb", and in the block number its period count is taken from.  Homestead takes it from the
block number; the ECIP-1010 rule, from a fork at block `F` with a length `Lg`, freezes it at
`F` for `Lg` blocks (`calcDifficultyDiehard`) and then lets it run again `Lg` blocks behind
(`calcDifficultyExplosion`).

`GetFeature` keeps the last matching feature among the forks that have started, in the order
of the fork list; `GetFeature_eq_getLast?` states it against the list of the scheduled
features (`ChainConfig.scheduled`).  A configuration with a Homestead fork followed by an
ECIP-1010 fork then has the difficulty of the abstract schedule `bombNumber`, `bomb`
(`CalcDifficulty_homestead_ecip1010`), whose bomb never decreases from one block to the next
and never jumps by more than one block's worth.
-/

namespace Ethcore
namespace Core

/-! ### Feature lookup -/

/-- The features with the id that `GetFeature` can find, each with its fork's block, in the
order of the fork list: a fork without a block never starts. -/
def ChainConfig.scheduled (c : ChainConfig) (id : String) : List (ForkFeature × Int) :=
  c.Forks.flatMap fun f =>
    match f.Block with
    | none => []
    | some block => (f.Features.filter (·.ID = id)).map (·, block)

/-- A left fold that keeps the last element of each list it meets keeps the last element of
their concatenation. -/
theorem foldl_getLast?_or {α β : Type} (g : α → List β) :
    ∀ (l : List α) (init : Option β),
      l.foldl (fun found x => (g x).getLast?.or found) init = (l.flatMap g).getLast?.or init := by
  intro l
  induction l with
  | nil => simp
  | cons x l ih =>
    intro init
    rw [List.foldl_cons, ih, List.flatMap_cons, List.getLast?_append, Option.or_assoc]

/-- The scan over one fork's features keeps the last one with the id. -/
theorem foldl_features (id : String) (block : Int) :
    ∀ (fs : List ForkFeature) (found : Option (ForkFeature × Int)),
      fs.foldl (fun found ff => if ff.ID = id then some (ff, block) else found) found =
        ((fs.filter (·.ID = id)).map (·, block)).getLast?.or found := by
  intro fs
  induction fs with
  | nil => simp
  | cons ff fs ih =>
    intro found
    rw [List.foldl_cons, ih]
    by_cases h : ff.ID = id
    · simp only [h, if_true, List.filter_cons, decide_true, List.map_cons]
      cases hl : (List.map (·, block) (List.filter (·.ID = id) fs)).getLast? <;>
        simp [List.getLast?_cons, hl]
    · simp [h]

/-- `GetFeature` finds the last scheduled feature whose fork has started by the block. -/
theorem GetFeature_eq_getLast? (c : ChainConfig) (num : Int) {id : String} (hid : id ≠ "") :
    c.GetFeature num id = ((c.scheduled id).filter (·.2 ≤ num)).getLast? := by
  obtain ⟨forks⟩ := c
  rw [← Option.or_none (o := List.getLast? _)]
  simp only [ChainConfig.GetFeature, ChainConfig.scheduled, if_neg hid]
  generalize (none : Option (ForkFeature × Int)) = found
  -- the fold over the forks, against the scheduled features of the forks it has passed
  induction forks generalizing found with
  | nil => simp
  | cons f forks ih =>
    rw [List.foldl_cons, ih, List.flatMap_cons, List.filter_append, List.getLast?_append,
      Option.or_assoc]
    congr 1
    obtain ⟨_ | block, features⟩ := f
    · simp
    · by_cases hb : block ≤ num
      · simp [hb, foldl_features, List.filter_map, Function.comp_def]
      · simp [hb, not_le.mp hb, List.filter_map, Function.comp_def]

/-! ### The schedule -/

/-- The block number that the bomb of block `n` counts periods of, under a Homestead rule
followed by an ECIP-1010 rule from block `F` with length `Lg`: the block number up to the
fork, `F` for `Lg` blocks, and `Lg` blocks behind from then on. -/
def bombNumber (F Lg n : Int) : Int := if n < F then n else if n < F + Lg then F else n - Lg

/-- The bomb of block number `k`: `2^(k / 100000 - 2)` from the second period of `100000`
blocks on. -/
def bomb (k : Int) : Int := if 2 ≤ k / 100000 then 2 ^ (k / 100000 - 2).toNat else 0

theorem expFactor_eq_bomb (k : Int) : expFactor (k / ExpDiffPeriod) = bomb k := by
  unfold expFactor bomb ExpDiffPeriod
  by_cases h : 2 ≤ k / 100000
  · rw [if_pos (by omega), if_pos h]
  · rw [if_neg (by omega), if_neg h]

/-- The adjustment the rules share, in the words of EIP-2. -/
theorem adjustedDifficulty_eq (time parentTime : Nat) (parentDiff : Int) :
    adjustedDifficulty time parentTime parentDiff =
      max (parentDiff + parentDiff / 2048 * max (1 - ((time : Int) - parentTime) / 10) (-99))
        131072 := by
  simp only [adjustedDifficulty, DifficultyBoundDivisor, MinimumDifficulty, ← max_def_lt]

theorem bomb_nonneg (k : Int) : 0 ≤ bomb k := by
  unfold bomb
  split_ifs <;> positivity

theorem bomb_mono : Monotone bomb := by
  intro k k' hk
  have hq : k / 100000 ≤ k' / 100000 := Int.ediv_le_ediv (by norm_num) hk
  unfold bomb
  by_cases h : 2 ≤ k / 100000
  · rw [if_pos h, if_pos (h.trans hq)]
    exact pow_le_pow_right₀ (by norm_num) (by omega)
  · rw [if_neg h]
    exact bomb_nonneg k'

theorem bombNumber_mono (F Lg : Int) : Monotone (bombNumber F Lg) := by
  intro n n' hn
  unfold bombNumber
  split_ifs <;> omega

/-- For a nonnegative length the bomb number moves by at most one from a block to the
next. -/
theorem bombNumber_succ_le (F : Int) {Lg : Int} (hLg : 0 ≤ Lg) (n : Int) :
    bombNumber F Lg (n + 1) ≤ bombNumber F Lg n + 1 := by
  unfold bombNumber
  split_ifs <;> omega

/-! ### The difficulty of a Homestead and ECIP-1010 configuration -/

section HomesteadEcip1010

variable {config : ChainConfig} {fH fF : ForkFeature} {H F Lg : Int}

/-- Under a Homestead rule from block `H` followed by an ECIP-1010 rule from block `F` with
length `Lg`, every block from `H` on has the adjusted difficulty plus the bomb of its bomb
number. -/
theorem CalcDifficulty_homestead_ecip1010
    (hsched : config.scheduled "difficulty" = [(fH, H), (fF, F)])
    (hH : fH.type = some "homestead") (hF : fF.type = some "ecip1010")
    (hLg : fF.length = some Lg) (time parentTime : Nat) (parentNumber parentDiff : Int)
    (hn : H ≤ parentNumber + 1) :
    CalcDifficulty config time parentTime parentNumber parentDiff =
      some (adjustedDifficulty time parentTime parentDiff +
        bomb (bombNumber F Lg (parentNumber + 1))) := by
  have hfeat := @GetFeature_eq_getLast? config (parentNumber + 1) "difficulty" (by decide)
  rw [hsched] at hfeat
  unfold CalcDifficulty
  by_cases hF' : F ≤ parentNumber + 1
  · -- the ECIP-1010 rule is in force
    have hget : config.GetFeature (parentNumber + 1) "difficulty" = some (fF, F) := by
      simp [hfeat, hn, hF']
    simp only [hget, hF, hLg, Option.getD_some]
    split_ifs with hexp
    · -- the bomb frozen at the fork block
      have hk : bombNumber F Lg (parentNumber + 1) = F := by
        rw [bombNumber, if_neg (by omega), if_pos hexp]
      rw [hk, calcDifficultyDiehard, expFactor_eq_bomb]
    · -- the bomb running again, `Lg` blocks behind
      have hk : bombNumber F Lg (parentNumber + 1) = parentNumber + 1 - Lg := by
        rw [bombNumber, if_neg (by omega), if_neg hexp]
      rw [hk, calcDifficultyExplosion, expFactor_eq_bomb]
      congr 3
      ring
  · -- only the Homestead rule has started
    have hget : config.GetFeature (parentNumber + 1) "difficulty" = some (fH, H) := by
      simp [hfeat, hn, hF']
    simp only [hget, hH, Option.getD_some]
    have hk : bombNumber F Lg (parentNumber + 1) = parentNumber + 1 := by
      rw [bombNumber, if_pos (by omega)]
    rw [hk, calcDifficultyHomestead, expFactor_eq_bomb]

end HomesteadEcip1010

theorem CalcDifficulty_schedule (config : ChainConfig) (fH fF : ForkFeature) (H F Lg : Int)
    (hsched : config.scheduled "difficulty" = [(fH, H), (fF, F)])
    (hH : fH.type = some "homestead") (hF : fF.type = some "ecip1010")
    (hLg : fF.length = some Lg) :
    (∀ (time parentTime : Nat) (parentNumber parentDiff : Int), H ≤ parentNumber + 1 →
      CalcDifficulty config time parentTime parentNumber parentDiff =
        some (max (parentDiff + parentDiff / 2048 *
            max (1 - ((time : Int) - parentTime) / 10) (-99)) 131072 +
          bomb (bombNumber F Lg (parentNumber + 1)))) ∧
    Monotone (fun n => bomb (bombNumber F Lg n)) ∧
    (0 ≤ Lg → ∀ n, bombNumber F Lg (n + 1) ≤ bombNumber F Lg n + 1) ∧
    (0 < Lg → bombNumber F Lg (F + Lg - 1) = F ∧ bombNumber F Lg (F + Lg) = F) := by
  refine ⟨fun time parentTime parentNumber parentDiff hn => ?_,
    Monotone.comp bomb_mono (bombNumber_mono F Lg), fun hLg0 n => bombNumber_succ_le F hLg0 n,
    fun hLg0 => ?_⟩
  · rw [CalcDifficulty_homestead_ecip1010 hsched hH hF hLg time parentTime parentNumber parentDiff hn,
      adjustedDifficulty_eq]
  · -- the last block of the frozen stretch and the first of the delayed one
    constructor
    · rw [bombNumber, if_neg (by omega), if_pos (by omega)]
    · rw [bombNumber, if_neg (by omega), if_neg (by omega), add_sub_cancel_right]

/-- The difficulty rules of the classic chain: Homestead from block 1150000, and ECIP-1010
from block 3000000 for 2000000 blocks. -/
def classicDifficultyConfig : ChainConfig :=
  ⟨[⟨some 1150000, [⟨"difficulty", some "homestead", none, none⟩]⟩,
    ⟨some 3000000, [⟨"difficulty", some "ecip1010", some 2000000, none⟩]⟩]⟩

theorem CalcDifficulty_schedule_classic :
    classicDifficultyConfig.scheduled "difficulty" =
      [(⟨"difficulty", some "homestead", none, none⟩, 1150000),
        (⟨"difficulty", some "ecip1010", some 2000000, none⟩, 3000000)] ∧
    ((∀ (time parentTime : Nat) (parentNumber parentDiff : Int), 1150000 ≤ parentNumber + 1 →
      CalcDifficulty classicDifficultyConfig time parentTime parentNumber parentDiff =
        some (max (parentDiff + parentDiff / 2048 *
            max (1 - ((time : Int) - parentTime) / 10) (-99)) 131072 +
          bomb (bombNumber 3000000 2000000 (parentNumber + 1)))) ∧
    Monotone (fun n => bomb (bombNumber 3000000 2000000 n)) ∧
    ((0 : Int) ≤ 2000000 → ∀ n, bombNumber 3000000 2000000 (n + 1) ≤ bombNumber 3000000 2000000 n + 1) ∧
    ((0 : Int) < 2000000 → bombNumber 3000000 2000000 (3000000 + 2000000 - 1) = 3000000 ∧
      bombNumber 3000000 2000000 (3000000 + 2000000) = 3000000)) :=
  ⟨rfl, CalcDifficulty_schedule classicDifficultyConfig _ _ 1150000 3000000 2000000 rfl rfl rfl rfl⟩

end Core
end Ethcore
