import Ethcore.Lib.BitSet
import Ethcore.Vm.Contracts
import Ethcore.State.StateDB

/-!
# Log blooms: `bloom9.go`

A bloom is 2048 bits, kept as 256 big-endian bytes.  `bloom9` sets three bits for a byte
string, picked by the first six bytes of its Keccak-256 hash; `LogsBloom` sets those of every
log's address and topics, `CreateBloom` those of every receipt's logs, and `BloomLookup` says
whether all three bits of a string are set.

The bits meet again across the conversions: `CreateBloom` writes the number it built through
`big.Int.Bytes`, which drops leading zero bytes, and `BytesToBloom`, which right-aligns them,
and `BloomLookup` reads the same number back (`value_CreateBloom`).  So the bloom of a list of
receipts is the union of the bit sets of their logs' addresses and topics (`bitSet_CreateBloom`),
a lookup of any of them succeeds, and the bloom of a part of the receipts has no bit the
bloom of all of them lacks (`CreateBloom_no_false_negatives`).

A receipt keeps the one field `CreateBloom` reads, its logs; addresses and topics are the
numbers of `State.Log`, written as the 20 and 32 bytes of `Address.Bytes()` and `Hash[:]`.
-/

namespace Ethcore
namespace Types

open Common Vm

/-- `bloomLength`, in bytes. -/
def bloomLength : Nat := 256

/-- `Bloom`: 256 bytes. -/
structure Bloom where
  bytes : Bytes
  length_bytes : bytes.length = bloomLength

/-- The bloom of no bits, `var bloom Bloom`. -/
def Bloom.zero : Bloom := ⟨List.replicate bloomLength 0, List.length_replicate⟩

/-- `SetBytes`: copy `d` into the last `len(d)` bytes; longer than the bloom, it panics. -/
def Bloom.SetBytes (b : Bloom) (d : Bytes) : Option Bloom :=
  if h : b.bytes.length < d.length then none
  else some ⟨b.bytes.take (bloomLength - d.length) ++ d, by
    simp only [List.length_append, List.length_take, b.length_bytes] at h ⊢
    omega⟩

/-- `BytesToBloom`. -/
def BytesToBloom (b : Bytes) : Option Bloom := Bloom.zero.SetBytes b

/-- The bit `bloom9` sets for the hash bytes `i = 2k` and `i + 1`:
`(uint(b[i+1]) + uint(b[i]) << 8) & 2047`. -/
def bloomBit (h : Bytes) (hlen : h.length = 32) (k : Fin 3) : Nat :=
  ((h.get ⟨2 * k + 1, by omega⟩).toNat + ((h.get ⟨2 * k, by omega⟩).toNat <<< 8)) &&& 2047

/-- `bloom9`: the three bits of the hash pairs at `i = 0, 2, 4`. -/
def bloom9 (c : Crypto) (b : Bytes) : Nat :=
  (List.finRange 3).foldl
    (fun r k => r ||| 1 <<< bloomBit (c.Keccak256 b) (c.length_Keccak256 b) k) 0

/-- `LogsBloom`: the bits of every log's address, then of each of its topics. -/
def LogsBloom (c : Crypto) (logs : List State.Log) : Nat :=
  logs.foldl (fun bin log =>
    let bin := bin ||| bloom9 c (BigEndian.fixed 20 log.Address)
    log.Topics.foldl (fun bin b => bin ||| bloom9 c (BigEndian.fixed 32 b)) bin) 0

/-- The field of `Receipt` that `CreateBloom` reads. -/
structure Receipt where
  Logs : List State.Log

/-- `CreateBloom`: the bits of every receipt's logs, written through `big.Int.Bytes`. -/
def CreateBloom (c : Crypto) (receipts : List Receipt) : Option Bloom :=
  let bin := receipts.foldl (fun bin receipt => bin ||| LogsBloom c receipt.Logs) 0
  BytesToBloom (BigEndian.minimal bin)

/-- `BloomLookup`: whether every bit `bloom9` sets for `topic` is set in the bloom. -/
def BloomLookup (c : Crypto) (bin : Bloom) (topic : Bytes) : Bool :=
  let bloom := BigEndian.value bin.bytes
  let cmp := bloom9 c topic
  (bloom &&& cmp) == cmp

/-! ### The bits of a bloom -/

/-- The strings whose bits a list of logs sets: each log's address, then its topics. -/
def logItems (logs : List State.Log) : List Bytes :=
  logs.flatMap fun log => BigEndian.fixed 20 log.Address :: log.Topics.map (BigEndian.fixed 32)

/-- The strings whose bits a list of receipts sets. -/
def receiptItems (receipts : List Receipt) : List Bytes :=
  receipts.flatMap fun receipt => logItems receipt.Logs

/-- `bloom9` sets bits below 2048 only. -/
theorem bitSet_bloom9_lt (c : Crypto) (b : Bytes) : ∀ i ∈ (bloom9 c b).bitSet, i < 2048 := by
  intro i hi
  rw [bloom9, Nat.bitSet_foldl_or (fun k => 1 <<< bloomBit (c.Keccak256 b) (c.length_Keccak256 b) k)]
    at hi
  simp only [Nat.bitSet_zero, Set.empty_union, Nat.bitSet_one_shiftLeft, Set.mem_iUnion,
    Set.mem_singleton_iff] at hi
  obtain ⟨k, -, rfl⟩ := hi
  exact Nat.lt_succ_of_le (Nat.and_le_right)

/-- `LogsBloom` is the fold of `|||` over the logs' addresses and topics. -/
theorem LogsBloom_eq (c : Crypto) (logs : List State.Log) :
    LogsBloom c logs = (logItems logs).foldl (fun bin x => bin ||| bloom9 c x) 0 := by
  rw [LogsBloom, logItems, List.foldl_flatMap]
  congr 1
  funext bin log
  rw [List.foldl_cons, List.foldl_map]

/-- The number `CreateBloom` builds is the fold of `|||` over the receipts' items. -/
theorem foldl_LogsBloom_eq (c : Crypto) (receipts : List Receipt) :
    receipts.foldl (fun bin receipt => bin ||| LogsBloom c receipt.Logs) 0 =
      (receiptItems receipts).foldl (fun bin x => bin ||| bloom9 c x) 0 := by
  rw [receiptItems, List.foldl_flatMap]
  congr 1
  funext bin receipt
  rw [LogsBloom_eq, ← Nat.foldl_or_eq_or_foldl]

/-- The number `CreateBloom` builds has the bits of the receipts' logs, and no others. -/
theorem bitSet_foldl_LogsBloom (c : Crypto) (receipts : List Receipt) :
    (receipts.foldl (fun bin receipt => bin ||| LogsBloom c receipt.Logs) 0).bitSet =
      ⋃ x ∈ receiptItems receipts, (bloom9 c x).bitSet := by
  rw [foldl_LogsBloom_eq, Nat.bitSet_foldl_or, Nat.bitSet_zero, Set.empty_union]

/-- `CreateBloom` does not panic, and `BloomLookup` reads back the number it built. -/
theorem value_CreateBloom (c : Crypto) (receipts : List Receipt) :
    ∃ bloom, CreateBloom c receipts = some bloom ∧ BigEndian.value bloom.bytes =
      receipts.foldl (fun bin receipt => bin ||| LogsBloom c receipt.Logs) 0 := by
  set bin := receipts.foldl (fun bin receipt => bin ||| LogsBloom c receipt.Logs) 0 with hbin
  -- every bit lies below 2048, so `big.Int.Bytes` gives at most 256 bytes
  have hlt : bin < 2 ^ (8 * 256) := by
    apply Nat.lt_two_pow_of_bitSet
    intro i hi
    rw [hbin, bitSet_foldl_LogsBloom] at hi
    simp only [Set.mem_iUnion] at hi
    obtain ⟨x, -, hx⟩ := hi
    have := bitSet_bloom9_lt c x i hx
    omega
  have hlen : (BigEndian.minimal bin).length ≤ bloomLength := by
    rw [BigEndian.length_minimal_le_iff, bloomLength,
      show (256 : Nat) ^ 256 = 2 ^ (8 * 256) by rw [pow_mul]; norm_num]
    exact hlt
  have hfits : ¬ Bloom.zero.bytes.length < (BigEndian.minimal bin).length := by
    simpa only [Bloom.zero, List.length_replicate, not_lt] using hlen
  refine ⟨_, by rw [CreateBloom, BytesToBloom, Bloom.SetBytes, dif_neg hfits], ?_⟩
  simp [Bloom.zero, List.take_replicate, hbin]

/-- The address and the topics of a log of one of the receipts are items of the receipts. -/
theorem mem_receiptItems {receipts : List Receipt} {r : Receipt} {log : State.Log}
    (hr : r ∈ receipts) (hlog : log ∈ r.Logs) :
    BigEndian.fixed 20 log.Address ∈ receiptItems receipts ∧
      ∀ t ∈ log.Topics, BigEndian.fixed 32 t ∈ receiptItems receipts := by
  simp only [receiptItems, logItems, List.mem_flatMap, List.mem_cons, List.mem_map]
  exact ⟨⟨r, hr, log, hlog, .inl rfl⟩, fun t ht => ⟨r, hr, log, hlog, .inr ⟨t, ht, rfl⟩⟩⟩

/-- The items of some of the receipts are items of all of them. -/
theorem receiptItems_mono {sub receipts : List Receipt} (hsub : ∀ r ∈ sub, r ∈ receipts) :
    ∀ x ∈ receiptItems sub, x ∈ receiptItems receipts := by
  simp only [receiptItems, List.mem_flatMap]
  rintro x ⟨r, hr, hx⟩
  exact ⟨r, hsub r hr, hx⟩

/-- A lookup succeeds exactly when the string's bits are among the bloom's. -/
theorem BloomLookup_iff (c : Crypto) (bin : Bloom) (topic : Bytes) :
    BloomLookup c bin topic = true ↔
      (bloom9 c topic).bitSet ⊆ (BigEndian.value bin.bytes).bitSet := by
  rw [BloomLookup, beq_iff_eq, Nat.land_eq_right_iff]

/-- The bloom of a list of receipts finds every log address and topic of them, and has every
bit the bloom of a part of them has. -/
theorem CreateBloom_no_false_negatives (c : Crypto) (receipts : List Receipt) :
    ∃ bloom, CreateBloom c receipts = some bloom ∧
      (∀ r ∈ receipts, ∀ log ∈ r.Logs,
        BloomLookup c bloom (BigEndian.fixed 20 log.Address) = true ∧
          ∀ t ∈ log.Topics, BloomLookup c bloom (BigEndian.fixed 32 t) = true) ∧
      ∀ sub : List Receipt, (∀ r ∈ sub, r ∈ receipts) →
        ∃ bloom', CreateBloom c sub = some bloom' ∧
          (BigEndian.value bloom'.bytes).bitSet ⊆ (BigEndian.value bloom.bytes).bitSet := by
  obtain ⟨bloom, hcreate, hval⟩ := value_CreateBloom c receipts
  have hbits : (BigEndian.value bloom.bytes).bitSet =
      ⋃ x ∈ receiptItems receipts, (bloom9 c x).bitSet := by
    rw [hval, bitSet_foldl_LogsBloom]
  -- an item's bits are among the bloom's
  have hitem : ∀ x ∈ receiptItems receipts, BloomLookup c bloom x = true := by
    intro x hx
    rw [BloomLookup_iff, hbits]
    exact Set.subset_iUnion₂ (s := fun x (_ : x ∈ receiptItems receipts) => (bloom9 c x).bitSet)
      x hx
  refine ⟨bloom, hcreate, fun r hr log hlog => ?_, fun sub hsub => ?_⟩
  · obtain ⟨haddr, htopics⟩ := mem_receiptItems hr hlog
    exact ⟨hitem _ haddr, fun t ht => hitem _ (htopics t ht)⟩
  · obtain ⟨bloom', hcreate', hval'⟩ := value_CreateBloom c sub
    refine ⟨bloom', hcreate', ?_⟩
    rw [hval', bitSet_foldl_LogsBloom, hbits]
    intro i hi
    simp only [Set.mem_iUnion] at hi ⊢
    obtain ⟨x, hx, hix⟩ := hi
    exact ⟨x, receiptItems_mono hsub x hx, hix⟩

end Types
end Ethcore
