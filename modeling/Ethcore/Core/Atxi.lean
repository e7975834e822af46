import Ethcore.Common.Hexutil
import Ethcore.Types.Signing
import Mathlib.Data.List.Sort
import Mathlib.Data.List.Infix

/-!
# The address-transaction index: `atxi.go`

The index keeps one key per transaction and address, and no value:
`atx-` ‖ address ‖ block number (8 bytes, little-endian) ‖ direction (`f` or `t`) ‖ kind
(`s` or `c`) ‖ hash.  `WriteBlockAddTxIndexes` puts two keys for each transaction of a block,
under the sender and under the recipient, a contract creation's under the zero address.
`GetAddrTxs` walks the keys of one address in byte order, takes each apart by position, filters
them, sorts them by block and cuts a page; `RmAddrTx` deletes the first key of the hash under
the sender and, when the transaction has a recipient, the first under the recipient.

The database is the list of its keys, and its iterator the keys of a prefix in byte order.
`sort.Sort` comes from Go's runtime (`Runtime`).  A panic is `none`.

The keys a block puts are long enough to take apart (`WellFormed`, kept by both writes).  The
index and its reader do not agree with its remover: a contract creation's key under the zero
address survives `RmAddrTx`, and so does one of the two keys of a transfer to oneself; and a
query with a positive page start and a page end of `0` panics as soon as two keys match
(`GetAddrTxs_RmAddrTx_diverge`).
-/

namespace Ethcore
namespace Core
namespace Atxi

open Ethcore.Vm Ethcore.Types

/-! ### The database -/

/-- The index database: its keys; every value the index writes is `nil`. -/
structure Database where
  keys : List Bytes

namespace Database

/-- `Put(key, nil)`. -/
def Put (db : Database) (key : Bytes) : Database :=
  if key ∈ db.keys then db else ⟨key :: db.keys⟩

/-- `Delete(key)`. -/
def Delete (db : Database) (key : Bytes) : Database := ⟨db.keys.filter (· ≠ key)⟩

/-- `NewIteratorRange(util.BytesPrefix(pre))`: the keys that start with `pre`, in byte order. -/
def NewIteratorRange (db : Database) (pre : Bytes) : List Bytes :=
  (db.keys.filter pre.isPrefixOf).insertionSort fun a b => decide (a ≤ b)

theorem mem_NewIteratorRange {db : Database} {pre k : Bytes} :
    k ∈ db.NewIteratorRange pre ↔ k ∈ db.keys ∧ pre <+: k := by
  rw [NewIteratorRange, (List.perm_insertionSort _ _).mem_iff, List.mem_filter,
    List.isPrefixOf_iff_prefix]

theorem mem_foldl_Put {k : Bytes} : ∀ (puts : List Bytes) (db : Database),
    k ∈ (puts.foldl Put db).keys ↔ k ∈ puts ∨ k ∈ db.keys
  | [], db => by simp
  | key :: puts, db => by
    rw [List.foldl_cons, mem_foldl_Put puts]
    unfold Put
    split <;> simp only [List.mem_cons] <;> grind

theorem mem_foldl_Delete {k : Bytes} : ∀ (rs : List Bytes) (db : Database),
    k ∈ (rs.foldl Delete db).keys ↔ k ∈ db.keys ∧ k ∉ rs
  | [], db => by simp
  | r :: rs, db => by
    rw [List.foldl_cons, mem_foldl_Delete rs]
    simp only [Delete, List.mem_filter, List.mem_cons, decide_eq_true_eq]
    tauto

end Database

/-! ### Keys -/

/-- `txAddressIndexPrefix`, `"atx-"`. -/
def txAddressIndexPrefix : Bytes := [97, 116, 120, 45]

/-- `common.Address{}`. -/
def zeroAddress : Bytes := List.replicate 20 0

/-- `Address.IsEmpty`. -/
def IsEmpty (a : Bytes) : Bool := decide (a = zeroAddress)

/-- `binary.LittleEndian.PutUint64`. -/
def PutUint64 (v : UInt64) : Bytes := (BigEndian.fixed 8 v.toNat).reverse

/-- `binary.LittleEndian.Uint64`; `none` is the panic on fewer than eight bytes. -/
def Uint64 (b : Bytes) : Option UInt64 :=
  if 8 ≤ b.length then some (UInt64.ofNat (BigEndian.value (b.take 8).reverse)) else none

/-- `formatAddrTxIterator`: the prefix of an address's keys. -/
def formatAddrTxIterator (address : Bytes) : Bytes := txAddressIndexPrefix ++ address

/-- `formatAddrTxBytesIndex`. -/
def formatAddrTxBytesIndex (address blockNumber direction kindof txhash : Bytes) : Bytes :=
  txAddressIndexPrefix ++ address ++ blockNumber ++ direction ++ kindof ++ txhash

/-- `resolveAddrTxBytes`: address, block number, direction, kind and hash by position; `none`
is the panic of the slices on a key shorter than 34 bytes. -/
def resolveAddrTxBytes (key : Bytes) : Option (Bytes × Bytes × Bytes × Bytes × Bytes) :=
  if 34 ≤ key.length then
    some ((key.drop 4).take 20, (key.drop 24).take 8, (key.drop 32).take 1, (key.drop 33).take 1,
      key.drop 34)
  else none

theorem Uint64_PutUint64 (v : UInt64) : Uint64 (PutUint64 v) = some v := by
  unfold Uint64 PutUint64
  have hv : v.toNat < 256 ^ 8 := lt_of_lt_of_eq v.toNat_lt (by norm_num)
  rw [if_pos (by simp), List.take_of_length_le (by simp), List.reverse_reverse,
    BigEndian.value_fixed, Nat.mod_eq_of_lt hv]
  simp

@[simp] theorem length_PutUint64 (v : UInt64) : (PutUint64 v).length = 8 := by
  simp [PutUint64]

theorem resolveAddrTxBytes_format {address blockNumber direction kindof : Bytes} (txhash : Bytes)
    (ha : address.length = 20) (hb : blockNumber.length = 8) (hd : direction.length = 1)
    (hk : kindof.length = 1) :
    resolveAddrTxBytes (formatAddrTxBytesIndex address blockNumber direction kindof txhash) =
      some (address, blockNumber, direction, kindof, txhash) := by
  have hp : txAddressIndexPrefix.length = 4 := rfl
  unfold resolveAddrTxBytes formatAddrTxBytesIndex
  rw [if_pos (by simp [hp, ha, hb, hd, hk]; omega)]
  simp only [List.append_assoc, Option.some.injEq, Prod.mk.injEq]
  -- each field starts where the ones before it end
  refine ⟨?_, ?_, ?_, ?_, ?_⟩
  · rw [List.drop_left' hp, List.take_left' ha]
  · rw [show 24 = (txAddressIndexPrefix ++ address).length by simp [hp, ha], ← List.append_assoc,
      List.drop_left, List.take_left' hb]
  · rw [show 32 = (txAddressIndexPrefix ++ address ++ blockNumber).length by simp [hp, ha, hb],
      ← List.append_assoc, ← List.append_assoc, List.drop_left, List.take_left' hd]
  · rw [show 33 = (txAddressIndexPrefix ++ address ++ blockNumber ++ direction).length by
      simp [hp, ha, hb, hd], ← List.append_assoc, ← List.append_assoc, ← List.append_assoc,
      List.drop_left, List.take_left' hk]
  · rw [show 34 = (txAddressIndexPrefix ++ address ++ blockNumber ++ direction ++ kindof).length by
      simp [hp, ha, hb, hd, hk], ← List.append_assoc, ← List.append_assoc, ← List.append_assoc,
      ← List.append_assoc, List.drop_left]

theorem prefix_format (address blockNumber direction kindof txhash : Bytes) :
    formatAddrTxIterator address <+: formatAddrTxBytesIndex address blockNumber direction kindof txhash := by
  unfold formatAddrTxIterator formatAddrTxBytesIndex
  exact ⟨blockNumber ++ direction ++ kindof ++ txhash, by simp⟩

/-- Addresses of twenty bytes have one key prefix each. -/
theorem eq_of_prefix_formatAddrTxIterator {a b k : Bytes} (ha : a.length = 20) (hb : b.length = 20)
    (hka : formatAddrTxIterator a <+: k) (hkb : formatAddrTxIterator b <+: k) : a = b := by
  have hlen : (formatAddrTxIterator a).length = (formatAddrTxIterator b).length := by
    simp [formatAddrTxIterator, ha, hb]
  have hab := List.prefix_of_prefix_length_le hka hkb hlen.le
  exact List.append_cancel_left (List.IsPrefix.eq_of_length hab hlen)

/-! ### Writing a block -/

/-- `types.Block`, with what the index reads. -/
structure Block where
  NumberU64 : UInt64
  Transactions : List Transaction

/-- The recipient key and kind of a transaction: a contract creation, or a transfer to the zero
address, goes under the zero address with kind `c`; any other under its recipient with `s`. -/
def toAndKind (tx : Transaction) : Bytes × Bytes :=
  match tx.data.Recipient with
  | some «to» => if IsEmpty «to» then (zeroAddress, [99]) else («to», [115])
  | none => (zeroAddress, [99])

/-- The loop of `putBlockAddrTxsToBatch`: for each transaction its key under the sender (`f`)
and under the recipient (`t`); a sender that cannot be recovered ends the loop with its error,
before the batch is written. -/
def putTxs (c : Crypto) (bn : Bytes) : List Transaction → Except SignerError (List Bytes)
  | [] => .ok []
  | tx :: rest =>
    match (Sender c tx.signer tx).1 with
    | .error e => .error e
    | .ok «from» =>
      (putTxs c bn rest).map fun puts =>
        formatAddrTxBytesIndex «from» bn [102] (toAndKind tx).2 (tx.Hash c) ::
          formatAddrTxBytesIndex (toAndKind tx).1 bn [116] (toAndKind tx).2 (tx.Hash c) :: puts

/-- `putBlockAddrTxsToBatch`: the keys put to the batch. -/
def putBlockAddrTxsToBatch (c : Crypto) (block : Block) : Except SignerError (List Bytes) :=
  putTxs c (PutUint64 block.NumberU64) block.Transactions

/-- `WriteBlockAddTxIndexes`: the batch written, or the error and nothing written. -/
def WriteBlockAddTxIndexes (c : Crypto) (indexDb : Database) (block : Block) :
    Except SignerError Database :=
  (putBlockAddrTxsToBatch c block).map fun puts => puts.foldl Database.Put indexDb

/-! ### Reading an address's transactions -/

/-- `atxi`: a block number and a hash, as `common.ToHex` writes it. -/
structure atxi where
  blockN : UInt64
  tx : Bytes

/-- What `GetAddrTxs` takes from Go's runtime: `sort.Sort(sortableAtxis)`, a permutation in
which no entry of a higher block comes after one of a lower. -/
structure Runtime where
  sort : List atxi → List atxi
  sort_perm : ∀ s, (sort s).Perm s
  sort_sorted : ∀ s, (sort s).Pairwise fun a b => b.blockN ≤ a.blockN

/-- `errAtxiInvalidUse`. -/
def errAtxiInvalidUse : String := "invalid parameters passed to ATXI"

/-- `errWithReason`: `fmt.Errorf("%v: %s", e, s)`. -/
def errWithReason (e s : String) : String := e ++ ": " ++ s

/-- `strings.Contains(s, substr)`. -/
def Contains (s substr : Bytes) : Bool := decide (substr <:+: s)

/-- `s[lo:hi]` of a slice whose capacity is its length; `none` is the panic out of
`0 ≤ lo ≤ hi ≤ len(s)`. -/
def slice {α : Type} (s : List α) (lo hi : Int) : Option (List α) :=
  if 0 ≤ lo ∧ lo ≤ hi ∧ hi ≤ s.length then some ((s.drop lo.toNat).take (hi - lo).toNat) else none

/-- One round of the loop of `GetAddrTxs`: the key taken apart, then `none` where the block
bounds, the direction or the kind skip it, else its block and hash. -/
def readAtxi (blockStartN blockEndN : UInt64) (wantDirectionB wantKindOf : UInt8) (key : Bytes) :
    Option (Option atxi) := do
  let (_, blockNum, torf, k, txh) ← resolveAddrTxBytes key
  let bn ← Uint64 blockNum
  let d ← torf[0]?
  let kd ← k[0]?
  if (decide (blockStartN > 0) && decide (bn < blockStartN)) ||
      (decide (blockEndN > 0) && decide (bn > blockEndN)) ||
      (wantDirectionB != 98 && wantDirectionB != d) || (wantKindOf != 98 && wantKindOf != kd) then
    some none
  else some (some ⟨bn, Common.ToHex txh⟩)

/-- `handleSorting`: one entry or none as it is; else sorted newest first, reversed for
`reverse`, and cut to the page, the bounds brought within the length. -/
def handleSorting (rt : Runtime) (reverse : Bool) (paginationStart paginationEnd : Int)
    (s : List atxi) : Option (List atxi) :=
  if s.length ≤ 1 then some s
  else
    let s := rt.sort s
    let s := if reverse then s.reverse else s
    let paginationStart := if paginationStart > s.length then (s.length : Int) else paginationStart
    let paginationEnd :=
      if paginationEnd < 0 ∨ paginationEnd > s.length then (s.length : Int) else paginationEnd
    slice s paginationStart paginationEnd

/-- `GetAddrTxs`: the checks of the arguments, the loop over the address's keys, and the sorted
page of hashes. -/
def GetAddrTxs (rt : Runtime) (db : Database) (address : Bytes) (blockStartN blockEndN : UInt64)
    (direction kindof : Bytes) (paginationStart paginationEnd : Int) (reverse : Bool) :
    Option (Except String (List Bytes)) :=
  if direction.length > 0 ∧ !Contains [98, 116, 102] (direction.take 1) then
    some (.error (errWithReason errAtxiInvalidUse
      "Address transactions list signature requires direction param to be empty string or [b|t|f] prefix (eg. both, to, or from)"))
  else if kindof.length > 0 ∧ !Contains [98, 115, 99] (kindof.take 1) then
    some (.error (errWithReason errAtxiInvalidUse
      "Address transactions list signature requires \x27kind of\x27 param to be empty string or [s|c] prefix (eg. both, standard, or contract)"))
  else if paginationStart > 0 ∧ paginationEnd > 0 ∧ paginationStart > paginationEnd then
    some (.error (errWithReason errAtxiInvalidUse
      "Pagination start must be less than or equal to pagination end params"))
  else
    let paginationStart := if paginationStart < 0 then 0 else paginationStart
    let wantDirectionB : UInt8 := direction.headD 98
    let wantKindOf : UInt8 := kindof.headD 98
    match (db.NewIteratorRange (formatAddrTxIterator address)).mapM
        (readAtxi blockStartN blockEndN wantDirectionB wantKindOf) with
    | none => none
    | some rs =>
      (handleSorting rt reverse paginationStart paginationEnd (rs.filterMap id)).map fun s =>
        .ok (s.map atxi.tx)

/-! ### Removing a transaction -/

/-- The scan of `RmAddrTx` over the keys of one address: the first key of the hash, if any;
`none` is the panic of taking apart a short key before it. -/
def firstMatch (txH : Bytes) : List Bytes → Option (Option Bytes)
  | [] => some none
  | key :: rest => do
    let (_, _, _, _, txh) ← resolveAddrTxBytes key
    if txH = txh then some (some key) else firstMatch txH rest

/-- `RmAddrTx`: the first key of the hash under the sender and, for a transaction with a
recipient, the first under the recipient, deleted. -/
def RmAddrTx (c : Crypto) (db : Database) (tx : Transaction) :
    Option (Except SignerError Database) :=
  let txH := tx.Hash c
  match (Sender c tx.signer tx).1 with
  | .error e => some (.error e)
  | .ok «from» => do
    let r1 ← firstMatch txH (db.NewIteratorRange (formatAddrTxIterator «from»))
    let r2 ← match tx.data.Recipient with
      | some toRef => firstMatch txH (db.NewIteratorRange (formatAddrTxIterator toRef))
      | none => some none
    some (.ok ((r1.toList ++ r2.toList).foldl Database.Delete db))

/-! ### Keys long enough to take apart -/

/-- Every key of the index is long enough for `resolveAddrTxBytes`. -/
def WellFormed (db : Database) : Prop := ∀ k ∈ db.keys, txAddressIndexPrefix <+: k → 34 ≤ k.length

theorem le_length_format (address : Bytes) {blockNumber : Bytes} (direction kindof : Bytes)
    {txhash : Bytes} (hb : blockNumber.length = 8) (hh : txhash.length = 32) :
    34 ≤ (formatAddrTxBytesIndex address blockNumber direction kindof txhash).length := by
  simp [formatAddrTxBytesIndex, txAddressIndexPrefix, hb, hh]
  omega

theorem drop_format {address blockNumber direction kindof : Bytes} (txhash : Bytes)
    (ha : address.length = 20) (hb : blockNumber.length = 8) (hd : direction.length = 1)
    (hk : kindof.length = 1) :
    (formatAddrTxBytesIndex address blockNumber direction kindof txhash).drop 34 = txhash := by
  have hr := resolveAddrTxBytes_format txhash ha hb hd hk
  unfold resolveAddrTxBytes at hr
  split at hr
  · simp only [Option.some.injEq, Prod.mk.injEq] at hr
    exact hr.2.2.2.2
  · cases hr

/-- Every key `putTxs` puts is long enough. -/
theorem putTxs_length (c : Crypto) {bn : Bytes} (hbn : bn.length = 8) :
    ∀ (txs : List Transaction) (puts : List Bytes), putTxs c bn txs = .ok puts →
      ∀ k ∈ puts, 34 ≤ k.length
  | [], puts, h => by
    cases h
    simp
  | tx :: rest, puts, h => by
    unfold putTxs at h
    split at h
    · cases h
    · cases hrest : putTxs c bn rest with
      | error e => rw [hrest] at h; cases h
      | ok puts' =>
        rw [hrest] at h
        cases h
        intro k hk
        rcases List.mem_cons.mp hk with rfl | hk
        · exact le_length_format _ _ _ hbn (length_Hash c tx)
        rcases List.mem_cons.mp hk with rfl | hk
        · exact le_length_format _ _ _ hbn (length_Hash c tx)
        · exact putTxs_length c hbn rest puts' hrest k hk

/-- Where every sender is recovered, `putTxs` puts both keys of every transaction. -/
theorem putTxs_ok (c : Crypto) (bn : Bytes) : ∀ txs : List Transaction,
    (∀ tx ∈ txs, ∃ a, (Sender c tx.signer tx).1 = .ok a) →
    ∃ puts, putTxs c bn txs = .ok puts ∧ ∀ tx ∈ txs, ∀ a, (Sender c tx.signer tx).1 = .ok a →
      formatAddrTxBytesIndex a bn [102] (toAndKind tx).2 (tx.Hash c) ∈ puts ∧
        formatAddrTxBytesIndex (toAndKind tx).1 bn [116] (toAndKind tx).2 (tx.Hash c) ∈ puts
  | [], _ => ⟨[], rfl, by simp⟩
  | tx :: rest, hall => by
    obtain ⟨a, ha⟩ := hall tx List.mem_cons_self
    obtain ⟨puts, hputs, hmem⟩ := putTxs_ok c bn rest fun t ht => hall t (List.mem_cons_of_mem tx ht)
    refine ⟨_ :: _ :: puts, by simp only [putTxs, ha, hputs]; rfl, fun t ht a' ha' => ?_⟩
    rcases List.mem_cons.mp ht with rfl | ht
    · -- the sender is what `Sender` gave the first time
      have haa : a' = a := by rw [ha] at ha'; cases ha'; rfl
      subst haa
      simp
    · obtain ⟨hf, hto⟩ := hmem t ht a' ha'
      exact ⟨List.mem_cons_of_mem _ (List.mem_cons_of_mem _ hf),
        List.mem_cons_of_mem _ (List.mem_cons_of_mem _ hto)⟩

theorem WellFormed.write {c : Crypto} {db db' : Database} {block : Block} (hwf : WellFormed db)
    (h : WriteBlockAddTxIndexes c db block = .ok db') : WellFormed db' := by
  unfold WriteBlockAddTxIndexes putBlockAddrTxsToBatch at h
  cases hputs : putTxs c (PutUint64 block.NumberU64) block.Transactions with
  | error e => rw [hputs] at h; cases h
  | ok puts =>
    rw [hputs] at h
    cases h
    intro k hk hpre
    rcases (Database.mem_foldl_Put puts db).mp hk with hk | hk
    · exact putTxs_length c (length_PutUint64 _) _ puts hputs k hk
    · exact hwf k hk hpre

theorem WellFormed.delete {db : Database} (hwf : WellFormed db) (rs : List Bytes) :
    WellFormed (rs.foldl Database.Delete db) := fun k hk hpre =>
  hwf k ((Database.mem_foldl_Delete rs db).mp hk).1 hpre

/-- The keys under an address are long enough. -/
theorem WellFormed.iterator {db : Database} (hwf : WellFormed db) (address : Bytes) :
    ∀ k ∈ db.NewIteratorRange (formatAddrTxIterator address), 34 ≤ k.length := by
  intro k hk
  obtain ⟨hk, hpre⟩ := Database.mem_NewIteratorRange.mp hk
  exact hwf k hk ((List.prefix_append _ _).trans hpre)

/-! ### What a query reads -/

/-- With no bounds and no filters, the loop keeps every key, with its hash. -/
theorem readAtxi_default {key : Bytes} (hk : 34 ≤ key.length) :
    ∃ bn, readAtxi 0 0 98 98 key = some (some ⟨bn, Common.ToHex (key.drop 34)⟩) := by
  have hbn : 8 ≤ ((key.drop 24).take 8).length := by simp; omega
  obtain ⟨bn, hbn'⟩ : ∃ bn, Uint64 ((key.drop 24).take 8) = some bn := ⟨_, if_pos hbn⟩
  obtain ⟨d, hd⟩ : ∃ d, ((key.drop 32).take 1)[0]? = some d :=
    Option.isSome_iff_exists.mp (by simp; omega)
  obtain ⟨kd, hkd⟩ : ∃ kd, ((key.drop 33).take 1)[0]? = some kd :=
    Option.isSome_iff_exists.mp (by simp; omega)
  refine ⟨bn, ?_⟩
  simp only [readAtxi, resolveAddrTxBytes, if_pos hk, Option.bind_eq_bind, Option.bind_some, hbn',
    hd, hkd]
  simp

theorem mapM_readAtxi_default : ∀ keys : List Bytes, (∀ k ∈ keys, 34 ≤ k.length) →
    ∃ rs, keys.mapM (readAtxi 0 0 98 98) = some rs ∧
      (rs.filterMap id).map atxi.tx = keys.map fun k => Common.ToHex (k.drop 34)
  | [], _ => ⟨[], rfl, rfl⟩
  | key :: keys, h => by
    obtain ⟨bn, hkey⟩ := readAtxi_default (h key List.mem_cons_self)
    obtain ⟨rs, hrs, htx⟩ := mapM_readAtxi_default keys fun k hk => h k (List.mem_cons_of_mem _ hk)
    refine ⟨some ⟨bn, Common.ToHex (key.drop 34)⟩ :: rs, ?_, ?_⟩
    · simp [hkey, hrs]
    · rw [List.filterMap_cons_some (f := id) rfl, List.map_cons, htx, List.map_cons]

/-- The whole list, sorted: a query with no page keeps every entry. -/
theorem handleSorting_full (rt : Runtime) (s : List atxi) :
    ∃ s', handleSorting rt false 0 (-1) s = some s' ∧ s'.Perm s := by
  unfold handleSorting
  split
  · exact ⟨s, rfl, List.Perm.refl s⟩
  · refine ⟨rt.sort s, ?_, rt.sort_perm s⟩
    have hlen : ((rt.sort s).length : Int) = s.length := by rw [(rt.sort_perm s).length_eq]
    simp only [Bool.false_eq_true, if_false, hlen]
    rw [if_neg (by omega), if_pos (by omega), slice, if_pos (by omega)]
    simp [(rt.sort_perm s).length_eq]

/-- Two entries or more, a positive page start and a page end of `0`: the slice panics. -/
theorem handleSorting_page_panic (rt : Runtime) (reverse : Bool) {paginationStart : Int}
    (hstart : 0 < paginationStart) {s : List atxi} (hs : 2 ≤ s.length) :
    handleSorting rt reverse paginationStart 0 s = none := by
  unfold handleSorting
  rw [if_neg (by omega)]
  dsimp only
  -- the sort and the reversal keep the length; the start stays positive, the end is `0`
  have hlen : (if reverse then (rt.sort s).reverse else rt.sort s).length = s.length := by
    split <;> simp [(rt.sort_perm s).length_eq]
  rw [hlen, slice, if_neg]
  rintro ⟨-, hle, -⟩
  split at hle <;> split at hle <;> omega

/-- The query with no bounds, no filters and no page: the hashes of the address's keys. -/
theorem GetAddrTxs_default (rt : Runtime) {db : Database} (hwf : WellFormed db) (address : Bytes) :
    ∃ hs, GetAddrTxs rt db address 0 0 [] [] 0 (-1) false = some (.ok hs) ∧
      hs.Perm ((db.NewIteratorRange (formatAddrTxIterator address)).map fun k =>
        Common.ToHex (k.drop 34)) := by
  obtain ⟨rs, hrs, htx⟩ := mapM_readAtxi_default _ (hwf.iterator address)
  obtain ⟨s', hs', hperm⟩ := handleSorting_full rt (rs.filterMap id)
  refine ⟨s'.map atxi.tx, ?_, ?_⟩
  · simp only [GetAddrTxs, List.length_nil, List.headD_nil]
    rw [if_neg (by simp), if_neg (by simp), if_neg (by omega), if_neg (by omega), hrs]
    dsimp only
    rw [hs']
    rfl
  · rw [← htx]
    exact hperm.map atxi.tx

/-- A positive page start and a page end of `0` panic on an address with two keys or more. -/
theorem GetAddrTxs_page_panic (rt : Runtime) {db : Database} (hwf : WellFormed db)
    (address : Bytes) {paginationStart : Int} (reverse : Bool) (hstart : 0 < paginationStart)
    (htwo : 2 ≤ (db.NewIteratorRange (formatAddrTxIterator address)).length) :
    GetAddrTxs rt db address 0 0 [] [] paginationStart 0 reverse = none := by
  obtain ⟨rs, hrs, htx⟩ := mapM_readAtxi_default _ (hwf.iterator address)
  have hlen : 2 ≤ (rs.filterMap id).length := by
    have := congrArg List.length htx
    simp only [List.length_map] at this
    omega
  simp only [GetAddrTxs, List.length_nil, List.headD_nil]
  rw [if_neg (by simp), if_neg (by simp), if_neg (by omega), if_neg (by omega), hrs]
  dsimp only
  rw [handleSorting_page_panic rt reverse hstart hlen]
  rfl

/-! ### What a removal deletes -/

theorem firstMatch_mem {txH : Bytes} : ∀ {keys : List Bytes} {r : Option Bytes},
    firstMatch txH keys = some r → ∀ k ∈ r, k ∈ keys
  | [], r, h => by
    cases h
    simp
  | key :: keys, r, h => by
    intro k hk
    simp only [firstMatch, Option.bind_eq_bind] at h
    cases hres : resolveAddrTxBytes key with
    | none => rw [hres] at h; cases h
    | some parts =>
      rw [hres, Option.bind_some] at h
      split at h
      · cases h
        rw [Option.mem_some_iff.mp hk]
        exact List.mem_cons_self
      · exact List.mem_cons_of_mem _ (firstMatch_mem h k hk)

theorem firstMatch_isSome (txH : Bytes) : ∀ keys : List Bytes, (∀ k ∈ keys, 34 ≤ k.length) →
    (firstMatch txH keys).isSome
  | [], _ => rfl
  | key :: keys, h => by
    have hkey : resolveAddrTxBytes key = some _ := if_pos (h key List.mem_cons_self)
    simp only [firstMatch, hkey, Option.bind_eq_bind, Option.bind_some]
    split
    · rfl
    · exact firstMatch_isSome txH keys fun k hk => h k (List.mem_cons_of_mem _ hk)

/-- What `RmAddrTx` does on a well-formed index: the scan under the sender and the one under
the recipient each find at most one key, and both are deleted. -/
theorem RmAddrTx_eq {c : Crypto} {db : Database} (hwf : WellFormed db) {tx : Transaction}
    {«from» : Bytes} (hfrom : (Sender c tx.signer tx).1 = .ok «from») :
    ∃ r1 r2, firstMatch (tx.Hash c) (db.NewIteratorRange (formatAddrTxIterator «from»)) = some r1 ∧
      (match tx.data.Recipient with
        | some toRef => firstMatch (tx.Hash c) (db.NewIteratorRange (formatAddrTxIterator toRef))
        | none => some none) = some r2 ∧
      RmAddrTx c db tx = some (.ok ((r1.toList ++ r2.toList).foldl Database.Delete db)) := by
  obtain ⟨r1, h1⟩ := Option.isSome_iff_exists.mp (firstMatch_isSome (tx.Hash c) _ (hwf.iterator «from»))
  obtain ⟨r2, h2⟩ : ∃ r2, (match tx.data.Recipient with
      | some toRef => firstMatch (tx.Hash c) (db.NewIteratorRange (formatAddrTxIterator toRef))
      | none => some none) = some r2 := by
    cases tx.data.Recipient with
    | none => exact ⟨none, rfl⟩
    | some toRef =>
      exact Option.isSome_iff_exists.mp (firstMatch_isSome (tx.Hash c) _ (hwf.iterator toRef))
  refine ⟨r1, r2, h1, h2, ?_⟩
  simp only [RmAddrTx, hfrom, h1, Option.bind_eq_bind, Option.bind_some]
  revert h2
  cases tx.data.Recipient with
  | none =>
    intro h2
    cases h2
    rfl
  | some toRef =>
    intro h2
    simp only at h2 ⊢
    rw [h2]
    rfl

theorem WellFormed.remove {c : Crypto} {db db' : Database} {tx : Transaction} (hwf : WellFormed db)
    (h : RmAddrTx c db tx = some (.ok db')) : WellFormed db' := by
  cases hfrom : (Sender c tx.signer tx).1 with
  | error e =>
    simp only [RmAddrTx, hfrom] at h
    cases h
  | ok «from» =>
    obtain ⟨r1, r2, -, -, hRm⟩ := RmAddrTx_eq hwf hfrom
    rw [hRm] at h
    cases h
    exact hwf.delete _

/-! ### Runs of writes and removals -/

/-- The indexes reached from an empty database by writing blocks and removing transactions. -/
inductive Reachable (c : Crypto) : Database → Prop
  | empty : Reachable c ⟨[]⟩
  | write {db db' : Database} {block : Block} :
    Reachable c db → WriteBlockAddTxIndexes c db block = .ok db' → Reachable c db'
  | remove {db db' : Database} {tx : Transaction} :
    Reachable c db → RmAddrTx c db tx = some (.ok db') → Reachable c db'

theorem Reachable.wellFormed {c : Crypto} {db : Database} (h : Reachable c db) : WellFormed db := by
  induction h with
  | empty => intro k hk; cases hk
  | write _ hw ih => exact ih.write hw
  | remove _ hr ih => exact ih.remove hr

/-- The loop of a query takes every key of a well-formed index apart. -/
theorem readAtxi_isSome {key : Bytes} (hk : 34 ≤ key.length) (blockStartN blockEndN : UInt64)
    (wantDirectionB wantKindOf : UInt8) :
    (readAtxi blockStartN blockEndN wantDirectionB wantKindOf key).isSome := by
  have hbn : 8 ≤ ((key.drop 24).take 8).length := by simp; omega
  obtain ⟨bn, hbn'⟩ : ∃ bn, Uint64 ((key.drop 24).take 8) = some bn := ⟨_, if_pos hbn⟩
  obtain ⟨d, hd⟩ : ∃ d, ((key.drop 32).take 1)[0]? = some d :=
    Option.isSome_iff_exists.mp (by simp; omega)
  obtain ⟨kd, hkd⟩ : ∃ kd, ((key.drop 33).take 1)[0]? = some kd :=
    Option.isSome_iff_exists.mp (by simp; omega)
  simp only [readAtxi, resolveAddrTxBytes, if_pos hk, Option.bind_eq_bind, Option.bind_some, hbn',
    hd, hkd]
  split <;> rfl

theorem mapM_readAtxi_isSome (blockStartN blockEndN : UInt64) (wantDirectionB wantKindOf : UInt8) :
    ∀ keys : List Bytes, (∀ k ∈ keys, 34 ≤ k.length) →
      (keys.mapM (readAtxi blockStartN blockEndN wantDirectionB wantKindOf)).isSome
  | [], _ => rfl
  | key :: keys, h => by
    obtain ⟨r, hr⟩ := Option.isSome_iff_exists.mp
      (readAtxi_isSome (h key List.mem_cons_self) blockStartN blockEndN wantDirectionB wantKindOf)
    obtain ⟨rs, hrs⟩ := Option.isSome_iff_exists.mp
      (mapM_readAtxi_isSome blockStartN blockEndN wantDirectionB wantKindOf keys
        fun k hk => h k (List.mem_cons_of_mem _ hk))
    simp [hr, hrs]

/-- `handleSorting` panics only on a positive start and an end of `0`, where the checks of
`GetAddrTxs` let them through. -/
theorem handleSorting_eq_none {rt : Runtime} {reverse : Bool} {paginationStart paginationEnd : Int}
    {s : List atxi} (hstart : 0 ≤ paginationStart)
    (hpage : ¬ (paginationStart > 0 ∧ paginationEnd > 0 ∧ paginationStart > paginationEnd))
    (h : handleSorting rt reverse paginationStart paginationEnd s = none) :
    0 < paginationStart ∧ paginationEnd = 0 := by
  unfold handleSorting at h
  split at h
  · cases h
  · dsimp only at h
    have hlen : (if reverse then (rt.sort s).reverse else rt.sort s).length = s.length := by
      split <;> simp [(rt.sort_perm s).length_eq]
    rw [hlen, slice] at h
    -- the bounds are brought within the length, so only `start > end` can fail
    by_contra hne
    rw [if_pos ⟨by split <;> omega, by split <;> split <;> omega, by split <;> omega⟩] at h
    cases h

/-- On a well-formed index the only panic of `GetAddrTxs` is the slice of a page with a
positive start and an end of `0`. -/
theorem GetAddrTxs_eq_none (rt : Runtime) {db : Database} (hwf : WellFormed db) (address : Bytes)
    (blockStartN blockEndN : UInt64) (direction kindof : Bytes) (paginationStart paginationEnd : Int)
    (reverse : Bool)
    (h : GetAddrTxs rt db address blockStartN blockEndN direction kindof paginationStart
      paginationEnd reverse = none) :
    0 < paginationStart ∧ paginationEnd = 0 := by
  unfold GetAddrTxs at h
  split at h
  · cases h
  split at h
  · cases h
  split at h
  · cases h
  rename_i hpage
  dsimp only at h
  obtain ⟨rs, hrs⟩ := Option.isSome_iff_exists.mp
    (mapM_readAtxi_isSome blockStartN blockEndN (direction.headD 98) (kindof.headD 98) _
      (hwf.iterator address))
  rw [hrs] at h
  dsimp only at h
  have hsort := Option.map_eq_none_iff.mp h
  have hcut := handleSorting_eq_none (by split <;> omega) (by split <;> omega) hsort
  split at hcut <;> omega

/-! ### Where the index and its remover disagree -/

theorem toAndKind_none {tx : Transaction} (h : tx.data.Recipient = none) :
    toAndKind tx = (zeroAddress, [99]) := by
  simp [toAndKind, h]

/-- A transaction with a recipient has its `t` key under that recipient, the zero address
included. -/
theorem fst_toAndKind_some {tx : Transaction} {a : Bytes} (h : tx.data.Recipient = some a) :
    (toAndKind tx).1 = a := by
  unfold toAndKind
  rw [h]
  dsimp only
  split
  · rename_i hz
    exact (of_decide_eq_true hz).symm
  · rfl

theorem length_snd_toAndKind (tx : Transaction) : (toAndKind tx).2.length = 1 := by
  unfold toAndKind
  split
  · split <;> rfl
  · rfl

/-- A block whose senders are all recovered is written, with both keys of every transaction. -/
theorem WriteBlockAddTxIndexes_ok (c : Crypto) (db : Database) {block : Block}
    (hall : ∀ t ∈ block.Transactions, ∃ a, (Sender c t.signer t).1 = .ok a) :
    ∃ db1, WriteBlockAddTxIndexes c db block = .ok db1 ∧
      ∀ tx ∈ block.Transactions, ∀ a, (Sender c tx.signer tx).1 = .ok a →
        formatAddrTxBytesIndex a (PutUint64 block.NumberU64) [102] (toAndKind tx).2 (tx.Hash c) ∈
            db1.keys ∧
          formatAddrTxBytesIndex (toAndKind tx).1 (PutUint64 block.NumberU64) [116] (toAndKind tx).2
            (tx.Hash c) ∈ db1.keys := by
  obtain ⟨puts, hputs, hmem⟩ := putTxs_ok c (PutUint64 block.NumberU64) block.Transactions hall
  refine ⟨puts.foldl Database.Put db, by simp [WriteBlockAddTxIndexes, putBlockAddrTxsToBatch, hputs]; rfl,
    fun tx htx a ha => ?_⟩
  obtain ⟨hf, ht⟩ := hmem tx htx a ha
  exact ⟨(Database.mem_foldl_Put puts db).mpr (.inl hf), (Database.mem_foldl_Put puts db).mpr (.inl ht)⟩

/-- A key under an address is read back, as its hash, by the plain query of that address. -/
theorem mem_GetAddrTxs_default (rt : Runtime) {db : Database} (hwf : WellFormed db)
    {address k : Bytes} (hk : k ∈ db.keys) (hpre : formatAddrTxIterator address <+: k) :
    ∃ hs, GetAddrTxs rt db address 0 0 [] [] 0 (-1) false = some (.ok hs) ∧
      Common.ToHex (k.drop 34) ∈ hs := by
  obtain ⟨hs, hget, hperm⟩ := GetAddrTxs_default rt hwf address
  refine ⟨hs, hget, hperm.mem_iff.mpr (List.mem_map_of_mem ?_)⟩
  exact Database.mem_NewIteratorRange.mpr ⟨hk, hpre⟩

/-- A contract creation's key under the zero address outlives `RmAddrTx`, which looks under a
recipient only where the transaction has one. -/
theorem RmAddrTx_keeps_creation (c : Crypto) (rt : Runtime) {db : Database} (hwf : WellFormed db)
    {block : Block} (hall : ∀ t ∈ block.Transactions, ∃ a, (Sender c t.signer t).1 = .ok a)
    {tx : Transaction} (htx : tx ∈ block.Transactions) {«from» : Bytes}
    (hfrom : (Sender c tx.signer tx).1 = .ok «from») (hlen : «from».length = 20)
    (hne : «from» ≠ zeroAddress) (hto : tx.data.Recipient = none) :
    ∃ db1 db2 hs, WriteBlockAddTxIndexes c db block = .ok db1 ∧ RmAddrTx c db1 tx = some (.ok db2) ∧
      GetAddrTxs rt db2 zeroAddress 0 0 [] [] 0 (-1) false = some (.ok hs) ∧
      Common.ToHex (tx.Hash c) ∈ hs := by
  obtain ⟨db1, hW, hkeys⟩ := WriteBlockAddTxIndexes_ok c db hall
  have hwf1 := hwf.write hW
  obtain ⟨-, hKt⟩ := hkeys tx htx «from» hfrom
  rw [toAndKind_none hto] at hKt
  obtain ⟨r1, r2, h1, h2, hRm⟩ := RmAddrTx_eq hwf1 hfrom
  rw [hto] at h2
  cases h2
  have hzero : zeroAddress.length = 20 := by simp [zeroAddress]
  -- the scan under the sender cannot reach a key under the zero address
  have hKt2 : formatAddrTxBytesIndex zeroAddress (PutUint64 block.NumberU64) [116] [99] (tx.Hash c) ∈
      ((r1.toList ++ (none : Option Bytes).toList).foldl Database.Delete db1).keys := by
    refine (Database.mem_foldl_Delete _ _).mpr ⟨hKt, fun hmem => hne ?_⟩
    have hr1 : formatAddrTxBytesIndex zeroAddress (PutUint64 block.NumberU64) [116] [99] (tx.Hash c) ∈ r1 := by
      simpa using hmem
    obtain ⟨-, hpre⟩ := Database.mem_NewIteratorRange.mp (firstMatch_mem h1 _ hr1)
    exact eq_of_prefix_formatAddrTxIterator hlen hzero hpre (prefix_format _ _ _ _ _)
  obtain ⟨hs, hget, hmem⟩ := mem_GetAddrTxs_default rt (hwf1.delete _) hKt2 (prefix_format _ _ _ _ _)
  refine ⟨db1, _, hs, hW, hRm, hget, ?_⟩
  rwa [drop_format _ hzero (length_PutUint64 _) rfl rfl] at hmem

/-- A transfer to oneself puts two keys under one address, and both scans of `RmAddrTx` find the
same first one: the other outlives the removal. -/
theorem RmAddrTx_keeps_self_transfer (c : Crypto) (rt : Runtime) {db : Database}
    (hwf : WellFormed db) {block : Block}
    (hall : ∀ t ∈ block.Transactions, ∃ a, (Sender c t.signer t).1 = .ok a)
    {tx : Transaction} (htx : tx ∈ block.Transactions) {«from» : Bytes}
    (hfrom : (Sender c tx.signer tx).1 = .ok «from») (hlen : «from».length = 20)
    (hto : tx.data.Recipient = some «from») :
    ∃ db1 db2 hs, WriteBlockAddTxIndexes c db block = .ok db1 ∧ RmAddrTx c db1 tx = some (.ok db2) ∧
      GetAddrTxs rt db2 «from» 0 0 [] [] 0 (-1) false = some (.ok hs) ∧
      Common.ToHex (tx.Hash c) ∈ hs := by
  obtain ⟨db1, hW, hkeys⟩ := WriteBlockAddTxIndexes_ok c db hall
  have hwf1 := hwf.write hW
  obtain ⟨hKf, hKt⟩ := hkeys tx htx «from» hfrom
  rw [fst_toAndKind_some hto] at hKt
  obtain ⟨r1, r2, h1, h2, hRm⟩ := RmAddrTx_eq hwf1 hfrom
  rw [hto] at h2
  -- the scan under the recipient is the scan under the sender
  have hr : r2 = r1 := by
    simp only at h2
    rw [h1] at h2
    cases h2
    rfl
  subst hr
  have hbn := length_PutUint64 block.NumberU64
  have hkd := length_snd_toAndKind tx
  -- the two keys differ in their direction byte
  have hne : formatAddrTxBytesIndex «from» (PutUint64 block.NumberU64) [102] (toAndKind tx).2 (tx.Hash c) ≠
      formatAddrTxBytesIndex «from» (PutUint64 block.NumberU64) [116] (toAndKind tx).2 (tx.Hash c) := by
    intro heq
    have hres := congrArg resolveAddrTxBytes heq
    rw [resolveAddrTxBytes_format _ hlen hbn rfl hkd, resolveAddrTxBytes_format _ hlen hbn rfl hkd] at hres
    simp at hres
  -- at most one key is deleted, so one of the two stays
  obtain ⟨K, hK, hKpre, hKdrop⟩ : ∃ K ∈ ((r2.toList ++ r2.toList).foldl Database.Delete db1).keys,
      formatAddrTxIterator «from» <+: K ∧ K.drop 34 = tx.Hash c := by
    by_cases hf : formatAddrTxBytesIndex «from» (PutUint64 block.NumberU64) [102] (toAndKind tx).2
        (tx.Hash c) ∈ r2.toList ++ r2.toList
    · refine ⟨_, (Database.mem_foldl_Delete _ _).mpr ⟨hKt, fun ht => hne ?_⟩, prefix_format _ _ _ _ _,
        drop_format _ hlen hbn rfl hkd⟩
      simp only [List.mem_append, Option.mem_toList, or_self] at hf ht
      rw [hf] at ht
      exact Option.some_injective _ ht
    · exact ⟨_, (Database.mem_foldl_Delete _ _).mpr ⟨hKf, hf⟩, prefix_format _ _ _ _ _,
        drop_format _ hlen hbn rfl hkd⟩
  obtain ⟨hs, hget, hmem⟩ := mem_GetAddrTxs_default rt (hwf1.delete _) hK hKpre
  refine ⟨db1, _, hs, hW, hRm, hget, ?_⟩
  rwa [hKdrop] at hmem

/-- The index disagrees with its remover and its reader: after `RmAddrTx` a contract creation
is still found under the zero address, and a transfer to oneself under its sender; and a query
with a positive page start and a page end of `0` panics on an address with two keys. -/
theorem GetAddrTxs_RmAddrTx_diverge (c : Crypto) (rt : Runtime) :
    (∀ (db : Database) (block : Block) (tx : Transaction) («from» : Bytes), WellFormed db →
      (∀ t ∈ block.Transactions, ∃ a, (Sender c t.signer t).1 = .ok a) → tx ∈ block.Transactions →
      (Sender c tx.signer tx).1 = .ok «from» → «from».length = 20 → «from» ≠ zeroAddress →
      tx.data.Recipient = none →
      ∃ db1 db2 hs, WriteBlockAddTxIndexes c db block = .ok db1 ∧
        RmAddrTx c db1 tx = some (.ok db2) ∧
        GetAddrTxs rt db2 zeroAddress 0 0 [] [] 0 (-1) false = some (.ok hs) ∧
        Common.ToHex (tx.Hash c) ∈ hs) ∧
    (∀ (db : Database) (block : Block) (tx : Transaction) («from» : Bytes), WellFormed db →
      (∀ t ∈ block.Transactions, ∃ a, (Sender c t.signer t).1 = .ok a) → tx ∈ block.Transactions →
      (Sender c tx.signer tx).1 = .ok «from» → «from».length = 20 →
      tx.data.Recipient = some «from» →
      ∃ db1 db2 hs, WriteBlockAddTxIndexes c db block = .ok db1 ∧
        RmAddrTx c db1 tx = some (.ok db2) ∧
        GetAddrTxs rt db2 «from» 0 0 [] [] 0 (-1) false = some (.ok hs) ∧
        Common.ToHex (tx.Hash c) ∈ hs) ∧
    ∀ (db : Database) (address : Bytes) (paginationStart : Int) (reverse : Bool), WellFormed db →
      0 < paginationStart → 2 ≤ (db.NewIteratorRange (formatAddrTxIterator address)).length →
      GetAddrTxs rt db address 0 0 [] [] paginationStart 0 reverse = none :=
  ⟨fun _ _ _ _ hwf hall htx hfrom hlen hne hto =>
      RmAddrTx_keeps_creation c rt hwf hall htx hfrom hlen hne hto,
    fun _ _ _ _ hwf hall htx hfrom hlen hto =>
      RmAddrTx_keeps_self_transfer c rt hwf hall htx hfrom hlen hto,
    fun _ address _ reverse hwf hstart htwo => GetAddrTxs_page_panic rt hwf address reverse hstart htwo⟩

/-- A runtime whose `sort.Sort` is a merge sort. -/
def mergeSortRuntime : Runtime where
  sort s := s.mergeSort fun a b => decide (b.blockN ≤ a.blockN)
  sort_perm s := List.mergeSort_perm s _
  sort_sorted s := by
    have hsorted : (s.mergeSort fun a b => decide (b.blockN ≤ a.blockN)).Pairwise
        fun a b => decide (b.blockN ≤ a.blockN) = true :=
      List.pairwise_mergeSort
        (fun a b c hab hbc => by simp only [decide_eq_true_eq] at hab hbc ⊢; exact UInt64.le_trans hbc hab)
        (fun a b => by simpa using UInt64.le_total b.blockN a.blockN) s
    simpa using hsorted

/-- A contract creation whose sender is in its cache. -/
def creationTx : Transaction :=
  ⟨⟨0, 0, 0, none, 0, [], 27, 1, 1⟩, .BasicSigner, some ⟨.BasicSigner, List.replicate 20 1⟩⟩

/-- A block of one contract creation, written to an empty index and removed again: its hash is
still listed under the zero address. -/
theorem GetAddrTxs_RmAddrTx_diverge_creation :
    ∃ db1 db2 hs, WriteBlockAddTxIndexes constCrypto ⟨[]⟩ ⟨1, [creationTx]⟩ = .ok db1 ∧
      RmAddrTx constCrypto db1 creationTx = some (.ok db2) ∧
      GetAddrTxs mergeSortRuntime db2 zeroAddress 0 0 [] [] 0 (-1) false = some (.ok hs) ∧
      Common.ToHex (creationTx.Hash constCrypto) ∈ hs :=
  (GetAddrTxs_RmAddrTx_diverge constCrypto mergeSortRuntime).1 ⟨[]⟩ ⟨1, [creationTx]⟩ creationTx
    (List.replicate 20 1) (fun k hk => by cases hk) (by simp; exact ⟨_, rfl⟩) (by simp) rfl (by simp)
    (by decide) rfl

end Atxi
end Core
end Ethcore
