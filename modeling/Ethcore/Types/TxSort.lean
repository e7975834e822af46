import Ethcore.Lib.Entries
import Ethcore.Lib.SliceHeap
import Ethcore.Types.Signing
import Mathlib.Data.List.Sort

/-!
# Sorting transactions by price and nonce: `SortByPriceAndNonce`

The transactions are split by sender, each sender's list is sorted by nonce, and the lists
are merged through a heap of one transaction per sender, the one with the highest price on
top: the best is popped, the next transaction of its sender pushed in its place, and the best
appended to the output.

From Go's runtime the sort takes `sort.Sort`, which returns a sender's transactions in some
nonce order, and the order in which `range` visits the map of senders; `Runtime` carries both
with what the sort may assume of them, and every result here holds for every `Runtime`.  The
heap is `container/heap`, from `Lib.SliceHeap`.
-/

namespace Ethcore
namespace Types

open Vm

/-- `tx.From()` as the sort reads it: the address `Sender` derives under the transaction's own
signer, or the zero address where it fails, since the sort drops the error. -/
def Transaction.From (c : Crypto) (tx : Transaction) : Bytes :=
  match (Sender c tx.signer tx).1 with
  | .ok addr => addr
  | .error _ => List.replicate 20 0

/-- `TxByPrice.Less`: the higher price comes first. -/
def TxByPrice.Less (a b : Transaction) : Bool := decide (b.data.Price < a.data.Price)

/-- What the sort takes from Go's runtime: `sort.Sort(TxByNonce(...))`, which returns a
permutation in nonce order, and the order in which `range` visits the entries of a map. -/
structure Runtime where
  sortByNonce : List Transaction → List Transaction
  sortByNonce_perm : ∀ txs, (sortByNonce txs).Perm txs
  sortByNonce_sorted : ∀ txs,
    (sortByNonce txs).Pairwise fun a b => a.data.AccountNonce ≤ b.data.AccountNonce
  range : List (Bytes × List Transaction) → List (Bytes × List Transaction)
  range_perm : ∀ m, (range m).Perm m

/-- `byNonce[acc] = append(byNonce[acc], tx)`, on a map kept as its list of entries. -/
def appendTx (acc : Bytes) (tx : Transaction) :
    List (Bytes × List Transaction) → List (Bytes × List Transaction)
  | [] => [(acc, [tx])]
  | (k, txs) :: rest => if k = acc then (k, txs ++ [tx]) :: rest else (k, txs) :: appendTx acc tx rest

/-- `byNonce[acc] = accTxs`, for an `acc` the map holds. -/
def setTxs (acc : Bytes) (accTxs : List Transaction) (byNonce : List (Bytes × List Transaction)) :
    List (Bytes × List Transaction) :=
  byNonce.map fun e => if e.1 = acc then (acc, accTxs) else e

/-- The loop that starts the heap: each sender's first transaction into `byPrice`, the rest
back into the map; `accTxs[0]` of an empty list panics. -/
def takeHeads : List (Bytes × List Transaction) →
    Option (List Transaction × List (Bytes × List Transaction))
  | [] => some ([], [])
  | (acc, accTxs) :: rest =>
    match accTxs with
    | [] => none
    | tx :: accTxs =>
      (takeHeads rest).map fun (byPrice, byNonce) => (tx :: byPrice, (acc, accTxs) :: byNonce)

/-- The merge loop: while the heap is not empty, pop the best transaction, push the next one of
its sender, and append the best to `txs`; `fuel` bounds the rounds. -/
def mergeLoop (c : Crypto) : Nat → List Transaction → List (Bytes × List Transaction) →
    List Transaction → Option (List Transaction)
  | _, [], _, txs => some txs
  | 0, _ :: _, _, _ => none
  | fuel + 1, byPrice@(_ :: _), byNonce, txs =>
    match SliceHeap.Pop TxByPrice.Less byPrice with
    | none => none
    | some (best, byPrice) =>
      let acc := best.From c
      match byNonce.lookup acc with
      | some (next :: accTxs) =>
        mergeLoop c fuel (SliceHeap.Push TxByPrice.Less byPrice next) (setTxs acc accTxs byNonce)
          (txs ++ [best])
      | _ => mergeLoop c fuel byPrice byNonce (txs ++ [best])

/-- `SortByPriceAndNonce`: the transactions in the order the merge appends them, the order in
which Go writes them back over the input slice. -/
def SortByPriceAndNonce (c : Crypto) (rt : Runtime) (txs : List Transaction) :
    Option (List Transaction) :=
  let byNonce := (txs.foldl (fun byNonce tx => appendTx (tx.From c) tx byNonce) []).map
    fun e => (e.1, rt.sortByNonce e.2)
  match takeHeads (rt.range byNonce) with
  | none => none
  | some (byPrice, byNonce) =>
    mergeLoop c txs.length (SliceHeap.Init TxByPrice.Less byPrice) byNonce []

/-! ### Senders and the price order -/

/-- Whether `tx` is filed under `acc`, the sender the sort reads for it. -/
def sentBy (c : Crypto) (acc : Bytes) (tx : Transaction) : Bool := decide (tx.From c = acc)

@[simp] theorem sentBy_eq_true {c : Crypto} {acc : Bytes} {tx : Transaction} :
    sentBy c acc tx = true ↔ tx.From c = acc := decide_eq_true_iff

theorem TxByPrice.strictWeak : SliceHeap.StrictWeak TxByPrice.Less where
  asymm a b := by simp only [TxByPrice.Less, decide_eq_true_eq, decide_eq_false_iff_not]; omega
  trans a b c := by simp only [TxByPrice.Less, decide_eq_true_eq]; omega
  not_trans a b c := by simp only [TxByPrice.Less, decide_eq_false_iff_not]; omega

/-! ### The map of senders

`appendTx` files each transaction under its sender; `Grouped sorted txs m` says that `m` has one
entry per sender, holding `sorted a` for sender `a`, and that its lists together are `txs`. -/

theorem lookup_appendTx (acc : Bytes) (tx : Transaction) (m : List (Bytes × List Transaction))
    (a : Bytes) :
    (appendTx acc tx m).lookup a =
      if a = acc then some ((m.lookup acc).getD [] ++ [tx]) else m.lookup a := by
  induction m with
  | nil => by_cases h : a = acc <;> simp [appendTx, h]
  | cons e rest ih =>
    obtain ⟨k, l⟩ := e
    by_cases hk : k = acc
    · subst hk
      by_cases ha : a = k
      · simp [appendTx, ha]
      · have hne : (a == k) = false := by simpa using ha
        simp [appendTx, List.lookup_cons, ha, hne]
    · have hne : (acc == k) = false := by simpa using Ne.symm hk
      by_cases ha : a = k
      · subst ha
        simp [appendTx, hk]
      · have hne' : (a == k) = false := by simpa using ha
        simp [appendTx, List.lookup_cons, hk, hne, hne', ih]

theorem map_fst_appendTx (acc : Bytes) (tx : Transaction) (m : List (Bytes × List Transaction)) :
    (appendTx acc tx m).map Prod.fst =
      if acc ∈ m.map Prod.fst then m.map Prod.fst else m.map Prod.fst ++ [acc] := by
  induction m with
  | nil => simp [appendTx]
  | cons e rest ih =>
    obtain ⟨k, l⟩ := e
    by_cases hk : k = acc
    · simp [appendTx, hk]
    · by_cases hmem : acc ∈ rest.map Prod.fst <;> simp [appendTx, hk, Ne.symm hk, ih, hmem]

theorem mem_appendTx {acc : Bytes} {tx : Transaction} {m : List (Bytes × List Transaction)}
    {e : Bytes × List Transaction} (he : e ∈ appendTx acc tx m) :
    e ∈ m ∨ ∃ l, e = (acc, l ++ [tx]) := by
  induction m with
  | nil => simp [appendTx] at he; exact .inr ⟨[], by simp [he]⟩
  | cons e' rest ih =>
    obtain ⟨k, l⟩ := e'
    by_cases hk : k = acc
    · simp only [appendTx, hk, if_true, List.mem_cons] at he
      rcases he with rfl | he
      · exact .inr ⟨l, rfl⟩
      · exact .inl (List.mem_cons_of_mem _ he)
    · simp only [appendTx, hk, if_false, List.mem_cons] at he
      rcases he with rfl | he
      · exact .inl List.mem_cons_self
      · exact (ih he).imp_left (List.mem_cons_of_mem _)

theorem flatMap_appendTx_perm (acc : Bytes) (tx : Transaction)
    (m : List (Bytes × List Transaction)) :
    ((appendTx acc tx m).flatMap Prod.snd).Perm (m.flatMap Prod.snd ++ [tx]) := by
  induction m with
  | nil => simp [appendTx]
  | cons e rest ih =>
    obtain ⟨k, l⟩ := e
    by_cases hk : k = acc
    · simp only [appendTx, hk, if_true, List.flatMap_cons, List.append_assoc, List.singleton_append]
      exact (List.perm_append_singleton tx _).symm.append_left l
    · simpa [appendTx, hk] using ih.append_left l

/-- `m` is a map of senders for `txs`: one entry per sender, none of them empty, the one of
sender `a` holding `sorted a`, and all of them together a permutation of `txs`. -/
structure Grouped (sorted : Bytes → List Transaction) (txs : List Transaction)
    (m : List (Bytes × List Transaction)) : Prop where
  keys : (m.map Prod.fst).Nodup
  lookup : ∀ a, (m.lookup a).getD [] = sorted a
  nonempty : ∀ e ∈ m, e.2 ≠ []
  perm : (m.flatMap Prod.snd).Perm txs

section Grouping

variable {c : Crypto}

/-- Filing one more transaction keeps the map grouped: the step of the first loop. -/
theorem Grouped.appendTx {seen : List Transaction} {m : List (Bytes × List Transaction)}
    (hm : Grouped (fun a => seen.filter (sentBy c a)) seen m) (tx : Transaction) :
    Grouped (fun a => (seen ++ [tx]).filter (sentBy c a)) (seen ++ [tx])
      (Types.appendTx (tx.From c) tx m) where
  keys := by
    rw [map_fst_appendTx]
    split
    · exact hm.keys
    · rename_i hnew
      exact hm.keys.append (List.nodup_singleton _) fun a ha hb => hnew (by simp_all)
  lookup a := by
    rw [lookup_appendTx]
    by_cases ha : a = tx.From c
    · subst ha
      simp [hm.lookup, sentBy]
    · have hne : ¬tx.From c = a := Ne.symm ha
      simp [ha, hm.lookup, sentBy, hne]
  nonempty e he := by
    rcases mem_appendTx he with he | ⟨l, rfl⟩
    · exact hm.nonempty e he
    · simp
  perm := (flatMap_appendTx_perm _ _ _).trans (hm.perm.append_right [tx])

/-- The run of the first loop, over the transactions left after `seen`. -/
theorem Grouped.foldl_appendTx : ∀ (txs seen : List Transaction) (m : List (Bytes × List Transaction)),
    Grouped (fun a => seen.filter (sentBy c a)) seen m →
    Grouped (fun a => (seen ++ txs).filter (sentBy c a)) (seen ++ txs)
      (txs.foldl (fun byNonce tx => Types.appendTx (tx.From c) tx byNonce) m)
  | [], seen, m, hm => by simpa using hm
  | tx :: txs, seen, m, hm => by
    simpa using Grouped.foldl_appendTx txs (seen ++ [tx]) _ (hm.appendTx tx)

theorem grouped_byNonce (txs : List Transaction) :
    Grouped (fun a => txs.filter (sentBy c a)) txs
      (txs.foldl (fun byNonce tx => Types.appendTx (tx.From c) tx byNonce) []) := by
  have hnil : Grouped (fun a => ([] : List Transaction).filter (sentBy c a)) [] [] :=
    ⟨List.nodup_nil, fun _ => rfl, fun _ h => absurd h List.not_mem_nil, List.Perm.nil⟩
  simpa using Grouped.foldl_appendTx txs [] [] hnil

/-- Sorting every sender's list keeps the map grouped, for the sorted lists. -/
theorem Grouped.sort {txs : List Transaction} {m : List (Bytes × List Transaction)}
    (hm : Grouped (fun a => txs.filter (sentBy c a)) txs m) (rt : Runtime) :
    Grouped (fun a => rt.sortByNonce (txs.filter (sentBy c a))) txs
      (m.map fun e => (e.1, rt.sortByNonce e.2)) where
  keys := by
    have hfst : (m.map fun e => (e.1, rt.sortByNonce e.2)).map Prod.fst = m.map Prod.fst := by
      simp [List.map_map, Function.comp_def]
    exact hfst ▸ hm.keys
  lookup a := by
    rw [Entries.lookup_map_snd, ← hm.lookup a]
    cases m.lookup a with
    | none => exact (List.Perm.eq_nil (rt.sortByNonce_perm [])).symm
    | some l => rfl
  nonempty e he := by
    obtain ⟨e0, he0, rfl⟩ := List.mem_map.mp he
    intro h
    exact hm.nonempty e0 he0 ((h ▸ rt.sortByNonce_perm e0.2 : ([] : List Transaction).Perm e0.2).nil_eq.symm)
  perm := by
    rw [List.flatMap_map]
    exact (List.Perm.flatMap_left m fun e _ => rt.sortByNonce_perm e.2).trans hm.perm

/-- Any order of the entries, such as the one `range` visits them in, is grouped as well. -/
theorem Grouped.of_perm {sorted : Bytes → List Transaction} {txs : List Transaction}
    {m m' : List (Bytes × List Transaction)} (hm : Grouped sorted txs m) (hp : m'.Perm m) :
    Grouped sorted txs m' where
  keys := (hp.map Prod.fst).nodup_iff.mpr hm.keys
  lookup a := by rw [← Entries.Perm.lookup_eq hp.symm hm.keys, hm.lookup]
  nonempty e he := hm.nonempty e (hp.subset he)
  perm := (hp.flatMap_right Prod.snd).trans hm.perm

/-- The loop that fills the heap, on entries none of which is empty and each holding its
sender's transactions: it takes one transaction per sender, and what it leaves in the map
follows it, sender by sender. -/
theorem takeHeads_spec {m : List (Bytes × List Transaction)} (hk : (m.map Prod.fst).Nodup)
    (hne : ∀ e ∈ m, e.2 ≠ []) (hfrom : ∀ e ∈ m, ∀ tx ∈ e.2, tx.From c = e.1) :
    ∃ byPrice byNonce, takeHeads m = some (byPrice, byNonce) ∧
      byPrice.map (Transaction.From c) = m.map Prod.fst ∧
      byNonce.map Prod.fst = m.map Prod.fst ∧
      (byPrice ++ byNonce.flatMap Prod.snd).Perm (m.flatMap Prod.snd) ∧
      ∀ a, byPrice.filter (sentBy c a) ++ (byNonce.lookup a).getD [] = (m.lookup a).getD [] := by
  induction m with
  | nil => exact ⟨[], [], rfl, rfl, rfl, by simp, fun a => by simp⟩
  | cons e rest ih =>
    obtain ⟨acc, accTxs⟩ := e
    obtain ⟨tx, accTxs, rfl⟩ := List.exists_cons_of_ne_nil (hne _ List.mem_cons_self)
    simp only [List.map_cons, List.nodup_cons] at hk
    obtain ⟨bp, bn, htake, hmapF, hmapK, hperm, hfilt⟩ :=
      ih hk.2 (fun e he => hne e (List.mem_cons_of_mem _ he))
        (fun e he => hfrom e (List.mem_cons_of_mem _ he))
    have htx : tx.From c = acc := hfrom _ List.mem_cons_self tx List.mem_cons_self
    refine ⟨tx :: bp, (acc, accTxs) :: bn, by simp [takeHeads, htake], by simp [hmapF, htx],
      by simp [hmapK], ?_, fun a => ?_⟩
    · -- the head leads, the other senders' heads and the rests follow in another order
      simp only [List.cons_append, List.flatMap_cons, List.perm_cons]
      exact (List.perm_append_comm_assoc _ _ _).trans (hperm.append_left accTxs)
    · by_cases ha : a = acc
      · subst ha
        -- no other sender's head is filed under `a`
        have hbp : bp.filter (sentBy c a) = [] := by
          refine List.filter_eq_nil_iff.mpr fun y hy hfy => hk.1 ?_
          rw [← hmapF]
          exact List.mem_map.mpr ⟨y, hy, by simpa using hfy⟩
        simp [htx, hbp]
      · have hne : (a == acc) = false := by simpa using ha
        have htx' : sentBy c a tx = false := by simpa [sentBy, htx] using Ne.symm ha
        simpa [List.filter_cons, htx', List.lookup_cons, hne] using hfilt a

end Grouping

/-- The invariant of the merge loop.  The heap holds at most one transaction per sender, and a
sender with none there has none queued; sender by sender, what is output, then what is in the
heap, then what is queued is that sender's list `sorted a`. -/
structure MergeInv (c : Crypto) (sorted : Bytes → List Transaction) (txs byPrice : List Transaction)
    (byNonce : List (Bytes × List Transaction)) (out : List Transaction) : Prop where
  heap : SliceHeap.IsHeap TxByPrice.Less byPrice
  keys : (byNonce.map Prod.fst).Nodup
  perm : (out ++ byPrice ++ byNonce.flatMap Prod.snd).Perm txs
  sender : ∀ a, out.filter (sentBy c a) ++ byPrice.filter (sentBy c a) ++
    (byNonce.lookup a).getD [] = sorted a
  single : ∀ a, (byPrice.filter (sentBy c a)).length ≤ 1
  queued : ∀ a, byPrice.filter (sentBy c a) = [] → (byNonce.lookup a).getD [] = []

/-- From position `k0` on, every transaction of `sorted` is priced at least as high as the next
transaction after it of every other sender. -/
def PricedFrom (c : Crypto) (k0 : Nat) (sorted : List Transaction) : Prop :=
  ∀ k x, k0 ≤ k → sorted[k]? = some x → ∀ b t, b ≠ x.From c →
    (sorted.drop (k + 1)).find? (sentBy c b) = some t → t.data.Price ≤ x.data.Price

section Merge

variable {c : Crypto} {sorted : Bytes → List Transaction} {txs : List Transaction}

/-- The state the merge starts from: the heap of one transaction per sender, built from a
grouped map whose lists hold their sender's transactions. -/
theorem MergeInv.init {m : List (Bytes × List Transaction)} (hm : Grouped sorted txs m)
    (hfrom : ∀ a, ∀ tx ∈ sorted a, tx.From c = a) :
    ∃ byPrice byNonce, takeHeads m = some (byPrice, byNonce) ∧
      MergeInv c sorted txs (SliceHeap.Init TxByPrice.Less byPrice) byNonce [] := by
  have hentry : ∀ e ∈ m, ∀ tx ∈ e.2, tx.From c = e.1 := by
    intro e he tx htx
    have hsorted : e.2 = sorted e.1 := by
      rw [← hm.lookup e.1, Entries.lookup_of_mem hm.keys he]
      rfl
    exact hfrom e.1 tx (hsorted ▸ htx)
  obtain ⟨bp, bn, htake, hmapF, hmapK, hperm, hfilt⟩ := takeHeads_spec hm.keys hm.nonempty hentry
  have hinit : (SliceHeap.Init TxByPrice.Less bp).Perm bp := SliceHeap.Init_perm bp
  -- the heads of distinct senders: at most one per sender
  have hsingle : ∀ a, (bp.filter (sentBy c a)).length ≤ 1 := fun a =>
    Entries.length_filter_le_one (hmapF ▸ hm.keys) a
  have hheads : ∀ a, (SliceHeap.Init TxByPrice.Less bp).filter (sentBy c a) = bp.filter (sentBy c a) :=
    fun a => Entries.Perm.eq_of_length_le_one (hinit.filter _) (hsingle a)
  refine ⟨bp, bn, htake, ⟨SliceHeap.Init_heap TxByPrice.strictWeak bp, hmapK ▸ hm.keys, ?_, ?_, ?_, ?_⟩⟩
  · simpa using ((hinit.append_right _).trans hperm).trans hm.perm
  · intro a
    simpa [hheads, hm.lookup] using hfilt a
  · intro a
    simpa [hheads] using hsingle a
  · intro a ha
    rw [hheads] at ha
    -- a sender with no head has no entry
    have hout : a ∉ bn.map Prod.fst := by
      rw [hmapK, ← hmapF]
      intro hmem
      obtain ⟨y, hy, rfl⟩ := List.mem_map.mp hmem
      exact List.filter_eq_nil_iff.mp ha y hy (by simp)
    simp [(Entries.lookup_eq_none_iff_not_mem).mpr hout]

theorem setTxs_eq_set (acc : Bytes) (accTxs : List Transaction)
    (byNonce : List (Bytes × List Transaction)) :
    setTxs acc accTxs byNonce = Entries.set acc accTxs byNonce := rfl

/-- Taking `next` off the front of its sender's queue. -/
theorem flatMap_setTxs_perm {acc : Bytes} {next : Transaction} {accTxs : List Transaction}
    {byNonce : List (Bytes × List Transaction)} (hk : (byNonce.map Prod.fst).Nodup)
    (hq : byNonce.lookup acc = some (next :: accTxs)) :
    ((setTxs acc accTxs byNonce).flatMap Prod.snd ++ [next]).Perm (byNonce.flatMap Prod.snd) := by
  have h := Entries.flatMap_set_perm accTxs hk hq
  rw [← setTxs_eq_set, ← List.singleton_append, ← List.append_assoc] at h
  exact (List.perm_append_right_iff accTxs).mp h

/-- What the heap holds of each sender once `best` is popped: nothing of `best`'s sender, and
of every other sender what it held before. -/
theorem filter_of_pop {byPrice hp : List Transaction} {best : Transaction}
    (hsingle : ∀ a, (byPrice.filter (sentBy c a)).length ≤ 1) (hpop : (best :: hp).Perm byPrice)
    (a : Bytes) :
    hp.filter (sentBy c a) = if best.From c = a then [] else byPrice.filter (sentBy c a) := by
  have hf := hpop.filter (sentBy c a)
  by_cases h : best.From c = a
  · have hlen := hf.length_eq
    have hle := hsingle a
    simp only [List.filter_cons, sentBy, h, decide_true, if_true, List.length_cons] at hlen
    simp only [h, if_true]
    exact List.eq_nil_of_length_eq_zero (by omega)
  · simp only [List.filter_cons, sentBy, h, decide_false] at hf
    simpa [h] using Entries.Perm.eq_of_length_le_one hf (hsingle a)

theorem filter_best {byPrice hp : List Transaction} {best : Transaction}
    (hsingle : ∀ a, (byPrice.filter (sentBy c a)).length ≤ 1) (hpop : (best :: hp).Perm byPrice) :
    byPrice.filter (sentBy c (best.From c)) = [best] := by
  have hf := hpop.filter (sentBy c (best.From c))
  rw [List.filter_cons_of_pos (by simp), filter_of_pop hsingle hpop, if_pos rfl] at hf
  exact (List.singleton_perm.mp hf).symm

/-- The step that finds no next transaction of `best`'s sender. -/
theorem MergeInv.drop {byPrice hp out : List Transaction} {byNonce : List (Bytes × List Transaction)}
    {best : Transaction} (inv : MergeInv c sorted txs byPrice byNonce out)
    (hpop : (best :: hp).Perm byPrice) (hheap : SliceHeap.IsHeap TxByPrice.Less hp)
    (hq : (byNonce.lookup (best.From c)).getD [] = []) :
    MergeInv c sorted txs hp byNonce (out ++ [best]) := by
  refine ⟨hheap, inv.keys, ?_, ?_, ?_, ?_⟩
  · simpa [List.append_assoc] using ((hpop.append_right _).append_left out).trans
      (by simpa using inv.perm)
  · intro a
    rw [← inv.sender a, filter_of_pop inv.single hpop]
    by_cases h : best.From c = a
    · subst h
      simp [filter_best inv.single hpop, hq, sentBy]
    · simp [h, sentBy]
  · intro a
    rw [filter_of_pop inv.single hpop]
    split
    · simp
    · exact inv.single a
  · intro a ha
    rw [filter_of_pop inv.single hpop] at ha
    by_cases h : best.From c = a
    · subst h
      exact hq
    · rw [if_neg h] at ha
      exact inv.queued a ha

/-- The end of the merge: with the heap empty, nothing is queued and the output holds every
sender's list. -/
theorem MergeInv.done {byNonce : List (Bytes × List Transaction)} {out : List Transaction}
    (inv : MergeInv c sorted txs [] byNonce out) :
    out.Perm txs ∧ ∀ a, out.filter (sentBy c a) = sorted a := by
  have hnil : byNonce.flatMap Prod.snd = [] :=
    Entries.flatMap_eq_nil_of_lookup inv.keys fun a => inv.queued a rfl
  refine ⟨by simpa [hnil] using inv.perm, fun a => ?_⟩
  simpa [inv.queued a rfl] using inv.sender a

/-- The popped `best` is priced at least as high as the next transaction of every other sender
in any output that starts with `out ++ [best]` and holds every sender's list. -/
theorem MergeInv.best_priced {byPrice out : List Transaction}
    {byNonce : List (Bytes × List Transaction)} {best : Transaction}
    (inv : MergeInv c sorted txs byPrice byNonce out)
    (hbest : ∀ y ∈ byPrice, TxByPrice.Less y best = false)
    {L : List Transaction} (hL : out ++ [best] <+: L) (hLs : ∀ a, L.filter (sentBy c a) = sorted a)
    {b : Bytes} {t : Transaction} (hb : b ≠ best.From c)
    (ht : (L.drop (out.length + 1)).find? (sentBy c b) = some t) :
    t.data.Price ≤ best.data.Price := by
  obtain ⟨W, rfl⟩ := hL
  -- after `best`, sender `b` has what the heap and its queue held of it
  have hW : W.filter (sentBy c b) = byPrice.filter (sentBy c b) ++ (byNonce.lookup b).getD [] := by
    have h := (hLs b).trans (inv.sender b).symm
    have hbest' : sentBy c b best = false := by simpa [sentBy] using Ne.symm hb
    simpa [List.filter_append, hbest'] using h
  rw [show (out ++ [best] ++ W).drop (out.length + 1) = W by simp, ← List.head?_filter, hW] at ht
  cases hbp : byPrice.filter (sentBy c b) with
  | nil => simp [hbp, inv.queued b hbp] at ht
  | cons y ys =>
    have hy : y ∈ byPrice := List.mem_of_mem_filter (hbp ▸ List.mem_cons_self)
    have hyt : y = t := by simpa [hbp] using ht
    subst hyt
    have hless := hbest y hy
    simp only [TxByPrice.Less, decide_eq_false_iff_not] at hless
    omega

theorem PricedFrom.of_prefix {out L : List Transaction} {best : Transaction}
    (hL : out ++ [best] <+: L) (hnext : PricedFrom c (out.length + 1) L)
    (hbest : ∀ b t, b ≠ best.From c → (L.drop (out.length + 1)).find? (sentBy c b) = some t →
      t.data.Price ≤ best.data.Price) :
    PricedFrom c out.length L := by
  intro k x hk hx
  rcases Nat.eq_or_lt_of_le hk with rfl | hlt
  · have hbx : best = x := by
      obtain ⟨W, rfl⟩ := hL
      simpa using hx
    subst hbx
    exact hbest
  · exact hnext k x hlt hx

variable (hfrom : ∀ a, ∀ tx ∈ sorted a, tx.From c = a)
include hfrom

/-- A transaction queued for sender `a` is from `a`. -/
theorem MergeInv.from_of_queued {byPrice out : List Transaction}
    {byNonce : List (Bytes × List Transaction)} (inv : MergeInv c sorted txs byPrice byNonce out)
    {a : Bytes} {tx : Transaction} (htx : tx ∈ (byNonce.lookup a).getD []) : tx.From c = a :=
  hfrom a tx (inv.sender a ▸ List.mem_append_right _ htx)

/-- The step that pushes the next transaction of `best`'s sender. -/
theorem MergeInv.push {byPrice hp out : List Transaction} {byNonce : List (Bytes × List Transaction)}
    {best next : Transaction} {accTxs : List Transaction}
    (inv : MergeInv c sorted txs byPrice byNonce out) (hpop : (best :: hp).Perm byPrice)
    (hheap : SliceHeap.IsHeap TxByPrice.Less hp)
    (hq : byNonce.lookup (best.From c) = some (next :: accTxs)) :
    MergeInv c sorted txs (SliceHeap.Push TxByPrice.Less hp next)
      (setTxs (best.From c) accTxs byNonce) (out ++ [best]) := by
  have hnext : next.From c = best.From c :=
    inv.from_of_queued hfrom (by simp [hq])
  have hpush : (SliceHeap.Push TxByPrice.Less hp next).Perm (hp ++ [next]) :=
    SliceHeap.Push_perm hp next
  -- the heap after the push holds `next` for its sender and what it held for the others
  have hheads : ∀ a, (SliceHeap.Push TxByPrice.Less hp next).filter (sentBy c a) =
      if best.From c = a then [next] else byPrice.filter (sentBy c a) := by
    intro a
    have hf := hpush.filter (sentBy c a)
    rw [List.filter_append, filter_of_pop inv.single hpop] at hf
    by_cases h : best.From c = a
    · simpa [h, sentBy, hnext] using hf
    · have hn : sentBy c a next = false := by simpa [sentBy, hnext] using h
      rw [if_neg h, List.filter_singleton, hn, cond_false, List.append_nil] at hf
      simpa [h] using Entries.Perm.eq_of_length_le_one hf (inv.single a)
  have hlookup : ∀ a, (setTxs (best.From c) accTxs byNonce).lookup a =
      if a = best.From c then some accTxs else byNonce.lookup a := by
    intro a
    rw [setTxs_eq_set, Entries.lookup_set, hq]
    rfl
  refine ⟨SliceHeap.Push_heap TxByPrice.strictWeak hheap next, ?_, ?_, ?_, ?_, ?_⟩
  · simpa [setTxs_eq_set] using inv.keys
  · have hq' := flatMap_setTxs_perm inv.keys hq
    have hmid : (best :: (SliceHeap.Push TxByPrice.Less hp next ++
        (setTxs (best.From c) accTxs byNonce).flatMap Prod.snd)).Perm
        (byPrice ++ byNonce.flatMap Prod.snd) := by
      refine ((hpush.append_right _).cons best).trans ?_
      simpa [List.append_assoc] using hpop.append (List.perm_append_comm.trans hq')
    simpa [List.append_assoc] using (hmid.append_left out).trans (by simpa using inv.perm)
  · intro a
    rw [← inv.sender a, hheads, hlookup]
    by_cases h : best.From c = a
    · subst h
      simp [filter_best inv.single hpop, hq, sentBy]
    · simp [h, Ne.symm h, sentBy]
  · intro a
    rw [hheads]
    split
    · simp
    · exact inv.single a
  · intro a ha
    rw [hheads] at ha
    by_cases h : best.From c = a
    · simp [h] at ha
    · rw [if_neg h] at ha
      rw [hlookup, if_neg (Ne.symm h)]
      exact inv.queued a ha

/-- One round of the merge loop, from a state that holds the invariant and a heap that is not
empty: it pops `best`, keeps the invariant and takes one transaction out of the heap and the
queues. -/
theorem MergeInv.round {byPrice out : List Transaction} {byNonce : List (Bytes × List Transaction)}
    (inv : MergeInv c sorted txs byPrice byNonce out) (hne : byPrice ≠ []) :
    ∃ best byPrice' byNonce',
      (∀ fuel, mergeLoop c (fuel + 1) byPrice byNonce out =
        mergeLoop c fuel byPrice' byNonce' (out ++ [best])) ∧
      MergeInv c sorted txs byPrice' byNonce' (out ++ [best]) ∧
      byPrice'.length + (byNonce'.flatMap Prod.snd).length + 1 =
        byPrice.length + (byNonce.flatMap Prod.snd).length ∧
      ∀ y ∈ byPrice, TxByPrice.Less y best = false := by
  obtain ⟨best, hp, hPop, hpop, hheap, hbest⟩ :=
    SliceHeap.Pop_spec TxByPrice.strictWeak inv.heap hne
  obtain ⟨y, ys, rfl⟩ := List.exists_cons_of_ne_nil hne
  have hlen := hpop.length_eq
  simp only [List.length_cons] at hlen
  refine ⟨best, ?_⟩
  cases hq : byNonce.lookup (best.From c) with
  | none =>
    exact ⟨hp, byNonce, fun fuel => by simp [mergeLoop, hPop, hq],
      inv.drop hpop hheap (by simp [hq]), by simp; omega, hbest⟩
  | some l =>
    cases l with
    | nil =>
      exact ⟨hp, byNonce, fun fuel => by simp [mergeLoop, hPop, hq],
        inv.drop hpop hheap (by simp [hq]), by simp; omega, hbest⟩
    | cons next accTxs =>
      have hq' := (flatMap_setTxs_perm inv.keys hq).length_eq
      have hpush : (SliceHeap.Push TxByPrice.Less hp next).length = (hp ++ [next]).length :=
        (SliceHeap.Push_perm hp next).length_eq
      simp only [List.length_append, List.length_singleton] at hq' hpush
      exact ⟨_, _, fun fuel => by simp [mergeLoop, hPop, hq], inv.push hfrom hpop hheap hq,
        by simp only [List.length_cons]; omega, hbest⟩

/-- The run of the merge loop: with fuel for every transaction left, it returns an output that
extends `out`, holds every sender's list and, from `out` on, puts each transaction before the
cheaper next transactions of the other senders. -/
theorem mergeLoop_spec : ∀ (fuel : Nat) (byPrice : List Transaction)
    (byNonce : List (Bytes × List Transaction)) (out : List Transaction),
    MergeInv c sorted txs byPrice byNonce out →
    byPrice.length + (byNonce.flatMap Prod.snd).length ≤ fuel →
    ∃ L, mergeLoop c fuel byPrice byNonce out = some L ∧ L.Perm txs ∧
      (∀ a, L.filter (sentBy c a) = sorted a) ∧ out <+: L ∧ PricedFrom c out.length L
  | fuel, [], byNonce, out, inv, _ => by
    obtain ⟨hperm, hsorted⟩ := inv.done
    refine ⟨out, by cases fuel <;> rfl, hperm, hsorted, List.prefix_refl out, ?_⟩
    intro k x hk hx
    simp [List.getElem?_eq_none hk] at hx
  | 0, _ :: _, _, _, _, hfuel => by simp at hfuel
  | fuel + 1, y :: ys, byNonce, out, inv, hfuel => by
    obtain ⟨best, bp, bn, hstep, inv', hlen, hbest⟩ := inv.round hfrom (List.cons_ne_nil y ys)
    obtain ⟨L, hrun, hperm, hsorted, hpre, hpriced⟩ :=
      mergeLoop_spec fuel bp bn (out ++ [best]) inv' (by omega)
    refine ⟨L, (hstep fuel).trans hrun, hperm, hsorted, (List.prefix_append out [best]).trans hpre,
      PricedFrom.of_prefix hpre (by simpa using hpriced) ?_⟩
    exact fun b t hb ht => inv.best_priced hbest hpre hsorted hb ht

end Merge

/-- `sort.Sort(TxByNonce(...))` on fewer than twelve transactions: Go sorts them by insertion,
which keeps transactions of equal nonce in the order they came. -/
def TxByNonce.LessEq (a b : Transaction) : Prop := a.data.AccountNonce ≤ b.data.AccountNonce

instance : DecidableRel TxByNonce.LessEq := fun _ _ => inferInstanceAs (Decidable (_ ≤ _))

instance : Std.Total TxByNonce.LessEq := ⟨fun _ _ => Nat.le_total _ _⟩

instance : IsTrans Transaction TxByNonce.LessEq := ⟨fun _ _ _ => Nat.le_trans⟩

/-- The runtime of a short input: insertion sort by nonce, and the map visited in the order its
entries were made. -/
def insertionRuntime : Runtime where
  sortByNonce txs := txs.insertionSort TxByNonce.LessEq
  sortByNonce_perm txs := List.perm_insertionSort _ txs
  sortByNonce_sorted txs := List.pairwise_insertionSort TxByNonce.LessEq txs
  range m := m
  range_perm m := List.Perm.refl m

/-- A transaction whose sender is already in its cache. -/
def cachedTx (sender : Bytes) (nonce price : Nat) : Transaction :=
  ⟨⟨nonce, price, 0, none, 0, [], 0, 0, 0⟩, .BasicSigner, some ⟨.BasicSigner, sender⟩⟩

end Types
end Ethcore
