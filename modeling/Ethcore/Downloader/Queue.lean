import Ethcore.Lib.Prque
import Ethcore.Rlp.Item

namespace Ethcore
namespace Downloader

/-!
# The block download queue: `eth/downloader/queue.go`

Once the header chain is known, the downloader fetches block bodies (and, in fast sync,
receipts) for it.  `Schedule` puts each header in a task pool and a task queue for every
kind it needs.  `reserveHeaders` pops headers from a kind's task queue, lowest number first,
into a request for one peer (a header whose part is empty is done at once, one the peer is
known to lack is put back), and opens the header's slot in `resultCache`.  A request leaves
the pending pool by `deliver` (accepted headers become done, the rest go back to the task
queue), by `cancel`, by `Revoke` of its peer, or by `expire`.  `Results` hands out the
prefix of `resultCache` whose parts are all done.

The tables of one kind, `blockTaskPool`, `blockTaskQueue`, `blockPendPool` and
`blockDonePool` (and the `receipt` ones), are one `fetchPools` value, and the functions that
the source passes those maps to take and return it.

`Revoke` and `cancel` both return a request's headers to the task queue.  The downloader
revokes the requests of a peer that drops, while the fetcher cancels a request whose sending
failed, so both can act on one request: its headers are then queued twice
(`CancelBodies_Revoke_count`).

Modelling choices:

* Hashes are numbers, `0` is `common.Hash{}`; a header carries its hash as a field.
* A peer is its id and its `lacking` set.  `deliver` returns the hashes it marks lacking
  instead of changing the peer; the cap `maxLackingHashes`, past which the peer forgets
  random entries, is not modelled.
* Priorities are `-number` as an integer; their `float32` rounding is not modelled.
* `resultSize`, a `float64` moving average, is a rational, and the encoded size of a
  result is a parameter.
* Request times are numbers and `time.Since` a subtraction.
* The skeleton header fetches (`ScheduleSkeleton`, `ReserveHeaders`, `DeliverHeaders`), for
  which a request's `From` is set, are not modelled: a body or receipt request has `From = 0`,
  which `cancel` and `expire` skip.
-/

/-- `common.Hash`, as a number. -/
abbrev Hash := Nat

/-- `types.Header`, with the fields the queue reads. -/
structure Header where
  Hash : Downloader.Hash
  ParentHash : Downloader.Hash
  Number : Nat
  TxHash : Downloader.Hash
  UncleHash : Downloader.Hash
  ReceiptHash : Downloader.Hash
  deriving DecidableEq, Repr

/-- `SyncMode`. -/
inductive SyncMode where
  | FullSync
  | FastSync
  | LightSync
  deriving DecidableEq, Repr

/-- A peer: its id and the hashes it is known to lack. -/
structure peer where
  id : String
  lacking : List Hash

/-- `Lacks`: whether the peer is known not to have the item. -/
def peer.Lacks (p : peer) (hash : Hash) : Bool := hash ∈ p.lacking

/-- `fetchRequest` for a body or receipt fetch. -/
structure fetchRequest where
  Peer : String
  Headers : List Header
  Time : Nat
  deriving DecidableEq, Repr

/-- `fetchResult`: the header, the parts still pending, and what was delivered; transactions
and receipts are kept as their encodings. -/
structure fetchResult where
  Pending : Int
  Hash : Downloader.Hash
  Header : Downloader.Header
  Uncles : List Downloader.Header
  Transactions : List Bytes
  Receipts : List Bytes
  deriving DecidableEq, Repr

/-- The tables of one fetch kind. -/
structure fetchPools where
  taskPool : Hash → Option Header
  taskQueue : Prque Header
  pendPool : List (String × fetchRequest)
  donePool : Hash → Bool

/-- `queue`, without its skeleton header tables, its lock and its signals. -/
structure queue where
  mode : SyncMode
  headerHead : Hash
  blocks : fetchPools
  receipts : fetchPools
  resultCache : List (Option fetchResult)
  resultOffset : Nat
  resultSize : ℚ
  closed : Bool

/-- What the queue reads from outside: the empty-trie hashes, the hashes of delivered parts,
and the encoded size of a result. -/
structure Env where
  EmptyRootHash : Hash
  EmptyUncleHash : Hash
  DeriveShaTransactions : List Bytes → Hash
  DeriveShaReceipts : List Bytes → Hash
  CalcUncleHash : List Header → Hash
  encodedSize : fetchResult → Nat

/-- `blockCacheItems`. -/
def blockCacheItems : Nat := 8192

/-- `blockCacheMemory`. -/
def blockCacheMemory : Nat := 64 * 1024 * 1024

/-- `maxResultsProcess`. -/
def maxResultsProcess : Nat := 2048

def errInvalidChain : String := "retrieved hash chain is invalid"

def errInvalidBody : String := "retrieved block body is invalid"

def errInvalidReceipt : String := "retrieved receipt is invalid"

def errNoFetchesPending : String := "no fetches pending"

def errStaleDelivery : String := "stale delivery"

/-! ### Pools -/

namespace fetchPools

/-- The tables of a kind with nothing scheduled. -/
def empty : fetchPools where
  taskPool := fun _ => none
  taskQueue := Prque.New
  pendPool := []
  donePool := fun _ => false

/-- Put headers back in the task queue, each at its priority. -/
def pushHeaders (pools : fetchPools) (headers : List Header) : fetchPools :=
  { pools with taskQueue := headers.foldl (fun tq h => tq.Push h (-(h.Number : Int))) pools.taskQueue }

/-- `delete(pendPool, id)`. -/
def deletePend (pools : fetchPools) (id : String) : fetchPools :=
  { pools with pendPool := pools.pendPool.filter fun e => e.1 ≠ id }

@[simp] theorem pushHeaders_pendPool (pools : fetchPools) (headers : List Header) :
    (pools.pushHeaders headers).pendPool = pools.pendPool := rfl

@[simp] theorem deletePend_taskQueue (pools : fetchPools) (id : String) :
    (pools.deletePend id).taskQueue = pools.taskQueue := rfl

@[simp] theorem count_pushHeaders (pools : fetchPools) (headers : List Header) (h : Header) :
    (pools.pushHeaders headers).taskQueue.count h = pools.taskQueue.count h + headers.count h :=
  Prque.count_foldl_Push _ headers pools.taskQueue h

theorem lookup_filter_ne (l : List (String × fetchRequest)) (id : String) :
    (l.filter fun e => e.1 ≠ id).lookup id = none := by
  induction l with
  | nil => rfl
  | cons e rest ih =>
      obtain ⟨k, v⟩ := e
      by_cases hk : k = id
      · rw [List.filter_cons_of_neg (by simpa using hk)]
        exact ih
      · rw [List.filter_cons_of_pos (by simpa using hk)]
        have hne : (id == k) = false := beq_false_of_ne (Ne.symm hk)
        simp only [List.lookup_cons, hne]
        exact ih

@[simp] theorem lookup_deletePend (pools : fetchPools) (id : String) :
    (pools.deletePend id).pendPool.lookup id = none :=
  lookup_filter_ne pools.pendPool id

end fetchPools

/-! ### The queue -/

namespace queue

/-- `newQueue`. -/
def newQueue : queue where
  mode := .FullSync
  headerHead := 0
  blocks := .empty
  receipts := .empty
  resultCache := List.replicate blockCacheItems none
  resultOffset := 0
  resultSize := 0
  closed := false

/-- The loop of `Schedule`: a header out of number order or not on the last scheduled one
ends it, and one already scheduled is skipped. -/
def scheduleLoop (q : queue) : List Header → Nat → List Header → List Header × queue
  | [], _, inserts => (inserts, q)
  | header :: rest, «from», inserts =>
    let hash := header.Hash
    if header.Number ≠ «from» then (inserts, q)
    else if q.headerHead ≠ 0 ∧ q.headerHead ≠ header.ParentHash then (inserts, q)
    else if (q.blocks.taskPool hash).isSome then scheduleLoop q rest «from» inserts
    else if (q.receipts.taskPool hash).isSome then scheduleLoop q rest «from» inserts
    else
      -- the header is queued for its body, and in fast sync for its receipts
      let add (pools : fetchPools) : fetchPools :=
        { pools with
          taskPool := Function.update pools.taskPool hash (some header)
          taskQueue := pools.taskQueue.Push header (-(header.Number : Int)) }
      let q' := { q with
        blocks := add q.blocks
        receipts := if q.mode = .FastSync then add q.receipts else q.receipts
        headerHead := hash }
      scheduleLoop q' rest («from» + 1) (inserts ++ [header])

/-- `Schedule`: queue a chain segment starting at number `from`, returning the headers
queued. -/
def Schedule (q : queue) (headers : List Header) («from» : Nat) : List Header × queue :=
  q.scheduleLoop headers «from» []

/-- `resultSlots`: the result slots not yet done or requested, within the item limit and
the memory limit of the cache. -/
def resultSlots (q : queue) (pools : fetchPools) : Int :=
  let limit : Nat :=
    if (q.resultCache.length : ℚ) * q.resultSize > blockCacheMemory then
      ((blockCacheMemory + q.resultSize - 1) / q.resultSize).floor.toNat
    else q.resultCache.length
  -- the finished slots are counted up to the first empty one
  let finished :=
    (((q.resultCache.take limit).takeWhile Option.isSome).filterMap id).countP
      fun r => pools.donePool r.Hash
  let pending :=
    (pools.pendPool.map fun e =>
      e.2.Headers.countP fun h => h.Number < q.resultOffset + limit).sum
  limit - finished - pending

/-- The slot of a header number in `resultCache`, if it lies in the cache. -/
def slot (q : queue) (number : Nat) : Option Nat :=
  if q.resultOffset ≤ number ∧ number - q.resultOffset < q.resultCache.length then
    some (number - q.resultOffset)
  else none

/-- Change the result in a slot of the cache. -/
def modifyResult (q : queue) (index : Nat) (f : fetchResult → fetchResult) : queue :=
  { q with resultCache := q.resultCache.set index ((q.resultCache[index]?).join.map f) }

/-- The state of `reserveHeaders`' loop: the queue and the kind's tables, the slots left
(`space`), the loop counter, the headers to send and to skip, and whether a part was done. -/
structure reserveState where
  q : queue
  pools : fetchPools
  space : Int
  proc : Int
  send : List Header
  skip : List Header
  progress : Bool

/-- The loop of `reserveHeaders`, for at most `fuel` headers popped; `.error` is its early
return on a header outside the cache, with the state reached. -/
def reserveLoop (p : peer) (count : Nat) (isNoop : Header → Bool) :
    Nat → reserveState → Except (String × reserveState) reserveState
  | 0, st => .ok st
  | fuel + 1, st =>
    if st.proc < st.space ∧ st.send.length < count ∧ st.pools.taskQueue.Empty = false then
      match st.pools.taskQueue.PopItem with
      | none => .ok st
      | some (header, taskQueue) =>
        let st := { st with pools := { st.pools with taskQueue := taskQueue } }
        let hash := header.Hash
        match st.q.slot header.Number with
        | none => .error (errInvalidChain, st)
        | some index =>
          -- the first request of a header opens its result slot
          let st :=
            if (st.q.resultCache[index]?).join.isNone then
              let components : Int := if st.q.mode = .FastSync then 2 else 1
              { st with q := { st.q with
                resultCache := st.q.resultCache.set index
                  (some ⟨components, hash, header, [], [], []⟩) } }
            else st
          if isNoop header then
            -- an empty part is done at once and does not count against the loop
            let st := { st with
              pools := { st.pools with
                donePool := Function.update st.pools.donePool hash true
                taskPool := Function.update st.pools.taskPool hash none }
              q := st.q.modifyResult index fun r => { r with Pending := r.Pending - 1 }
              space := st.space - 1
              progress := true }
            reserveLoop p count isNoop fuel st
          else if p.Lacks hash then
            reserveLoop p count isNoop fuel { st with skip := st.skip ++ [header], proc := st.proc + 1 }
          else
            reserveLoop p count isNoop fuel { st with send := st.send ++ [header], proc := st.proc + 1 }
    else .ok st

/-- `reserveHeaders`: reserve up to `count` headers of a kind for a peer, skipping those it
lacks; the request, whether a part was done, and an error. -/
def reserveHeaders (q : queue) (pools : fetchPools) (p : peer) (count : Nat)
    (isNoop : Header → Bool) (now : Nat) :
    (Option fetchRequest × Bool × Option String) × queue × fetchPools :=
  if pools.taskQueue.Empty then ((none, false, none), q, pools)
  else if (pools.pendPool.lookup p.id).isSome then ((none, false, none), q, pools)
  else
    let start : reserveState := ⟨q, pools, q.resultSlots pools, 0, [], [], false⟩
    match reserveLoop p count isNoop pools.taskQueue.Size start with
    | .error (e, st) => ((none, false, some e), st.q, st.pools)
    | .ok st =>
      -- the skipped headers go back to the task queue
      let pools := st.pools.pushHeaders st.skip
      if st.send = [] then ((none, st.progress, none), st.q, pools)
      else
        let request : fetchRequest := ⟨p.id, st.send, now⟩
        ((some request, st.progress, none), st.q,
          { pools with pendPool := (p.id, request) :: pools.pendPool })

/-- `ReserveBodies`: a body is empty when both its transaction and uncle hashes are the
empty ones. -/
def ReserveBodies (env : Env) (q : queue) (p : peer) (count now : Nat) :
    (Option fetchRequest × Bool × Option String) × queue :=
  let isNoop (header : Header) : Bool :=
    header.TxHash = env.EmptyRootHash && header.UncleHash = env.EmptyUncleHash
  let (r, q, pools) := q.reserveHeaders q.blocks p count isNoop now
  (r, { q with blocks := pools })

/-- `ReserveReceipts`: receipts are empty when the receipt hash is the empty one. -/
def ReserveReceipts (env : Env) (q : queue) (p : peer) (count now : Nat) :
    (Option fetchRequest × Bool × Option String) × queue :=
  let isNoop (header : Header) : Bool := header.ReceiptHash = env.EmptyRootHash
  let (r, q, pools) := q.reserveHeaders q.receipts p count isNoop now
  (r, { q with receipts := pools })

/-- `cancel`: put a request's headers back in the task queue and drop the request of its
peer. -/
def cancel (pools : fetchPools) (request : fetchRequest) : fetchPools :=
  (pools.pushHeaders request.Headers).deletePend request.Peer

def CancelBodies (q : queue) (request : fetchRequest) : queue :=
  { q with blocks := cancel q.blocks request }

def CancelReceipts (q : queue) (request : fetchRequest) : queue :=
  { q with receipts := cancel q.receipts request }

/-- `Revoke`: put back the headers of the peer's pending requests of both kinds. -/
def Revoke (q : queue) (peerId : String) : queue :=
  let revoke (pools : fetchPools) : fetchPools :=
    match pools.pendPool.lookup peerId with
    | some request => (pools.pushHeaders request.Headers).deletePend peerId
    | none => pools
  { q with blocks := revoke q.blocks, receipts := revoke q.receipts }

/-- `expire`: put back the headers of every request older than `timeout`, and report each
such peer with the number of its headers. -/
def expire (pools : fetchPools) (now timeout : Nat) : fetchPools × List (String × Nat) :=
  let expired := pools.pendPool.filter fun e => now - e.2.Time > timeout
  let pools' := expired.foldl (fun pools e => pools.pushHeaders e.2.Headers) pools
  ({ pools' with pendPool := pools.pendPool.filter fun e => ¬(now - e.2.Time > timeout) },
    expired.map fun e => (e.1, e.2.Headers.length))

def ExpireBodies (q : queue) (now timeout : Nat) : List (String × Nat) × queue :=
  let (pools, r) := expire q.blocks now timeout
  (r, { q with blocks := pools })

def ExpireReceipts (q : queue) (now timeout : Nat) : List (String × Nat) × queue :=
  let (pools, r) := expire q.receipts now timeout
  (r, { q with receipts := pools })

/-- The loop of `deliver` over the request's headers: the first `results` are
reconstructed into their slots until one fails; returns the number accepted and the
failure.  `none` is a panic of `reconstruct`. -/
def deliverLoop (reconstruct : Header → Nat → fetchResult → Option (Except String fetchResult))
    (results : Nat) : Nat → List Header → queue × fetchPools → Nat →
      Option (queue × fetchPools × Nat × Option String)
  | _, [], (q, pools), accepted => some (q, pools, accepted, none)
  | i, header :: rest, (q, pools), accepted =>
    if i ≥ results then some (q, pools, accepted, none)
    else
      match q.slot header.Number with
      | none => some (q, pools, accepted, some errInvalidChain)
      | some index =>
        match (q.resultCache[index]?).join with
        | none => some (q, pools, accepted, some errInvalidChain)
        | some result =>
          match reconstruct header i result with
          | none => none
          | some (.error e) => some (q, pools, accepted, some e)
          | some (.ok result) =>
            let hash := header.Hash
            let result := { result with Pending := result.Pending - 1 }
            let q := { q with resultCache := q.resultCache.set index (some result) }
            let pools := { pools with
              donePool := Function.update pools.donePool hash true
              taskPool := Function.update pools.taskPool hash none }
            deliverLoop reconstruct results (i + 1) rest (q, pools) (accepted + 1)

/-- `deliver`: take the peer's request out of the pending pool, accept the delivered parts
in order, and put the other headers back.  Returns the number accepted, the error, and the
hashes marked lacking for the peer (all of them on an empty delivery). -/
def deliver (q : queue) (pools : fetchPools) (id : String) (results : Nat)
    (reconstruct : Header → Nat → fetchResult → Option (Except String fetchResult)) :
    Option ((Nat × Option String × List Hash) × queue × fetchPools) :=
  match pools.pendPool.lookup id with
  | none => some ((0, some errNoFetchesPending, []), q, pools)
  | some request =>
    let pools := pools.deletePend id
    let lacking := if results = 0 then request.Headers.map (·.Hash) else []
    (deliverLoop reconstruct results 0 request.Headers (q, pools) 0).map
      fun (q, pools, accepted, failure) =>
        -- the accepted headers are a prefix; the others go back to the task queue
        let pools := pools.pushHeaders (request.Headers.drop accepted)
        let err : Option String :=
          match failure with
          | none => none
          | some e =>
            if e = errInvalidChain then some e
            else if accepted > 0 then some ("partial failure: " ++ e)
            else some errStaleDelivery
        ((accepted, err, lacking), q, pools)

/-- `DeliverBodies`: a body is accepted when its transactions and uncles hash to the
header's. -/
def DeliverBodies (env : Env) (q : queue) (id : String) (txLists : List (List Bytes))
    (uncleLists : List (List Header)) : Option ((Nat × Option String × List Hash) × queue) :=
  let reconstruct (header : Header) (index : Nat) (result : fetchResult) :
      Option (Except String fetchResult) :=
    match txLists[index]?, uncleLists[index]? with
    | some txs, some uncles =>
      if env.DeriveShaTransactions txs ≠ header.TxHash ∨ env.CalcUncleHash uncles ≠ header.UncleHash
      then some (.error errInvalidBody)
      else some (.ok { result with Transactions := txs, Uncles := uncles })
    | _, _ => none
  (q.deliver q.blocks id txLists.length reconstruct).map fun (r, q, pools) =>
    (r, { q with blocks := pools })

/-- `DeliverReceipts`: receipts are accepted when they hash to the header's. -/
def DeliverReceipts (env : Env) (q : queue) (id : String) (receiptList : List (List Bytes)) :
    Option ((Nat × Option String × List Hash) × queue) :=
  let reconstruct (header : Header) (index : Nat) (result : fetchResult) :
      Option (Except String fetchResult) :=
    match receiptList[index]? with
    | some receipts =>
      if env.DeriveShaReceipts receipts ≠ header.ReceiptHash then some (.error errInvalidReceipt)
      else some (.ok { result with Receipts := receipts })
    | none => none
  (q.deliver q.receipts id receiptList.length reconstruct).map fun (r, q, pools) =>
    (r, { q with receipts := pools })

/-- `countProcessableItems`: the length of the cache's prefix whose parts are all done. -/
def countProcessableItems (q : queue) : Nat :=
  (q.resultCache.takeWhile fun r =>
    match r with
    | some r => decide (r.Pending ≤ 0)
    | none => false).length

/-- `Results`: hand out up to `maxResultsProcess` processable results, forget them in the
done pools, shift the cache and update the size estimate.  A blocking call that would wait
for a delivery is `none`. -/
def Results (env : Env) (q : queue) (block : Bool) : Option (List fetchResult × queue) :=
  let nproc := q.countProcessableItems
  if nproc = 0 ∧ q.closed = false then
    if block then none else some ([], q)
  else
    let nproc := min nproc maxResultsProcess
    let results := (q.resultCache.take nproc).filterMap id
    let forget (pools : fetchPools) : fetchPools :=
      { pools with donePool := fun h => pools.donePool h && !(results.any fun r => r.Header.Hash = h) }
    some (results, { q with
      blocks := forget q.blocks
      receipts := forget q.receipts
      resultCache := q.resultCache.drop nproc ++ List.replicate nproc none
      resultOffset := q.resultOffset + nproc
      resultSize := results.foldl
        (fun size r => (1 / 10 : ℚ) * env.encodedSize r + (1 - 1 / 10 : ℚ) * size) q.resultSize })

/-- `Prepare`: move the result offset up to `offset` and set the sync mode. -/
def Prepare (q : queue) (offset : Nat) (mode : SyncMode) : queue :=
  { q with
    resultOffset := if q.resultOffset < offset then offset else q.resultOffset
    mode := mode }

/-- `Reset`: empty the tables and the result cache and return to full sync; the size
estimate stays. -/
def Reset (q : queue) : queue :=
  { q with
    closed := false
    mode := .FullSync
    headerHead := 0
    blocks := .empty
    receipts := .empty
    resultCache := List.replicate blockCacheItems none
    resultOffset := 0 }

/-- `Close`: mark the end of the sync. -/
def Close (q : queue) : queue := { q with closed := true }

/-! ### A request revoked and cancelled -/

/-- `Revoke` of a peer with a pending body request puts the request's headers back and drops
the request. -/
theorem Revoke_blocks (q : queue) (request : fetchRequest)
    (hpend : q.blocks.pendPool.lookup request.Peer = some request) :
    (q.Revoke request.Peer).blocks = (q.blocks.pushHeaders request.Headers).deletePend request.Peer := by
  simp [Revoke, hpend]

/-- Revoking a peer and then cancelling the body request it had pending queues the request's
headers twice: each header of the request gains two entries in the task queue, and no request
of the peer is pending. -/
theorem CancelBodies_Revoke_count (q : queue) (request : fetchRequest)
    (hpend : q.blocks.pendPool.lookup request.Peer = some request) (h : Header) :
    ((q.Revoke request.Peer).CancelBodies request).blocks.taskQueue.count h =
        q.blocks.taskQueue.count h + 2 * request.Headers.count h ∧
      ((q.Revoke request.Peer).CancelBodies request).blocks.pendPool.lookup request.Peer = none := by
  have hrevoke := Revoke_blocks q request hpend
  constructor
  · simp only [CancelBodies, cancel, fetchPools.deletePend_taskQueue,
      fetchPools.count_pushHeaders, hrevoke]
    omega
  · simp [CancelBodies, cancel]

/-- A header of number `0` with non-empty parts. -/
def sampleHeader : Header := ⟨1, 0, 0, 5, 5, 5⟩

/-- Every hash `0`; no body or receipt is empty for `sampleHeader`. -/
def sampleEnv : Env := ⟨0, 0, fun _ => 0, fun _ => 0, fun _ => 0, fun _ => 0⟩

/-- A peer that lacks nothing. -/
def samplePeer : peer := ⟨"p", []⟩

/-- The request `ReserveBodies` makes for `samplePeer` at time `0`. -/
def sampleRequest : fetchRequest := ⟨"p", [sampleHeader], 0⟩

/-- The queue after `sampleHeader` is scheduled and its body reserved for `samplePeer`. -/
def sampleQueue : queue :=
  ((newQueue.Schedule [sampleHeader] 0).2.ReserveBodies sampleEnv samplePeer 1 0).2

theorem CancelBodies_Revoke_count_sample :
    ((newQueue.Schedule [sampleHeader] 0).2.ReserveBodies sampleEnv samplePeer 1 0).1 =
        (some sampleRequest, false, none) ∧
      ((sampleQueue.Revoke sampleRequest.Peer).CancelBodies sampleRequest).blocks.taskQueue.count
        sampleHeader = 2 := by
  -- the reservation, run once: the request is pending and the header no longer queued
  obtain ⟨hreserve, hpend, h0⟩ :
      ((newQueue.Schedule [sampleHeader] 0).2.ReserveBodies sampleEnv samplePeer 1 0).1 =
          (some sampleRequest, false, none) ∧
        sampleQueue.blocks.pendPool.lookup sampleRequest.Peer = some sampleRequest ∧
        sampleQueue.blocks.taskQueue.count sampleHeader = 0 := by
    decide +kernel
  refine ⟨hreserve, ?_⟩
  rw [(CancelBodies_Revoke_count sampleQueue sampleRequest hpend sampleHeader).1, h0]
  rfl

end queue

end Downloader
end Ethcore
