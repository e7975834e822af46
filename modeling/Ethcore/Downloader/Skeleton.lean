import Ethcore.Downloader.Queue
import Ethcore.Lib.Entries

/-!
# Filling a header skeleton: the `header*` tables of `queue.go`

The downloader first fetches a skeleton, every `MaxHeaderFetch`-th header, and then fills the
gaps in parallel.  `ScheduleSkeleton(from, skeleton)` makes one task per skeleton header: the
batch of `MaxHeaderFetch` headers that starts at `from + i * MaxHeaderFetch` and ends at the
`i`-th skeleton header.  `ReserveHeaders` hands a peer the lowest batch it has not failed,
`DeliverHeaders` accepts a batch that starts at the right number, links up and ends at the
skeleton header, copies it into `headerResults` and passes the filled prefix on to the
header processor; a rejected batch is marked as missed by the peer and queued again.
`CancelHeaders` and `ExpireHeaders` queue the batch of a request again.

`CancelHeaders` does not check that its request is still pending, so a request that
`ExpireHeaders` has already queued again is queued a second time, and two peers can then hold
the same batch.  Once one of them has delivered it, its task is gone, `DeliverHeaders` checks
the other's batch against the hash of a nil header, and rejects it however right it is
(`DeliverHeaders_rejects_filled`).

Modelling choices, on top of those of `Downloader.Queue`:

* The skeleton tables are a structure of their own; the functions here touch no other field of
  `queue`, and `Reset` clears the tables the skeleton functions reset anyway.
* `headerContCh` is its buffer, of capacity one; a send on a full buffer blocks.  Whether the
  non-blocking send on `headerProcCh` goes through is an argument of `DeliverHeaders`, which
  returns the batch it hands over.
* A call that panics or blocks returns `none`.
* The hash of a missing task, `Hash()` of a nil `*types.Header`, is the Keccak-256 of the RLP
  empty list that a nil struct pointer encodes to, which is `EmptyUncleHash`.
* The loops of `ReserveHeaders` and of the ready scan are bounded by the length of what they
  scan, which each round shortens or moves past.
-/

namespace Ethcore
namespace Downloader

/-- `MaxHeaderFetch`: the number of headers a request asks for. -/
def MaxHeaderFetch : Nat := 192

/-- A `fetchRequest` for a skeleton batch: the peer, the number the batch starts at, and the
time of the request. -/
structure headerRequest where
  Peer : String
  From : Nat
  Time : Nat
  deriving DecidableEq, Repr

/-- The skeleton tables of `queue`: the batches still to fetch by start number, their task
queue, the batches each peer failed, the pending requests by peer, the results (`none` before
`ScheduleSkeleton` and after `RetrieveHeaders`), the processed count, the number of the first
result, and the buffer of `headerContCh`. -/
structure skeletonQueue where
  headerTaskPool : List (Nat × Header)
  headerTaskQueue : Prque Nat
  headerPeerMiss : List (String × List Nat)
  headerPendPool : List (String × headerRequest)
  headerResults : Option (List (Option Header))
  headerProced : Nat
  headerOffset : Nat
  headerContCh : List Bool
  deriving DecidableEq, Repr

/-- The result of `DeliverHeaders`: the count and error it returns, the batch it hands to
`headerProcCh`, and the tables after it. -/
structure deliverResult where
  accepted : Nat
  err : Option String
  process : Option (List (Option Header))
  q : skeletonQueue
  deriving DecidableEq, Repr

def errDeliveryNotAccepted : String := "delivery not accepted"

namespace skeletonQueue

/-- The tables of `newQueue`: nothing scheduled. -/
def empty : skeletonQueue :=
  ⟨[], Prque.New, [], [], none, 0, 0, []⟩

/-- `ScheduleSkeleton`: one task per skeleton header, at `from + i * MaxHeaderFetch`; a
skeleton assembly already in progress panics. -/
def ScheduleSkeleton (q : skeletonQueue) («from» : Nat) (skeleton : List Header) :
    Option skeletonQueue :=
  if q.headerResults.isSome then none
  else
    let tasks := skeleton.mapIdx fun i header => («from» + i * MaxHeaderFetch, header)
    some
      { headerTaskPool := tasks.foldl (fun pool e => Entries.put e.1 e.2 pool) []
        headerTaskQueue := tasks.foldl (fun tq e => tq.Push e.1 (-(e.1 : Int))) Prque.New
        headerPeerMiss := []
        headerPendPool := q.headerPendPool
        headerResults := some (List.replicate (skeleton.length * MaxHeaderFetch) none)
        headerProced := 0
        headerOffset := «from»
        headerContCh := [] }

/-- `RetrieveHeaders`: the results and the processed count, and the results cleared. -/
def RetrieveHeaders (q : skeletonQueue) : (Option (List (Option Header)) × Nat) × skeletonQueue :=
  ((q.headerResults, q.headerProced), { q with headerResults := none, headerProced := 0 })

/-- The loop of `ReserveHeaders`: pop batches while none is chosen, skipping those the peer
missed; a popped `0` leaves nothing chosen, since `0` means none. -/
def reserveLoop (miss : List Nat) : Nat → Nat × List Nat × Prque Nat → Nat × List Nat × Prque Nat
  | 0, acc => acc
  | fuel + 1, (send, skip, tq) =>
      if send = 0 && !tq.Empty then
        match tq.PopItem with
        | none => (send, skip, tq)
        | some («from», tq) =>
            if «from» ∈ miss then reserveLoop miss fuel (send, skip ++ [«from»], tq)
            else reserveLoop miss fuel («from», skip, tq)
      else (send, skip, tq)

/-- `ReserveHeaders`: nothing for a peer with a pending request; otherwise the lowest batch the
peer has not missed, with the skipped ones put back. -/
def ReserveHeaders (q : skeletonQueue) (p : peer) (now : Nat) : Option headerRequest × skeletonQueue :=
  if p.id ∈ q.headerPendPool.map Prod.fst then (none, q)
  else
    let miss := (q.headerPeerMiss.lookup p.id).getD []
    let (send, skip, tq) := reserveLoop miss q.headerTaskQueue.Size (0, [], q.headerTaskQueue)
    -- merge all the skipped batches back
    let tq := skip.foldl (fun tq «from» => tq.Push «from» (-(«from» : Int))) tq
    if send = 0 then (none, { q with headerTaskQueue := tq })
    else
      let request : headerRequest := ⟨p.id, send, now⟩
      (some request, { q with headerTaskQueue := tq, headerPendPool := Entries.put p.id request q.headerPendPool })

/-- `CancelHeaders` (`cancel` on the header tables): queue the batch again and drop the peer's
pending request. -/
def CancelHeaders (q : skeletonQueue) (request : headerRequest) : skeletonQueue :=
  { q with
    headerTaskQueue :=
      if request.From > 0 then q.headerTaskQueue.Push request.From (-(request.From : Int))
      else q.headerTaskQueue
    headerPendPool := Entries.delete request.Peer q.headerPendPool }

/-- `ExpireHeaders` (`expire` on the header tables): every request older than the timeout is
queued again and dropped, and its peer reported with no headers. -/
def ExpireHeaders (q : skeletonQueue) (timeout now : Nat) : List (String × Nat) × skeletonQueue :=
  let expired := q.headerPendPool.filter fun e => now - e.2.Time > timeout
  let tq := expired.foldl (fun tq e =>
    if e.2.From > 0 then tq.Push e.2.From (-(e.2.From : Int)) else tq) q.headerTaskQueue
  (expired.map fun e => (e.1, 0),
    { q with
      headerTaskQueue := tq
      headerPendPool := expired.foldl (fun pend e => Entries.delete e.1 pend) q.headerPendPool })

/-- The ordering and ancestry checks over `headers[1:]`: each header has the next number and
names the one before it as its parent. -/
def linked : Nat → Header → List Header → Bool
  | _, _, [] => true
  | want, prev, header :: rest =>
      header.Number == want && prev.Hash == header.ParentHash && linked (want + 1) header rest

/-- The acceptance check of `DeliverHeaders` for a batch starting at `From` and ending at the
header of hash `target`. -/
def acceptsBatch (From : Nat) (target : Hash) (headers : List Header) : Bool :=
  headers.length == MaxHeaderFetch &&
    match headers with
    | [] => false
    | first :: rest =>
        first.Number == From && (headers.getLast?.map Header.Hash) == some target &&
          linked (From + 1) first rest

/-- The ready scan of `DeliverHeaders`: from the processed count on, whole batches whose first
result is present. -/
def readyLoop (results : List (Option Header)) (proced : Nat) : Nat → Nat → Nat
  | 0, ready => ready
  | fuel + 1, ready =>
      if proced + ready < results.length && (results[proced + ready]?).join.isSome then
        readyLoop results proced fuel (ready + MaxHeaderFetch)
      else ready

/-- `copy(results[i:], headers)`: as many headers as fit from index `i` on. -/
def copyAt (results : List (Option Header)) (i : Nat) (headers : List Header) : List (Option Header) :=
  results.take i ++ (headers.map some).take (results.length - i) ++ results.drop (i + headers.length)

/-- `DeliverHeaders` with the send on `headerProcCh` going through or not (`procReady`). -/
def DeliverHeaders (env : Env) (q : skeletonQueue) (id : String) (headers : List Header)
    (procReady : Bool) : Option deliverResult :=
  match q.headerPendPool.lookup id with
  | none => some ⟨0, some errNoFetchesPending, none, q⟩
  | some request =>
      let q := { q with headerPendPool := Entries.delete id q.headerPendPool }
      -- the skeleton header the batch has to end at; a nil header where the task is gone
      let target := ((q.headerTaskPool.lookup request.From).map Header.Hash).getD env.EmptyUncleHash
      if !acceptsBatch request.From target headers then
        -- mark the batch as missed by the peer and queue it again
        let miss := (q.headerPeerMiss.lookup id).getD []
        some ⟨0, some errDeliveryNotAccepted, none,
          { q with
            headerPeerMiss := Entries.put id (miss ++ [request.From]) q.headerPeerMiss
            headerTaskQueue := q.headerTaskQueue.Push request.From (-(request.From : Int)) }⟩
      else
        let results := q.headerResults.getD []
        let i := request.From - q.headerOffset
        if i > results.length then none
        else
          let results := copyAt results i headers
          let q := { q with headerResults := q.headerResults.map fun _ => results,
                            headerTaskPool := Entries.delete request.From q.headerTaskPool }
          let ready := readyLoop results q.headerProced results.length 0
          let (process, q) :=
            if ready > 0 && procReady then
              (some ((results.drop q.headerProced).take ready), { q with headerProced := q.headerProced + ready })
            else (none, q)
          -- check for termination
          if q.headerTaskPool = [] then
            if q.headerContCh.length ≥ 1 then none
            else some ⟨headers.length, none, process, { q with headerContCh := q.headerContCh ++ [false] }⟩
          else some ⟨headers.length, none, process, q⟩

/-! ### A batch queued twice -/

/-- `CancelHeaders` queues the batch of its request once more, whether or not the request is
still pending. -/
theorem CancelHeaders_count (q : skeletonQueue) (request : headerRequest) (hfrom : 0 < request.From) :
    (q.CancelHeaders request).headerTaskQueue.count request.From =
      q.headerTaskQueue.count request.From + 1 := by
  simp [CancelHeaders, hfrom]

/-- A batch whose last header does not hash to `target` fails the acceptance check. -/
theorem acceptsBatch_eq_false (From : Nat) {target : Hash} {headers : List Header}
    (hlast : headers.getLast?.map Header.Hash ≠ some target) : acceptsBatch From target headers = false := by
  unfold acceptsBatch
  cases headers with
  | nil => simp
  | cons first rest =>
      have hne : ((List.getLast? (first :: rest)).map Header.Hash == some target) = false := by
        simpa using hlast
      simp only [hne, Bool.and_false, Bool.false_and]

/-- **A delivery for a batch already filled is rejected.**  Where a peer's pending request is
for a batch whose task is gone, `DeliverHeaders` checks the batch against the hash of a nil
header: every batch ending elsewhere, the right one for the skeleton included, is rejected,
marked as missed by the peer and queued once more. -/
theorem DeliverHeaders_rejects_filled (env : Env) (q : skeletonQueue) {id : String}
    {request : headerRequest} (hreq : q.headerPendPool.lookup id = some request)
    (hfilled : q.headerTaskPool.lookup request.From = none) (headers : List Header)
    (hlast : headers.getLast?.map Header.Hash ≠ some env.EmptyUncleHash) (procReady : Bool) :
    ∃ q', q.DeliverHeaders env id headers procReady = some ⟨0, some errDeliveryNotAccepted, none, q'⟩ ∧
      request.From ∈ (q'.headerPeerMiss.lookup id).getD [] ∧
      q'.headerTaskQueue.count request.From = q.headerTaskQueue.count request.From + 1 := by
  have hreject := acceptsBatch_eq_false request.From hlast
  refine ⟨{ q with
      headerPendPool := Entries.delete id q.headerPendPool
      headerPeerMiss := Entries.put id ((q.headerPeerMiss.lookup id).getD [] ++ [request.From]) q.headerPeerMiss
      headerTaskQueue := q.headerTaskQueue.Push request.From (-(request.From : Int)) }, ?_, ?_, ?_⟩
  · simp only [DeliverHeaders, hreq, hfilled, Option.map_none, Option.getD_none, hreject, Bool.not_false,
      if_true]
  · simp [Entries.lookup_put_self]
  · simp

/-- The headers `1` to `MaxHeaderFetch`, numbered in order, each the parent of the next. -/
def fullBatch : List Header :=
  (List.range MaxHeaderFetch).map fun k => ⟨1001 + k, 1000 + k, k + 1, 0, 0, 0⟩

/-- The skeleton header that the batch starting at `1` ends at. -/
def skeletonTip : Header := ⟨1192, 1191, 192, 0, 0, 0⟩

/-- Hashes with `EmptyUncleHash = 0`. -/
def skeletonEnv : Env := ⟨0, 0, fun _ => 0, fun _ => 0, fun _ => 0, fun _ => 0⟩

/-- From `ScheduleSkeleton(1, [skeletonTip])`: peer `A` reserves the batch at `1`, its request
expires, and a late `CancelHeaders` of it queues the batch a second time; then peers `B` and
`C` each reserve it. -/
def twoHolders : skeletonQueue :=
  let q := (empty.ScheduleSkeleton 1 [skeletonTip]).getD empty
  let (rA, q) := q.ReserveHeaders ⟨"A", []⟩ 0
  let q := (q.ExpireHeaders 0 1).2
  let q := match rA with
    | some r => q.CancelHeaders r
    | none => q
  let q := (q.ReserveHeaders ⟨"B", []⟩ 1).2
  (q.ReserveHeaders ⟨"C", []⟩ 1).2

/-- `B` delivers the batch, which is accepted and handed on, and then `C` delivers the same
batch, which meets every condition of the skeleton and is rejected. -/
theorem DeliverHeaders_rejects_filled_fullBatch :
    acceptsBatch 1 skeletonTip.Hash fullBatch = true ∧
      ((twoHolders.DeliverHeaders skeletonEnv "B" fullBatch true).map fun r => r.accepted) = some 192 ∧
      ∃ q', (((twoHolders.DeliverHeaders skeletonEnv "B" fullBatch true).map deliverResult.q).getD
          twoHolders).DeliverHeaders skeletonEnv "C" fullBatch true =
            some ⟨0, some errDeliveryNotAccepted, none, q'⟩ ∧
        (⟨"C", 1, 1⟩ : headerRequest).From ∈ (q'.headerPeerMiss.lookup "C").getD [] ∧
        q'.headerTaskQueue.count (⟨"C", 1, 1⟩ : headerRequest).From =
          (((twoHolders.DeliverHeaders skeletonEnv "B" fullBatch true).map deliverResult.q).getD
            twoHolders).headerTaskQueue.count (⟨"C", 1, 1⟩ : headerRequest).From + 1 :=
  ⟨by decide +kernel, by decide +kernel,
    DeliverHeaders_rejects_filled skeletonEnv _ (by decide +kernel) (by decide +kernel) fullBatch
      (by decide +kernel) true⟩

end skeletonQueue

end Downloader
end Ethcore
