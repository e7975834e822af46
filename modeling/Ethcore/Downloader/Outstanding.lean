import Ethcore.Downloader.Queue
import Ethcore.Lib.Indexed
import Mathlib.Logic.Relation

/-!
# Each header is out at most once

A header scheduled for a kind of fetch is, until it is done, in the kind's task queue or in
the pending request of one peer.  `fetchPools.outstanding` counts both places, and
`fetchPools.OutOnce` is `Indexed` for it: no header is out twice, and every header out is the
one the task pool holds at its hash, the pool `Schedule` looks in before it queues a header.

Every operation of the queue keeps this, provided `CancelBodies` and `CancelReceipts` are
given a request that is still pending (`Reachable.outOnce`).  `reserveHeaders` moves headers
from the task queue into one request, or marks empty parts done; `deliver` marks the
accepted headers done and queues the rest again; `expire`, `cancel` and `Revoke` queue the
headers of pending requests again and drop the requests.  A request that `Revoke` already
dropped is not pending, and cancelling it queues its headers a second time
(`CancelBodies_Revoke_count`).
-/

namespace Ethcore
namespace Downloader

/-! ### Counting what is out -/

/-- How many times the requests of a pending pool hold a header. -/
def requested (rs : List (String × fetchRequest)) (h : Header) : Nat :=
  (rs.map fun e => e.2.Headers.count h).sum

@[simp] theorem requested_nil (h : Header) : requested [] h = 0 := rfl

@[simp] theorem requested_cons (e : String × fetchRequest) (rs : List (String × fetchRequest))
    (h : Header) : requested (e :: rs) h = e.2.Headers.count h + requested rs h := by
  simp [requested]

/-- Splitting the pool by a test on its entries splits the count. -/
theorem requested_filter_add_filter_not (rs : List (String × fetchRequest))
    (p : String × fetchRequest → Prop) [DecidablePred p] (h : Header) :
    requested (rs.filter fun e => p e) h + requested (rs.filter fun e => ¬p e) h =
      requested rs h := by
  induction rs with
  | nil => rfl
  | cons e rs ih =>
      by_cases hp : p e
      · simp only [List.filter_cons, hp, decide_true, not_true_eq_false, decide_false,
          Bool.false_eq_true, if_true, if_false, requested_cons]
        omega
      · simp only [List.filter_cons, hp, decide_false, not_false_eq_true, decide_true,
          Bool.false_eq_true, if_true, if_false, requested_cons]
        omega

/-- Dropping the requests of a peer drops at least the one `lookup` finds. -/
theorem requested_filter_ne_add_le {rs : List (String × fetchRequest)} {id : String}
    {request : fetchRequest} (hl : rs.lookup id = some request) (h : Header) :
    requested (rs.filter fun e => e.1 ≠ id) h + request.Headers.count h ≤ requested rs h := by
  induction rs with
  | nil => cases hl
  | cons e rs ih =>
      obtain ⟨k, v⟩ := e
      by_cases hk : k = id
      · -- the first entry of the peer is the request, and the rest only shrinks
        subst hk
        rw [List.lookup_cons_self] at hl
        cases hl
        have hsplit := requested_filter_add_filter_not rs (fun e => e.1 ≠ k) h
        rw [List.filter_cons_of_neg (by simp), requested_cons]
        dsimp only
        omega
      · have hne : (id == k) = false := beq_false_of_ne (Ne.symm hk)
        simp only [List.lookup_cons, hne] at hl
        rw [List.filter_cons_of_pos (by simpa using hk), requested_cons, requested_cons]
        have := ih hl
        omega

namespace fetchPools

/-- How many times a header is out: in the task queue, or in a pending request. -/
def outstanding (pools : fetchPools) (h : Header) : Nat :=
  pools.taskQueue.count h + requested pools.pendPool h

/-- The tables of a kind hold each header out at most once, each at its hash in the task
pool. -/
def OutOnce (pools : fetchPools) : Prop :=
  Indexed Header.Hash pools.outstanding pools.taskPool

theorem outOnce_empty : empty.OutOnce := by
  have h : empty.outstanding = fun _ => 0 := rfl
  unfold OutOnce
  rw [h]
  exact Indexed.zero _ _

/-- Queuing a request's headers again and dropping the peer's requests, where the request is
the peer's: nothing is out more often than before. -/
theorem outstanding_pushHeaders_deletePend {pools : fetchPools} {id : String}
    {request : fetchRequest} (hl : pools.pendPool.lookup id = some request) (h : Header) :
    ((pools.pushHeaders request.Headers).deletePend id).outstanding h ≤ pools.outstanding h := by
  have := requested_filter_ne_add_le hl h
  simp only [outstanding, count_pushHeaders, deletePend, pushHeaders_pendPool]
  omega

theorem OutOnce.pushHeaders_deletePend {pools : fetchPools} {id : String}
    {request : fetchRequest} (hu : pools.OutOnce) (hl : pools.pendPool.lookup id = some request) :
    ((pools.pushHeaders request.Headers).deletePend id).OutOnce :=
  Indexed.of_le hu (outstanding_pushHeaders_deletePend hl)

/-- `Schedule`'s insertion of a header whose hash is free in the task pool. -/
theorem OutOnce.schedule {pools : fetchPools} (hu : pools.OutOnce) (header : Header)
    (hfree : pools.taskPool header.Hash = none) :
    ({ pools with
        taskPool := Function.update pools.taskPool header.Hash (some header)
        taskQueue := pools.taskQueue.Push header (-(header.Number : Int)) } : fetchPools).OutOnce :=
  Indexed.add hu header hfree fun a => by
    simp only [outstanding, Prque.count_Push]
    rw [Nat.add_right_comm]

/-- Queuing the headers of a list of requests. -/
theorem count_foldl_pushHeaders (rs : List (String × fetchRequest)) (pools : fetchPools)
    (h : Header) :
    (rs.foldl (fun pools e => pools.pushHeaders e.2.Headers) pools).taskQueue.count h =
      pools.taskQueue.count h + requested rs h := by
  induction rs generalizing pools with
  | nil => rfl
  | cons e rs ih =>
      rw [List.foldl_cons, ih, count_pushHeaders, requested_cons]
      omega

theorem foldl_pushHeaders_taskPool (rs : List (String × fetchRequest)) (pools : fetchPools) :
    (rs.foldl (fun pools e => pools.pushHeaders e.2.Headers) pools).taskPool = pools.taskPool := by
  induction rs generalizing pools with
  | nil => rfl
  | cons e rs ih => rw [List.foldl_cons, ih]; rfl

end fetchPools

namespace queue

open fetchPools

/-! ### Expiry and cancellation -/

/-- `expire` moves the headers of the expired requests back to the task queue. -/
theorem outstanding_expire (pools : fetchPools) (now timeout : Nat) (h : Header) :
    (expire pools now timeout).1.outstanding h = pools.outstanding h := by
  have hsplit := requested_filter_add_filter_not pools.pendPool
    (fun e => now - e.2.Time > timeout) h
  simp only [expire, outstanding, count_foldl_pushHeaders] at hsplit ⊢
  omega

theorem outOnce_expire {pools : fetchPools} (hu : pools.OutOnce) (now timeout : Nat) :
    (expire pools now timeout).1.OutOnce := by
  have hpool : (expire pools now timeout).1.taskPool = pools.taskPool :=
    foldl_pushHeaders_taskPool _ pools
  unfold fetchPools.OutOnce
  rw [hpool]
  exact Indexed.of_le hu fun h => (outstanding_expire pools now timeout h).le

/-! ### Delivery -/

/-- What `deliver`'s loop does to the tables: it accepts a prefix of the headers, clears
their task pool slots, and leaves the task queue, the pending pool and the two kinds'
tables of the queue as they were. -/
theorem deliverLoop_spec
    (reconstruct : Header → Nat → fetchResult → Option (Except String fetchResult))
    (results : Nat) :
    ∀ (hs : List Header) (i : Nat) (q : queue) (pools : fetchPools) (acc : Nat)
      {q' : queue} {pools' : fetchPools} {accepted : Nat} {failure : Option String},
      deliverLoop reconstruct results i hs (q, pools) acc =
          some (q', pools', accepted, failure) →
      ∃ k, accepted = acc + k ∧ pools'.taskQueue = pools.taskQueue ∧
        pools'.pendPool = pools.pendPool ∧
        (∀ x, (∀ a ∈ hs.take k, a.Hash ≠ x) → pools'.taskPool x = pools.taskPool x) ∧
        q'.blocks = q.blocks ∧ q'.receipts = q.receipts := by
  intro hs
  induction hs with
  | nil =>
      intro i q pools acc q' pools' accepted failure h
      cases h
      exact ⟨0, rfl, rfl, rfl, fun _ _ => rfl, rfl, rfl⟩
  | cons header rest ih =>
      intro i q pools acc q' pools' accepted failure h
      -- every exit but the accepting one stops with nothing accepted
      have hstop : ∀ e, some (q, pools, acc, e) = some (q', pools', accepted, failure) →
          ∃ k, accepted = acc + k ∧ pools'.taskQueue = pools.taskQueue ∧
            pools'.pendPool = pools.pendPool ∧
            (∀ x, (∀ a ∈ (header :: rest).take k, a.Hash ≠ x) →
              pools'.taskPool x = pools.taskPool x) ∧
            q'.blocks = q.blocks ∧ q'.receipts = q.receipts := by
        intro e he
        cases he
        exact ⟨0, rfl, rfl, rfl, fun _ _ => rfl, rfl, rfl⟩
      unfold deliverLoop at h
      split at h
      · exact hstop _ h
      · split at h
        · exact hstop _ h
        · split at h
          · exact hstop _ h
          · split at h
            · cases h
            · exact hstop _ h
            · -- the header is accepted, and the loop goes on with the rest
              obtain ⟨k, hk, hq, hp, ht, hb, hr⟩ := ih _ _ _ _ h
              refine ⟨k + 1, by omega, hq, hp, ?_, hb, hr⟩
              intro x hx
              have hne : header.Hash ≠ x := hx header List.mem_cons_self
              rw [ht x fun a ha => hx a (List.mem_cons_of_mem header ha)]
              exact Function.update_of_ne (Ne.symm hne) _ _

/-- `deliver` keeps the kind's tables, and leaves the queue's own. -/
theorem deliver_outOnce {q q' : queue} {pools pools' : fetchPools} {id : String} {results : Nat}
    {reconstruct : Header → Nat → fetchResult → Option (Except String fetchResult)}
    {r : Nat × Option String × List Hash} (hu : pools.OutOnce)
    (h : q.deliver pools id results reconstruct = some (r, q', pools')) :
    pools'.OutOnce ∧ q'.blocks = q.blocks ∧ q'.receipts = q.receipts := by
  unfold deliver at h
  split at h
  · cases h
    exact ⟨hu, rfl, rfl⟩
  · rename_i request hl
    obtain ⟨⟨q₁, pools₁, accepted, failure⟩, hloop, heq⟩ := Option.map_eq_some_iff.mp h
    obtain ⟨k, rfl, hq, hp, ht, hb, hr⟩ := deliverLoop_spec reconstruct results _ _ _ _ _ hloop
    cases heq
    refine ⟨?_, hb, hr⟩
    -- the accepted prefix is done, the rest is queued again
    apply Indexed.of_done (request.Headers.take k) hu
    · intro x
      have hsplit : request.Headers.count x =
          (request.Headers.take k).count x + (request.Headers.drop k).count x := by
        rw [← List.count_append, List.take_append_drop]
      have hdrop := requested_filter_ne_add_le hl x
      simp only [Nat.zero_add, outstanding, count_pushHeaders, pushHeaders_pendPool, hq, hp,
        deletePend]
      omega
    · intro x hx
      exact ht x hx

/-! ### Reservation -/

/-- What `reserveHeaders`' loop holds out: the headers of its tables, and those taken for
sending or skipped. -/
def reserveState.outstanding (st : reserveState) (h : Header) : Nat :=
  st.pools.outstanding h + st.send.count h + st.skip.count h

def reserveState.OutOnce (st : reserveState) : Prop :=
  Indexed Header.Hash st.outstanding st.pools.taskPool

/-- The state the loop leaves on either exit. -/
def reserveExit : Except (String × reserveState) reserveState → reserveState
  | .ok st => st
  | .error (_, st) => st

/-- Popping the task queue takes the header out of what the loop holds. -/
theorem outstanding_pop {st : reserveState} {header : Header} {tq : Prque Header}
    (hpop : st.pools.taskQueue.PopItem = some (header, tq)) (h : Header) :
    ({ st with pools := { st.pools with taskQueue := tq } } : reserveState).outstanding h +
        [header].count h = st.outstanding h := by
  have hcount := Prque.count_of_PopItem hpop h
  simp only [reserveState.outstanding, fetchPools.outstanding, List.count_singleton,
    beq_iff_eq] at hcount ⊢
  omega

/-- The state after the pop, whatever opening the result slot did to the cache: the popped
header is no longer held. -/
theorem outstanding_popped {st st₂ : reserveState} {header : Header} {tq : Prque Header}
    (hpop : st.pools.taskQueue.PopItem = some (header, tq))
    (hp : st₂.pools = { st.pools with taskQueue := tq }) (hs : st₂.send = st.send)
    (hk : st₂.skip = st.skip) (h : Header) :
    st₂.outstanding h + [header].count h = st.outstanding h := by
  rw [← outstanding_pop hpop h]
  simp only [reserveState.outstanding, hp, hs, hk]

theorem outstanding_skip (st : reserveState) (header : Header) (proc : Int) (h : Header) :
    ({ st with skip := st.skip ++ [header], proc := proc } : reserveState).outstanding h =
      st.outstanding h + [header].count h := by
  simp only [reserveState.outstanding, List.count_append]
  omega

theorem outstanding_send (st : reserveState) (header : Header) (proc : Int) (h : Header) :
    ({ st with send := st.send ++ [header], proc := proc } : reserveState).outstanding h =
      st.outstanding h + [header].count h := by
  simp only [reserveState.outstanding, List.count_append]
  omega

section Steps

variable {st st₂ : reserveState} {header : Header} {tq : Prque Header}

/-- The popped header taken for sending, or skipped to be queued again at the end: the loop
holds out what it did before the pop. -/
theorem outOnce_reserveTake (hu : st.OutOnce)
    (hpop : st.pools.taskQueue.PopItem = some (header, tq))
    (hp : st₂.pools = { st.pools with taskQueue := tq }) (hs : st₂.send = st.send)
    (hk : st₂.skip = st.skip) {st₃ : reserveState}
    (hout : ∀ h, st₃.outstanding h = st₂.outstanding h + [header].count h)
    (hpools : st₃.pools = st₂.pools) : st₃.OutOnce := by
  have hpool : st₃.pools.taskPool = st.pools.taskPool := by rw [hpools, hp]
  unfold reserveState.OutOnce
  rw [hpool]
  exact Indexed.of_le hu fun h => le_of_eq (by rw [hout h, outstanding_popped hpop hp hs hk h])

/-- A header whose part is empty is done: it leaves, with its task pool slot cleared. -/
theorem outOnce_reserveNoop (hu : st.OutOnce) (hpop : st.pools.taskQueue.PopItem = some (header, tq))
    (hp : st₂.pools = { st.pools with taskQueue := tq }) (hs : st₂.send = st.send)
    (hk : st₂.skip = st.skip) (donePool : Hash → Bool) (q : queue) (space : Int)
    (progress : Bool) :
    ({ st₂ with
        pools := { st₂.pools with
          donePool := donePool
          taskPool := Function.update st₂.pools.taskPool header.Hash none }
        q := q
        space := space
        progress := progress } : reserveState).OutOnce := by
  apply Indexed.of_done [header] hu
  · intro h
    exact (outstanding_popped hpop hp hs hk h).le
  · intro k hk'
    have hne : k ≠ header.Hash := fun he => hk' header List.mem_cons_self he.symm
    show Function.update st₂.pools.taskPool header.Hash none k = st.pools.taskPool k
    rw [Function.update_of_ne hne, hp]

end Steps

/-- A run of `reserveHeaders`' loop keeps what it holds out at most once, and changes the
queue's cache only. -/
theorem reserveLoop_outOnce (p : peer) (count : Nat) (isNoop : Header → Bool)
    (B R : fetchPools) :
    ∀ (fuel : Nat) (st : reserveState), st.OutOnce → st.q.blocks = B → st.q.receipts = R →
      (reserveExit (reserveLoop p count isNoop fuel st)).OutOnce ∧
        (reserveExit (reserveLoop p count isNoop fuel st)).q.blocks = B ∧
        (reserveExit (reserveLoop p count isNoop fuel st)).q.receipts = R := by
  -- induction on the fuel, one popped header per pass
  intro fuel
  induction fuel with
  | zero => intro st hu hb hr; exact ⟨hu, hb, hr⟩
  | succ fuel ih =>
      intro st hu hb hr
      rw [reserveLoop]
      split
      · split
        · exact ⟨hu, hb, hr⟩
        · rename_i header tq hpop
          dsimp only
          split
          · -- a header outside the cache: the loop stops with it popped
            refine ⟨Indexed.of_le hu fun h => ?_, hb, hr⟩
            exact Nat.le_of_add_right_le (outstanding_pop hpop h).le
          · -- opening the result slot changes the cache only
            by_cases hnoop : isNoop header = true
            · rw [if_pos hnoop]
              exact ih _ (outOnce_reserveNoop hu hpop (by split <;> rfl) (by split <;> rfl)
                (by split <;> rfl) _ _ _ _) (by split <;> exact hb) (by split <;> exact hr)
            · rw [if_neg hnoop]
              by_cases hlack : p.Lacks header.Hash = true
              · rw [if_pos hlack]
                exact ih _ (outOnce_reserveTake hu hpop (by split <;> rfl) (by split <;> rfl)
                  (by split <;> rfl) (outstanding_skip _ header _) rfl) (by split <;> exact hb)
                  (by split <;> exact hr)
              · rw [if_neg hlack]
                exact ih _ (outOnce_reserveTake hu hpop (by split <;> rfl) (by split <;> rfl)
                  (by split <;> rfl) (outstanding_send _ header _) rfl) (by split <;> exact hb)
                  (by split <;> exact hr)
      · exact ⟨hu, hb, hr⟩

/-- `reserveHeaders` keeps the kind's tables, and changes the queue's cache only. -/
theorem reserveHeaders_outOnce {q q' : queue} {pools pools' : fetchPools} {p : peer}
    {count : Nat} {isNoop : Header → Bool} {now : Nat}
    {r : Option fetchRequest × Bool × Option String} (hu : pools.OutOnce)
    (h : q.reserveHeaders pools p count isNoop now = (r, q', pools')) :
    pools'.OutOnce ∧ q'.blocks = q.blocks ∧ q'.receipts = q.receipts := by
  unfold reserveHeaders at h
  split at h
  · cases h
    exact ⟨hu, rfl, rfl⟩
  · split at h
    · cases h
      exact ⟨hu, rfl, rfl⟩
    · -- the loop starts from the kind's tables, nothing taken yet
      have hstart : (⟨q, pools, q.resultSlots pools, 0, [], [], false⟩ : reserveState).OutOnce :=
        Indexed.of_le hu fun h => by simp [reserveState.outstanding]
      have hloop := reserveLoop_outOnce p count isNoop q.blocks q.receipts
        pools.taskQueue.Size _ hstart rfl rfl
      dsimp only at h
      split at h
      · rename_i e st hrun
        rw [hrun] at hloop
        dsimp only [reserveExit] at hloop
        obtain ⟨hst, hb, hr⟩ := hloop
        cases h
        refine ⟨Indexed.of_le hst fun h => ?_, hb, hr⟩
        simp only [reserveState.outstanding]
        omega
      · rename_i st hrun
        rw [hrun] at hloop
        dsimp only [reserveExit] at hloop
        obtain ⟨hst, hb, hr⟩ := hloop
        -- the skipped headers are queued again, the sent ones are the new request
        split at h
        · cases h
          refine ⟨Indexed.of_le hst fun h => ?_, hb, hr⟩
          simp only [reserveState.outstanding, fetchPools.outstanding, count_pushHeaders,
            pushHeaders_pendPool]
          omega
        · cases h
          refine ⟨Indexed.of_le hst fun h => ?_, hb, hr⟩
          simp only [reserveState.outstanding, fetchPools.outstanding, count_pushHeaders,
            pushHeaders_pendPool, requested_cons]
          omega

/-! ### Scheduling -/

/-- Both kinds' tables hold each header out at most once. -/
structure OutOnce (q : queue) : Prop where
  blocks : q.blocks.OutOnce
  receipts : q.receipts.OutOnce

/-- `Schedule` queues a header only where its hash is free in the task pools. -/
theorem scheduleLoop_outOnce :
    ∀ (headers : List Header) (q : queue) («from» : Nat) (inserts : List Header),
      q.OutOnce → (q.scheduleLoop headers «from» inserts).2.OutOnce
  | [], _, _, _, hu => hu
  | header :: rest, q, «from», inserts, hu => by
      rw [scheduleLoop]
      dsimp only
      split
      · exact hu
      · split
        · exact hu
        · split
          · exact scheduleLoop_outOnce rest q «from» inserts hu
          · split
            · exact scheduleLoop_outOnce rest q «from» inserts hu
            · rename_i hblocks hreceipts
              apply scheduleLoop_outOnce
              constructor
              · exact hu.blocks.schedule header (by simpa using hblocks)
              · show (if q.mode = .FastSync then _ else q.receipts).OutOnce
                split
                · exact hu.receipts.schedule header (by simpa using hreceipts)
                · exact hu.receipts

/-! ### The operations of the queue -/

theorem outOnce_newQueue : newQueue.OutOnce := ⟨outOnce_empty, outOnce_empty⟩

section Operations

variable {q : queue}

theorem outOnce_ReserveBodies (env : Env) (hu : q.OutOnce) (p : peer) (count now : Nat) :
    (q.ReserveBodies env p count now).2.OutOnce := by
  unfold ReserveBodies
  dsimp only
  generalize hres : q.reserveHeaders q.blocks p count _ now = res
  obtain ⟨r, q', pools'⟩ := res
  obtain ⟨hb, -, hr⟩ := reserveHeaders_outOnce hu.blocks hres
  exact ⟨hb, hr ▸ hu.receipts⟩

theorem outOnce_ReserveReceipts (env : Env) (hu : q.OutOnce) (p : peer) (count now : Nat) :
    (q.ReserveReceipts env p count now).2.OutOnce := by
  unfold ReserveReceipts
  dsimp only
  generalize hres : q.reserveHeaders q.receipts p count _ now = res
  obtain ⟨r, q', pools'⟩ := res
  obtain ⟨hr, hb, -⟩ := reserveHeaders_outOnce hu.receipts hres
  exact ⟨hb ▸ hu.blocks, hr⟩

theorem outOnce_DeliverBodies {env : Env} {q' : queue} {id : String}
    {txLists : List (List Bytes)} {uncleLists : List (List Header)}
    {r : Nat × Option String × List Hash} (hu : q.OutOnce)
    (h : q.DeliverBodies env id txLists uncleLists = some (r, q')) : q'.OutOnce := by
  unfold DeliverBodies at h
  obtain ⟨⟨r₁, q₁, pools₁⟩, hdel, heq⟩ := Option.map_eq_some_iff.mp h
  cases heq
  obtain ⟨hb, -, hr⟩ := deliver_outOnce hu.blocks hdel
  exact ⟨hb, hr ▸ hu.receipts⟩

theorem outOnce_DeliverReceipts {env : Env} {q' : queue} {id : String}
    {receiptList : List (List Bytes)} {r : Nat × Option String × List Hash} (hu : q.OutOnce)
    (h : q.DeliverReceipts env id receiptList = some (r, q')) : q'.OutOnce := by
  unfold DeliverReceipts at h
  obtain ⟨⟨r₁, q₁, pools₁⟩, hdel, heq⟩ := Option.map_eq_some_iff.mp h
  cases heq
  obtain ⟨hr, hb, -⟩ := deliver_outOnce hu.receipts hdel
  exact ⟨hb ▸ hu.blocks, hr⟩

theorem outOnce_ExpireBodies (hu : q.OutOnce) (now timeout : Nat) :
    (q.ExpireBodies now timeout).2.OutOnce :=
  ⟨outOnce_expire hu.blocks now timeout, hu.receipts⟩

theorem outOnce_ExpireReceipts (hu : q.OutOnce) (now timeout : Nat) :
    (q.ExpireReceipts now timeout).2.OutOnce :=
  ⟨hu.blocks, outOnce_expire hu.receipts now timeout⟩

theorem outOnce_CancelBodies (hu : q.OutOnce) {request : fetchRequest}
    (hpend : q.blocks.pendPool.lookup request.Peer = some request) :
    (q.CancelBodies request).OutOnce :=
  ⟨hu.blocks.pushHeaders_deletePend hpend, hu.receipts⟩

theorem outOnce_CancelReceipts (hu : q.OutOnce) {request : fetchRequest}
    (hpend : q.receipts.pendPool.lookup request.Peer = some request) :
    (q.CancelReceipts request).OutOnce :=
  ⟨hu.blocks, hu.receipts.pushHeaders_deletePend hpend⟩

theorem outOnce_Revoke (hu : q.OutOnce) (peerId : String) : (q.Revoke peerId).OutOnce := by
  unfold Revoke
  -- each kind gives back the request `lookup` finds, or nothing
  constructor
  · dsimp only
    split
    · exact hu.blocks.pushHeaders_deletePend ‹_›
    · exact hu.blocks
  · dsimp only
    split
    · exact hu.receipts.pushHeaders_deletePend ‹_›
    · exact hu.receipts

/-- `Results` forgets done hashes only. -/
theorem outOnce_Results {env : Env} {q' : queue} {block : Bool} {rs : List fetchResult}
    (hu : q.OutOnce) (h : q.Results env block = some (rs, q')) : q'.OutOnce := by
  unfold Results at h
  dsimp only at h
  split at h
  · split at h
    · cases h
    · cases h
      exact hu
  · cases h
    exact ⟨hu.blocks, hu.receipts⟩

end Operations

/-! ### Runs of the queue -/

/-- One operation of the queue on its body and receipt tables.  A cancelled request is one
still pending. -/
inductive Step (env : Env) : queue → queue → Prop
  | prepare (q : queue) (offset : Nat) (mode : SyncMode) : Step env q (q.Prepare offset mode)
  | reset (q : queue) : Step env q q.Reset
  | close (q : queue) : Step env q q.Close
  | schedule (q : queue) (headers : List Header) («from» : Nat) :
      Step env q (q.Schedule headers «from»).2
  | reserveBodies (q : queue) (p : peer) (count now : Nat) :
      Step env q (q.ReserveBodies env p count now).2
  | reserveReceipts (q : queue) (p : peer) (count now : Nat) :
      Step env q (q.ReserveReceipts env p count now).2
  | deliverBodies (q q' : queue) (id : String) (txLists : List (List Bytes))
      (uncleLists : List (List Header)) (r : Nat × Option String × List Hash)
      (h : q.DeliverBodies env id txLists uncleLists = some (r, q')) : Step env q q'
  | deliverReceipts (q q' : queue) (id : String) (receiptList : List (List Bytes))
      (r : Nat × Option String × List Hash)
      (h : q.DeliverReceipts env id receiptList = some (r, q')) : Step env q q'
  | expireBodies (q : queue) (now timeout : Nat) : Step env q (q.ExpireBodies now timeout).2
  | expireReceipts (q : queue) (now timeout : Nat) : Step env q (q.ExpireReceipts now timeout).2
  | cancelBodies (q : queue) (request : fetchRequest)
      (hpend : q.blocks.pendPool.lookup request.Peer = some request) :
      Step env q (q.CancelBodies request)
  | cancelReceipts (q : queue) (request : fetchRequest)
      (hpend : q.receipts.pendPool.lookup request.Peer = some request) :
      Step env q (q.CancelReceipts request)
  | revoke (q : queue) (peerId : String) : Step env q (q.Revoke peerId)
  | results (q q' : queue) (block : Bool) (rs : List fetchResult)
      (h : q.Results env block = some (rs, q')) : Step env q q'

/-- The queues a run of operations reaches from `newQueue`. -/
def Reachable (env : Env) (q : queue) : Prop :=
  Relation.ReflTransGen (Step env) newQueue q

/-- One operation keeps both kinds' tables. -/
theorem OutOnce.step {env : Env} {q q' : queue} (hu : q.OutOnce) (hstep : Step env q q') :
    q'.OutOnce := by
  cases hstep with
  | prepare offset mode => exact ⟨hu.blocks, hu.receipts⟩
  | reset => exact ⟨outOnce_empty, outOnce_empty⟩
  | close => exact ⟨hu.blocks, hu.receipts⟩
  | schedule headers «from» => exact scheduleLoop_outOnce headers q «from» [] hu
  | reserveBodies p count now => exact outOnce_ReserveBodies env hu p count now
  | reserveReceipts p count now => exact outOnce_ReserveReceipts env hu p count now
  | deliverBodies _ _ _ _ _ h => exact outOnce_DeliverBodies hu h
  | deliverReceipts _ _ _ _ h => exact outOnce_DeliverReceipts hu h
  | expireBodies now timeout => exact outOnce_ExpireBodies hu now timeout
  | expireReceipts now timeout => exact outOnce_ExpireReceipts hu now timeout
  | cancelBodies request hpend => exact outOnce_CancelBodies hu hpend
  | cancelReceipts request hpend => exact outOnce_CancelReceipts hu hpend
  | revoke peerId => exact outOnce_Revoke hu peerId
  | results _ _ _ h => exact outOnce_Results hu h

/-- Every queue a run reaches keeps both kinds' tables. -/
theorem Reachable.outOnce {env : Env} {q : queue} (hr : Reachable env q) : q.OutOnce := by
  -- induction on the run, one operation at a time
  induction hr with
  | refl => exact outOnce_newQueue
  | tail _ hstep ih => exact ih.step hstep

end queue

end Downloader
end Ethcore
