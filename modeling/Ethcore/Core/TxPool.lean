import Ethcore.Lib.Entries
import Ethcore.State.StateDB
import Mathlib.Data.List.Sort

/-!
# The transaction pool: `tx_pool.go` over `managed_state.go`

The pool keeps the processable transactions in `pending` and the others, by sender, in
`queue`.  `Add` validates a transaction against the current state, queues it, and runs
`checkQueue`, which promotes every queued transaction whose nonce is at most the nonce the
pool has guessed for its sender (`pendingState.GetNonce`), advancing the guess over a
consecutive run, and keeps at most `maxQueued` of the rest.  `addTx` puts a promoted
transaction into `pending` and sets the guessed nonce to its nonce plus one.

`checkQueue` promotes a transaction whose nonce is below the guess as well, and `addTx` then
sets the guess back to that nonce plus one.  A second transaction of a sender with the nonce
of a pending one (another gas price, so another hash) is therefore promoted next to it, and
the guessed nonce can go down (`Add_promotes_equal_nonce`).

Go's maps are lists of entries visited in list order (`Lib.Entries`); `sort.Sort` on the
promotion list is an insertion sort by nonce, one of the orders it may return.  The pool is
taken from `resetState` on, so `pendingState` is never `nil` and the lazy `resetState` calls
of `addTx` and `checkQueue` do not occur; `currentState()` does not fail.  A transaction is
read through its hash and its sender, which the crypto of `Types` computes; a transaction is
taken to carry the pool's signer, so `tx.From()` and `types.Sender(pool.signer, tx)` agree.
-/

namespace Ethcore
namespace Core

open State (Address Hash)

/-! ### The managed state -/

/-- `account` of `managed_state.go`: the first nonce it manages and which of the following
ones are taken. -/
structure account where
  nstart : Nat
  nonces : List Bool

/-- `newAccount`: an account managed from the state object's nonce on. -/
def newAccount (nonce : Nat) : account :=
  ⟨nonce, []⟩

/-- `ManagedState`: the nonces its copy of the state database returns (`StateDB.GetNonce`) and
the accounts it manages. -/
structure ManagedState where
  nonce : Address → Nat
  accounts : Address → Option account

/-- `ManageState`: a copy of the database and no managed account. -/
def ManageState (nonce : Address → Nat) : ManagedState :=
  ⟨nonce, fun _ => none⟩

namespace ManagedState

/-- `GetNonce`: the end of a managed account's nonces, where `getAccount` first moves an
account the database's nonce has passed up to that nonce; the database's nonce otherwise.
The account `getAccount` writes back gives the same value to every later `GetNonce`, and
`SetNonce` overwrites it, so the model leaves the write out. -/
def GetNonce (ms : ManagedState) (addr : Address) : Nat :=
  match ms.accounts addr with
  | some acc =>
      if acc.nonces.length + acc.nstart < ms.nonce addr then (newAccount (ms.nonce addr)).nstart
      else acc.nonces.length + acc.nstart
  | none => ms.nonce addr

/-- `SetNonce`: set the state object's nonce and manage the account afresh from it. -/
def SetNonce (ms : ManagedState) (addr : Address) (nonce : Nat) : ManagedState where
  nonce := Function.update ms.nonce addr nonce
  accounts := Function.update ms.accounts addr (some (newAccount nonce))

@[simp] theorem GetNonce_SetNonce (ms : ManagedState) (addr : Address) (nonce : Nat) :
    (ms.SetNonce addr nonce).GetNonce addr = nonce := by
  simp [GetNonce, SetNonce, newAccount]

theorem GetNonce_SetNonce_of_ne (ms : ManagedState) {addr a : Address} (nonce : Nat) (h : a ≠ addr) :
    (ms.SetNonce addr nonce).GetNonce a = ms.GetNonce a := by
  simp [GetNonce, SetNonce, Function.update_of_ne h]

@[simp] theorem GetNonce_ManageState (nonce : Address → Nat) (addr : Address) :
    (ManageState nonce).GetNonce addr = nonce addr := by
  rfl

end ManagedState

/-! ### Transactions and the chain -/

/-- What the pool reads of a transaction: its hash, the sender the pool's signer recovers
(`none` where recovery fails), and the fields of `txdata` its checks use. -/
structure Tx where
  hash : Hash
  sender : Option Address
  nonce : Nat
  price : Nat
  gas : Nat
  value : Int
  recipient : Option Address
  data : Bytes
deriving DecidableEq, Repr

/-- `Cost`: amount + gasprice * gaslimit. -/
def Tx.Cost (tx : Tx) : Int :=
  tx.price * tx.gas + tx.value

/-- `TxGas`, `TxGasContractCreation`, `TxDataZeroGas`, `TxDataNonZeroGas`. -/
def TxGas : Nat := 21000
def TxGasContractCreation : Nat := 53000
def TxDataZeroGas : Nat := 4
def TxDataNonZeroGas : Nat := 68

/-- `IntrinsicGas`: the base charge, and a charge per zero and per nonzero byte of data. -/
def IntrinsicGas (data : Bytes) (contractCreation homestead : Bool) : Nat :=
  let igas := if contractCreation && homestead then TxGasContractCreation else TxGas
  if data.length > 0 then
    let nz := (data.filter (· ≠ 0)).length
    igas + nz * TxDataNonZeroGas + (data.length - nz) * TxDataZeroGas
  else igas

/-- What the pool reads of the chain: the state objects of the current state (nonce and
balance), the global `StartingNonce`, and the block gas limit. -/
structure Chain where
  objects : Address → Option (Nat × Int)
  StartingNonce : Nat
  gasLimit : Nat

namespace Chain

/-- `Exist`: the state holds an object for the address. -/
def Exist (c : Chain) (addr : Address) : Bool :=
  (c.objects addr).isSome

/-- `GetNonce`: the object's nonce, `StartingNonce` without one. -/
def GetNonce (c : Chain) (addr : Address) : Nat :=
  match c.objects addr with
  | some (nonce, _) => nonce
  | none => c.StartingNonce

/-- `GetBalance`: the object's balance, `0` without one. -/
def GetBalance (c : Chain) (addr : Address) : Int :=
  match c.objects addr with
  | some (_, balance) => balance
  | none => 0

end Chain

/-! ### The pool -/

/-- `maxQueued`: the limit of queued transactions per address. -/
def maxQueued : Nat := 64

/-- `TxPool` from `resetState` on: the guessed nonces, the processable transactions by hash,
the queued ones by sender and hash, the minimum gas price, the Homestead flag and the hashes
of local transactions. -/
structure TxPool where
  pendingState : ManagedState
  pending : List (Hash × Tx)
  queue : List (Address × List (Hash × Tx))
  minGasPrice : Nat
  homestead : Bool
  localTx : List Hash

/-- The errors of `add`. -/
inductive TxPoolError where
  | KnownTransaction (hash : Hash)
  | ErrCheap
  | ErrInvalidSender
  | ErrNonExistentAccount
  | ErrNonce
  | ErrGasLimit
  | ErrNegativeValue
  | ErrInsufficientFunds
  | ErrIntrinsicGas
deriving DecidableEq, Repr

namespace TxPool

variable (c : Chain)

/-- `validateTx`: the checks in the source's order. -/
def validateTx (pool : TxPool) (tx : Tx) : Except TxPoolError Unit :=
  let isLocal := decide (tx.hash ∈ pool.localTx)
  -- drop transactions under our own minimal accepted gas price
  if !isLocal && decide (pool.minGasPrice > tx.price) then .error .ErrCheap
  else
    match tx.sender with
    | none => .error .ErrInvalidSender
    | some «from» =>
        if !c.Exist «from» then .error .ErrNonExistentAccount
        else if c.GetNonce «from» > tx.nonce then .error .ErrNonce
        else if c.gasLimit < tx.gas then .error .ErrGasLimit
        else if tx.value < 0 then .error .ErrNegativeValue
        else if c.GetBalance «from» < tx.Cost then .error .ErrInsufficientFunds
        else if tx.gas < IntrinsicGas tx.data tx.recipient.isNone pool.homestead then .error .ErrIntrinsicGas
        else .ok ()

/-- `queueTx`: `queue[from][hash] = tx`, creating the sender's map if needed. -/
def queueTx (pool : TxPool) (hash : Hash) (tx : Tx) : TxPool :=
  let «from» := tx.sender.getD 0
  let txs := (pool.queue.lookup «from»).getD []
  { pool with queue := Entries.put «from» (Entries.put hash tx txs) pool.queue }

/-- `addTx`: a transaction not yet pending becomes pending, and the guessed nonce of its sender
becomes its nonce plus one. -/
def addTx (pool : TxPool) (hash : Hash) (addr : Address) (tx : Tx) : TxPool :=
  if hash ∈ pool.pending.map Prod.fst then pool
  else
    { pool with
      pending := Entries.put hash tx pool.pending
      pendingState := pool.pendingState.SetNonce addr (tx.nonce + 1) }

@[simp] theorem addTx_queue (pool : TxPool) (hash : Hash) (addr : Address) (tx : Tx) :
    (pool.addTx hash addr tx).queue = pool.queue := by
  unfold addTx
  split_ifs <;> rfl

/-- `add`: refuse a known pending transaction, validate, queue. -/
def add (pool : TxPool) (tx : Tx) : Except TxPoolError TxPool :=
  if tx.hash ∈ pool.pending.map Prod.fst then .error (.KnownTransaction tx.hash)
  else
    match validateTx c pool tx with
    | .error e => .error e
    | .ok () => .ok (pool.queueTx tx.hash tx)

/-- The promotion loop of `checkQueue` over the sorted remaining transactions of `address`
(`promote[i:]`): promote while the nonce is at most the guess, advancing the guess on an equal
nonce; at the first gap keep `maxQueued` of the rest in the queue and stop. -/
def promoteLoop (address : Address) :
    Nat → List (Hash × Tx) → TxPool × List (Hash × Tx) → TxPool × List (Hash × Tx)
  | _, [], acc => acc
  | guessedNonce, entry :: rest, (pool, txs) =>
      if entry.2.nonce > guessedNonce then
        -- a gap: enforce the transaction limit and stop
        if (entry :: rest).length > maxQueued then
          (pool, ((entry :: rest).drop maxQueued).foldl (fun txs drop => Entries.delete drop.1 txs) txs)
        else (pool, txs)
      else
        promoteLoop address (if entry.2.nonce = guessedNonce then guessedNonce + 1 else guessedNonce)
          rest (pool.addTx entry.1 address entry.2, Entries.delete entry.1 txs)

/-- `checkQueue` on one sender's queued transactions: drop those below the state's nonce or
beyond the balance, promote in nonce order, and delete the sender's entry if none is left. -/
def checkAddress (pool : TxPool) (address : Address) (txs : List (Hash × Tx)) : TxPool :=
  let balance := c.GetBalance address
  let guessedNonce := pool.pendingState.GetNonce address
  let trueNonce := c.GetNonce address
  let keep (tx : Tx) : Bool := !(decide (tx.nonce < trueNonce) || decide (balance < tx.Cost))
  let promote := (txs.filter fun e => keep e.2).insertionSort fun a b => a.2.nonce ≤ b.2.nonce
  let (pool, txs) := promoteLoop address guessedNonce promote (pool, txs.filter fun e => keep e.2)
  if txs = [] then { pool with queue := Entries.delete address pool.queue }
  else { pool with queue := Entries.put address txs pool.queue }

/-- `checkQueue`: every sender's queued transactions, in the order `range` visits them. -/
def checkQueue (pool : TxPool) : TxPool :=
  pool.queue.foldl (fun pool e => checkAddress c pool e.1 e.2) pool

/-- `Add`: add one transaction and check the queue; on an error the pool is unchanged. -/
def Add (pool : TxPool) (tx : Tx) : Except TxPoolError TxPool :=
  match add c pool tx with
  | .error e => .error e
  | .ok pool => .ok (checkQueue c pool)

/-- `AddTransactions`: add each transaction, ignoring the errors, then check the queue. -/
def AddTransactions (pool : TxPool) (txs : List Tx) : TxPool :=
  checkQueue c (txs.foldl (fun pool tx =>
    match add c pool tx with
    | .error _ => pool
    | .ok pool => pool) pool)

/-- The first pass of `validatePool`: drop the pending transactions below the state's nonce or
beyond the balance, and record per sender the lowest nonce dropped for the balance. -/
def dropInvalid : List (Hash × Tx) → TxPool × List (Address × Nat) → TxPool × List (Address × Nat)
  | [], acc => acc
  | (hash, tx) :: rest, (pool, gaps) =>
      let sender := tx.sender.getD 0
      let past := decide (c.GetNonce sender > tx.nonce)
      if past || decide (c.GetBalance sender < tx.Cost) then
        let gaps :=
          if !past then
            match gaps.lookup sender with
            | some prev => if tx.nonce < prev then Entries.put sender tx.nonce gaps else gaps
            | none => Entries.put sender tx.nonce gaps
          else gaps
        dropInvalid rest ({ pool with pending := Entries.delete hash pool.pending }, gaps)
      else dropInvalid rest (pool, gaps)

/-- `validatePool`: drop the invalid pending transactions, then move every pending
transaction at or after a sender's gap back to the queue. -/
def validatePool (pool : TxPool) : TxPool :=
  let (pool, gaps) := dropInvalid c pool.pending (pool, [])
  if gaps = [] then pool
  else
    pool.pending.foldl (fun pool e =>
      match gaps.lookup (e.2.sender.getD 0) with
      | some gap =>
          if e.2.nonce ≥ gap then
            { pool.queueTx e.1 e.2 with pending := Entries.delete e.1 pool.pending }
          else pool
      | none => pool) pool

/-- `resetState`: a fresh managed state, the pool validated, the guessed nonces moved past the
pending transactions, and the queue checked. -/
def resetState (pool : TxPool) : TxPool :=
  let pool := validatePool c { pool with pendingState := ManageState c.GetNonce }
  let pool := pool.pending.foldl (fun pool e =>
    match e.2.sender with
    | some addr =>
        if pool.pendingState.GetNonce addr ≤ e.2.nonce then
          { pool with pendingState := pool.pendingState.SetNonce addr (e.2.nonce + 1) }
        else pool
    | none => pool) pool
  checkQueue c pool

/-- The nonces of a sender's pending transactions, in the order of `pending`. -/
def pendingNonces (pool : TxPool) (addr : Address) : List Nat :=
  (pool.pending.filter fun e => e.2.sender = some addr).map fun e => e.2.nonce

/-! ### What the checks accept -/

/-- **The spec of `validateTx`**: an accepted transaction has a sender that exists in the
current state, a nonce at least the state's, a gas within the block limit and at least the
intrinsic gas, a value that is not negative and a cost within the sender's balance. -/
theorem validateTx_ok {pool : TxPool} {tx : Tx} (h : validateTx c pool tx = .ok ()) :
    ∃ «from», tx.sender = some «from» ∧ c.Exist «from» = true ∧ c.GetNonce «from» ≤ tx.nonce ∧
      tx.gas ≤ c.gasLimit ∧ 0 ≤ tx.value ∧ tx.Cost ≤ c.GetBalance «from» ∧
      IntrinsicGas tx.data tx.recipient.isNone pool.homestead ≤ tx.gas := by
  unfold validateTx at h
  dsimp only at h
  split at h
  · cases h
  cases hs : tx.sender with
  | none => simp [hs] at h
  | some «from» =>
      simp only [hs] at h
      split_ifs at h with hex hn hg hv hb hi
      refine ⟨«from», rfl, by simpa using hex, ?_, ?_, ?_, ?_, ?_⟩
      all_goals omega

/-- `add` of a transaction that is not pending and passes the checks queues it. -/
theorem add_ok {pool : TxPool} {tx : Tx} (hnew : tx.hash ∉ pool.pending.map Prod.fst)
    (hvalid : validateTx c pool tx = .ok ()) : add c pool tx = .ok (pool.queueTx tx.hash tx) := by
  simp [add, hnew, hvalid]

/-- The promotion loop on a single transaction with a nonce at most the guess promotes it. -/
theorem promoteLoop_single (address : Address) {guessedNonce : Nat} {e : Hash × Tx}
    (hle : e.2.nonce ≤ guessedNonce) (pool : TxPool) (txs : List (Hash × Tx)) :
    promoteLoop address guessedNonce [e] (pool, txs) = (pool.addTx e.1 address e.2, Entries.delete e.1 txs) := by
  simp [promoteLoop, Nat.not_lt.mpr hle]

/-- **`checkQueue` promotes a transaction below the guess.**  With one transaction queued, of a
sender whose guessed nonce is at least its nonce, that the state's nonce and the sender's
balance let through, the queue empties and the transaction is promoted: it becomes pending,
and the guess becomes its nonce plus one, whatever it was. -/
theorem checkQueue_single (pool : TxPool) {a : Address} {tx : Tx}
    (hq : pool.queue = [(a, [(tx.hash, tx)])]) (hguess : tx.nonce ≤ pool.pendingState.GetNonce a)
    (hnonce : c.GetNonce a ≤ tx.nonce) (hcost : tx.Cost ≤ c.GetBalance a) :
    checkQueue c pool = { pool.addTx tx.hash a tx with queue := [] } := by
  have hkeep : (!(decide (tx.nonce < c.GetNonce a) || decide (c.GetBalance a < tx.Cost))) = true := by
    simp only [Bool.not_eq_true', Bool.or_eq_false_iff, decide_eq_false_iff_not, not_lt]
    exact ⟨hnonce, hcost⟩
  have hloop := promoteLoop_single a (e := (tx.hash, tx)) hguess pool [(tx.hash, tx)]
  simp only [checkQueue, hq, List.foldl_cons, List.foldl_nil, checkAddress, List.filter_cons, hkeep,
    if_true, List.filter_nil, List.insertionSort, List.foldr_cons, List.foldr_nil, List.orderedInsert_nil]
  rw [hloop]
  simp [Entries.delete, hq]

/-- **A second transaction with a pending transaction's nonce is promoted.**  From a pool with
nothing queued, a pending transaction `t` of sender `a`, and a guessed nonce for `a` at least
`t`'s nonce, `Add` of another transaction of `a` with the same nonce that passes the checks
makes it pending next to `t`, so that the nonce is pending twice, and sets the guessed nonce
of `a` to that nonce plus one, below any guess above it. -/
theorem Add_promotes_equal_nonce (pool : TxPool) {a : Address} {h : Hash} {t tx : Tx}
    (hq : pool.queue = []) (ht : (h, t) ∈ pool.pending) (hta : t.sender = some a)
    (hsender : tx.sender = some a) (hnonce : tx.nonce = t.nonce)
    (hguess : tx.nonce ≤ pool.pendingState.GetNonce a)
    (hnew : tx.hash ∉ pool.pending.map Prod.fst) (hvalid : validateTx c pool tx = .ok ()) :
    ∃ pool', Add c pool tx = .ok pool' ∧ 2 ≤ (pool'.pendingNonces a).count t.nonce ∧
      pool'.pendingState.GetNonce a = t.nonce + 1 := by
  obtain ⟨«from», hfrom, -, hstate, -, -, hcost, -⟩ := validateTx_ok c hvalid
  rw [hsender, Option.some.injEq] at hfrom
  subst hfrom
  -- `add` files the transaction under its sender in the empty queue
  have hqueued : (pool.queueTx tx.hash tx).queue = [(a, [(tx.hash, tx)])] := by
    simp [queueTx, hq, hsender, Entries.put]
  have hcheck := checkQueue_single c (pool.queueTx tx.hash tx) hqueued (by simpa [queueTx] using hguess)
    hstate hcost
  have hnew' : tx.hash ∉ (pool.queueTx tx.hash tx).pending.map Prod.fst := hnew
  refine ⟨{ (pool.queueTx tx.hash tx).addTx tx.hash a tx with queue := [] }, ?_, ?_, ?_⟩
  · simp only [Add, add_ok c hnew hvalid, hcheck]
  · -- `t` stays pending, and the new transaction comes after it
    have hpending : ((pool.queueTx tx.hash tx).addTx tx.hash a tx).pending = pool.pending ++ [(tx.hash, tx)] := by
      simp only [addTx, if_neg hnew', Entries.put_of_not_mem tx hnew']
      rfl
    have hmem : t.nonce ∈ pool.pendingNonces a :=
      List.mem_map.mpr ⟨(h, t), List.mem_filter.mpr ⟨ht, by simp [hta]⟩, rfl⟩
    have hpos := List.count_pos_iff.mpr hmem
    have hlast : ((List.filter (fun e : Hash × Tx => decide (e.2.sender = some a)) [(tx.hash, tx)]).map
        fun e => e.2.nonce).count t.nonce = 1 := by
      simp [hsender, hnonce]
    simp only [pendingNonces, hpending, List.filter_append, List.map_append, List.count_append] at hpos ⊢
    omega
  · simp [addTx, if_neg hnew', hnonce]

/-- A chain holding account `1` with nonce `0` and an ample balance. -/
def oneAccountChain : Chain where
  objects a := if a = 1 then some (0, 10 ^ 9) else none
  StartingNonce := 0
  gasLimit := 10 ^ 6

/-- A plain transfer of account `1` to account `2` with the given hash, nonce and gas price. -/
def transfer (hash nonce price : Nat) : Tx :=
  ⟨hash, some 1, nonce, price, 21000, 0, some 2, []⟩

/-- The pool `resetState` leaves on an empty pool, after `Add` of a transfer with nonce `0`
and one with nonce `1`. -/
def twoPending : TxPool :=
  let fresh := resetState oneAccountChain ⟨ManageState fun _ => 0, [], [], 0, false, []⟩
  match (Add oneAccountChain fresh (transfer 1 0 1)).bind fun pool =>
      Add oneAccountChain pool (transfer 3 1 1) with
  | .ok pool => pool
  | .error _ => fresh

theorem Add_promotes_equal_nonce_twoPending :
    twoPending.pendingState.GetNonce 1 = 2 ∧
      ∃ pool', Add oneAccountChain twoPending (transfer 2 0 2) = .ok pool' ∧
        2 ≤ (pool'.pendingNonces 1).count (transfer 1 0 1).nonce ∧
        pool'.pendingState.GetNonce 1 = (transfer 1 0 1).nonce + 1 :=
  ⟨by decide, Add_promotes_equal_nonce oneAccountChain twoPending (h := 1) (by decide) (by decide) rfl rfl
    rfl (by decide) (by decide) (by decide)⟩

end TxPool

end Core
end Ethcore
