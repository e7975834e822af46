import Ethcore.Rlp.Item

/-!
# The state database: `state_object.go`, `statedb.go` and `journal.go`

`StateDB` caches the accounts a block touches as live `StateObject`s over the account trie.
Each mutator changes a live object (loading it from the trie, or creating it) and appends a
journal entry that can undo the change; `Snapshot` records the journal's length, and
`RevertToSnapshot` undoes the entries after it, newest first.  `Finalise` (and so
`IntermediateRoot`) writes back to the trie only the objects in `stateObjectsDirty`;
`CommitTo` walks every live object, and also deletes the suicided ones that are not dirty.

An object joins `stateObjectsDirty` through its `onDirty` callback, which its first change
fires and clears: the callback is `MarkStateObjectDirty` for every object a `StateDB` loads
or creates, so the model keeps it as a flag, `true` while armed.  Undoing a `touchChange`
takes the address out of `stateObjectsDirty` again but does not re-arm the callback.

Modelling choices:

* Go maps are functions (`Function.update` for an assignment); the set
  `stateObjectsDirty` is a list without repetitions.
* The account trie is its contents, an `Account` per address; the trie's hash is a
  parameter of `IntermediateRoot`.  An account's storage trie is likewise its contents
  (`Account.Root`), and the RLP encoding of stored values, which the source strips and
  restores, is left out.
* The database is total: the `dbErr` that a failed read would record is never set.
* A panic (a nil object dereferenced) is `none`.
-/

namespace Ethcore
namespace State

/-- `common.Address`, as a number. -/
abbrev Address := Nat

/-- `common.Hash`, as a number; `0` is `common.Hash{}`. -/
abbrev Hash := Nat

/-- The contents of a storage trie: a value for every key, `0` for none. -/
abbrev Storage := Hash → Hash

/-- What the state database reads from outside: the code store behind
`Database.ContractCode`, `crypto.Keccak256Hash`, and the global `StartingNonce`. -/
structure Env where
  ContractCode : Hash → Bytes
  Keccak256 : Bytes → Hash
  StartingNonce : Nat

/-- `emptyCodeHash`: the hash of no code. -/
def Env.emptyCodeHash (env : Env) : Hash := env.Keccak256 []

/-- The precompile whose touch is never undone. -/
def ripemd : Address := 3

/-- `Account`: the consensus representation of an account.  `Root` is the account's
storage trie, kept as its contents. -/
structure Account where
  Nonce : Nat
  Balance : Int
  Root : Storage
  CodeHash : Hash

/-- `StateObject`: a live account with its caches.  `code = none` is a nil `code`;
`onDirty` says whether the callback `MarkStateObjectDirty` is still armed. -/
structure StateObject where
  address : Address
  data : Account
  code : Option Bytes
  cachedStorage : Hash → Option Hash
  dirtyStorage : Hash → Option Hash
  dirtyCode : Bool
  suicided : Bool
  touched : Bool
  deleted : Bool
  onDirty : Bool

/-- `vm.Log`: the consensus fields and the ones `AddLog` derives. -/
structure Log where
  Address : Address
  Topics : List Hash
  Data : Bytes
  BlockNumber : Nat
  TxHash : Hash
  TxIndex : Nat
  BlockHash : Hash
  Index : Nat

/-- `journalEntry`: one undoable change.  (`addPreimageChange` is never journaled in this
version of the source and is left out.) -/
inductive JournalEntry where
  | createObjectChange (account : Address)
  | resetObjectChange (prev : StateObject)
  | suicideChange (account : Address) (prev : Bool) (prevbalance : Int)
  | balanceChange (account : Address) (prev : Int)
  | nonceChange (account : Address) (prev : Nat)
  | storageChange (account : Address) (key prevalue : Hash)
  | codeChange (account : Address) (prevcode : Option Bytes) (prevhash : Hash)
  | refundChange (prev : Int)
  | addLogChange (txhash : Hash)
  | touchChange (account : Address) (prev prevDirty : Bool)

/-- `revision`: a snapshot's id and the journal length it reverts to. -/
structure revision where
  id : Nat
  journalIndex : Nat

/-- `StateDB`, with `db` its environment and `trie` the account trie's contents. -/
structure StateDB where
  db : Env
  trie : Address → Option Account
  stateObjects : Address → Option StateObject
  stateObjectsDirty : List Address
  refund : Int
  thash : Hash
  bhash : Hash
  txIndex : Nat
  logs : Hash → List Log
  logSize : Nat
  journal : List JournalEntry
  validRevisions : List revision
  nextRevisionId : Nat

/-- `New`: a state over the account trie `trie`, with nothing live. -/
def New (db : Env) (trie : Address → Option Account) : StateDB where
  db := db
  trie := trie
  stateObjects := fun _ => none
  stateObjectsDirty := []
  refund := 0
  thash := 0
  bhash := 0
  txIndex := 0
  logs := fun _ => []
  logSize := 0
  journal := []
  validRevisions := []
  nextRevisionId := 0

namespace StateDB

/-- Append a journal entry. -/
def append (s : StateDB) (e : JournalEntry) : StateDB := { s with journal := s.journal ++ [e] }

/-- `MarkStateObjectDirty`: add `addr` to `stateObjectsDirty`. -/
def MarkStateObjectDirty (s : StateDB) (addr : Address) : StateDB :=
  { s with stateObjectsDirty := s.stateObjectsDirty.insert addr }

/-- `setStateObject`: make `o` the live object of its address. -/
def setStateObject (s : StateDB) (o : StateObject) : StateDB :=
  { s with stateObjects := Function.update s.stateObjects o.address (some o) }

end StateDB

namespace StateObject

/-- The `onDirty` callback of a change: armed, it marks the object dirty and is cleared. -/
def fireOnDirty (o : StateObject) (s : StateDB) : StateObject × StateDB :=
  if o.onDirty then ({ o with onDirty := false }, s.MarkStateObjectDirty o.address) else (o, s)

/-- `empty`: no nonce, no balance and no code. -/
def empty (o : StateObject) (env : Env) : Bool :=
  o.data.Nonce = 0 && o.data.Balance = 0 && o.data.CodeHash = env.emptyCodeHash

def setBalance (o : StateObject) (amount : Int) (s : StateDB) : StateObject × StateDB :=
  fireOnDirty { o with data := { o.data with Balance := amount } } s

def SetBalance (o : StateObject) (amount : Int) (s : StateDB) : StateObject × StateDB :=
  o.setBalance amount (s.append (.balanceChange o.address o.data.Balance))

def setNonce (o : StateObject) (nonce : Nat) (s : StateDB) : StateObject × StateDB :=
  fireOnDirty { o with data := { o.data with Nonce := nonce } } s

def SetNonce (o : StateObject) (nonce : Nat) (s : StateDB) : StateObject × StateDB :=
  o.setNonce nonce (s.append (.nonceChange o.address o.data.Nonce))

/-- `Code`: the cached code, else none for the empty code hash, else the code store's,
which is then cached. -/
def Code (o : StateObject) (env : Env) : Option Bytes × StateObject :=
  match o.code with
  | some c => (some c, o)
  | none =>
      if o.data.CodeHash = env.emptyCodeHash then (none, o)
      else
        let code := env.ContractCode o.data.CodeHash
        (some code, { o with code := some code })

def setCode (o : StateObject) (codeHash : Hash) (code : Option Bytes) (s : StateDB) :
    StateObject × StateDB :=
  fireOnDirty
    { o with
      code := code
      data := { o.data with CodeHash := codeHash }
      dirtyCode := true } s

def SetCode (o : StateObject) (codeHash : Hash) (code : Option Bytes) (s : StateDB) :
    StateObject × StateDB :=
  let (prevcode, o) := o.Code s.db
  o.setCode codeHash code (s.append (.codeChange o.address prevcode o.data.CodeHash))

/-- `GetState`: the cached value, else the storage trie's, cached when it is not zero. -/
def GetState (o : StateObject) (key : Hash) : Hash × StateObject :=
  match o.cachedStorage key with
  | some value => (value, o)
  | none =>
      let value := o.data.Root key
      if value ≠ 0 then
        (value, { o with cachedStorage := Function.update o.cachedStorage key (some value) })
      else (value, o)

def setState (o : StateObject) (key value : Hash) (s : StateDB) : StateObject × StateDB :=
  fireOnDirty
    { o with
      cachedStorage := Function.update o.cachedStorage key (some value)
      dirtyStorage := Function.update o.dirtyStorage key (some value) } s

def SetState (o : StateObject) (key value : Hash) (s : StateDB) : StateObject × StateDB :=
  let (prevalue, o) := o.GetState key
  o.setState key value (s.append (.storageChange o.address key prevalue))

/-- `touch`: journal the touch, with whether the callback was already spent, then fire it. -/
def touch (o : StateObject) (s : StateDB) : StateObject × StateDB :=
  let s := s.append (.touchChange o.address o.touched (!o.onDirty))
  let (o, s) := o.fireOnDirty s
  ({ o with touched := true }, s)

def markSuicided (o : StateObject) (s : StateDB) : StateObject × StateDB :=
  fireOnDirty { o with suicided := true } s

/-- `AddBalance`: a zero amount only touches an empty account (EIP158). -/
def AddBalance (o : StateObject) (amount : Int) (s : StateDB) : StateObject × StateDB :=
  if amount = 0 then (if o.empty s.db then o.touch s else (o, s))
  else o.SetBalance (o.data.Balance + amount) s

def SubBalance (o : StateObject) (amount : Int) (s : StateDB) : StateObject × StateDB :=
  if amount = 0 then (o, s) else o.SetBalance (o.data.Balance - amount) s

/-- `updateRoot`: write the dirty storage into the storage trie (a zero value deletes its
key) and clear it.  The order of the source's map walk does not matter: each key is
written once. -/
def updateRoot (o : StateObject) : StateObject :=
  { o with
    data := { o.data with Root := fun k => (o.dirtyStorage k).getD (o.data.Root k) }
    dirtyStorage := fun _ => none }

end StateObject

/-- `newObject`: a live object for `data`, its callback armed. -/
def newObject (address : Address) (data : Account) : StateObject where
  address := address
  data := data
  code := none
  cachedStorage := fun _ => none
  dirtyStorage := fun _ => none
  dirtyCode := false
  suicided := false
  touched := false
  deleted := false
  onDirty := true

/-- `deepCopy`: a fresh object for the account with the copy's callback armed, keeping the
code, the dirty storage (which is also its whole cache) and the flags `suicided`, `dirtyCode`
and `deleted`; `touched` is not carried over. -/
def StateObject.deepCopy (o : StateObject) : StateObject :=
  { newObject o.address o.data with
    code := o.code
    dirtyStorage := o.dirtyStorage
    cachedStorage := o.dirtyStorage
    suicided := o.suicided
    dirtyCode := o.dirtyCode
    deleted := o.deleted }

/-- `Account{}` as `newObject` completes it: the empty code hash. -/
def emptyAccount (env : Env) : Account where
  Nonce := 0
  Balance := 0
  Root := fun _ => 0
  CodeHash := env.emptyCodeHash

namespace StateDB

/-- `getStateObject`: the live object, unless deleted; else the trie's account, which
becomes live. -/
def getStateObject (s : StateDB) (addr : Address) : Option StateObject × StateDB :=
  match s.stateObjects addr with
  | some obj => if obj.deleted then (none, s) else (some obj, s)
  | none =>
      match s.trie addr with
      | none => (none, s)
      | some data =>
          let obj := newObject addr data
          (some obj, s.setStateObject obj)

/-- `createObject`: a new object with nonce `StartingNonce` (which marks it dirty), and the
object it replaces, journaled as a creation or as a reset. -/
def createObject (s : StateDB) (addr : Address) : (StateObject × Option StateObject) × StateDB :=
  let (prev, s) := s.getStateObject addr
  let (newobj, s) := (newObject addr (emptyAccount s.db)).setNonce s.db.StartingNonce s
  let s := match prev with
    | none => s.append (.createObjectChange addr)
    | some prev => s.append (.resetObjectChange prev)
  ((newobj, prev), s.setStateObject newobj)

def GetOrNewStateObject (s : StateDB) (addr : Address) : StateObject × StateDB :=
  match s.getStateObject addr with
  | (some o, s) =>
      if o.deleted then
        let ((o, _), s) := s.createObject addr
        (o, s)
      else (o, s)
  | (none, s) =>
      let ((o, _), s) := s.createObject addr
      (o, s)

/-- The mutators of one account: apply the object's method to the live object of `addr`,
created if there is none, and keep the changed object live. -/
def withObject (s : StateDB) (addr : Address)
    (f : StateObject → StateDB → StateObject × StateDB) : StateDB :=
  let (o, s) := s.GetOrNewStateObject addr
  let (o, s) := f o s
  s.setStateObject o

def AddBalance (s : StateDB) (addr : Address) (amount : Int) : StateDB :=
  s.withObject addr (·.AddBalance amount)

def SubBalance (s : StateDB) (addr : Address) (amount : Int) : StateDB :=
  s.withObject addr (·.SubBalance amount)

def SetBalance (s : StateDB) (addr : Address) (amount : Int) : StateDB :=
  s.withObject addr (·.SetBalance amount)

def SetNonce (s : StateDB) (addr : Address) (nonce : Nat) : StateDB :=
  s.withObject addr (·.SetNonce nonce)

def SetCode (s : StateDB) (addr : Address) (code : Option Bytes) : StateDB :=
  s.withObject addr (·.SetCode (s.db.Keccak256 (code.getD [])) code)

def SetState (s : StateDB) (addr : Address) (key value : Hash) : StateDB :=
  s.withObject addr (·.SetState key value)

/-- `CreateAccount`: a fresh object, carrying over the balance of the one it replaces. -/
def CreateAccount (s : StateDB) (addr : Address) : StateDB :=
  let ((new, prev), s) := s.createObject addr
  let s := match prev with
    | some prev =>
        let (new, s) := new.setBalance prev.data.Balance s
        s.setStateObject new
    | none => s
  (s.getStateObject addr).2

/-- `Suicide`: mark the account and clear its balance, or report that it does not exist. -/
def Suicide (s : StateDB) (addr : Address) : Bool × StateDB :=
  match s.getStateObject addr with
  | (none, s) => (false, s)
  | (some o, s) =>
      let s := s.append (.suicideChange addr o.suicided o.data.Balance)
      let (o, s) := o.markSuicided s
      (true, s.setStateObject { o with data := { o.data with Balance := 0 } })

def AddRefund (s : StateDB) (gas : Int) : StateDB :=
  { s.append (.refundChange s.refund) with refund := s.refund + gas }

def StartRecord (s : StateDB) (thash bhash : Hash) (ti : Nat) : StateDB :=
  { s with thash := thash, bhash := bhash, txIndex := ti }

/-- `AddLog`: the log, stamped with the current transaction and its index in the block. -/
def AddLog (s : StateDB) (log : Log) : StateDB :=
  let s := s.append (.addLogChange s.thash)
  let log := { log with
    TxHash := s.thash
    BlockHash := s.bhash
    TxIndex := s.txIndex
    Index := s.logSize }
  { s with
    logs := Function.update s.logs s.thash (s.logs s.thash ++ [log])
    logSize := s.logSize + 1 }

/-! ### Getters -/

def Exist (s : StateDB) (addr : Address) : Bool × StateDB :=
  let (o, s) := s.getStateObject addr
  (o.isSome, s)

def GetBalance (s : StateDB) (addr : Address) : Int × StateDB :=
  match s.getStateObject addr with
  | (some o, s) => (o.data.Balance, s)
  | (none, s) => (0, s)

def GetNonce (s : StateDB) (addr : Address) : Nat × StateDB :=
  match s.getStateObject addr with
  | (some o, s) => (o.data.Nonce, s)
  | (none, s) => (s.db.StartingNonce, s)

def GetCode (s : StateDB) (addr : Address) : Option Bytes × StateDB :=
  match s.getStateObject addr with
  | (some o, s) =>
      let (code, o) := o.Code s.db
      (code, s.setStateObject o)
  | (none, s) => (none, s)

def GetCodeSize (s : StateDB) (addr : Address) : Nat × StateDB :=
  match s.getStateObject addr with
  | (some o, s) =>
      match o.code with
      | some code => (code.length, s)
      | none => ((s.db.ContractCode o.data.CodeHash).length, s)
  | (none, s) => (0, s)

def GetCodeHash (s : StateDB) (addr : Address) : Hash × StateDB :=
  match s.getStateObject addr with
  | (some o, s) => (o.data.CodeHash, s)
  | (none, s) => (0, s)

def GetState (s : StateDB) (addr : Address) (key : Hash) : Hash × StateDB :=
  match s.getStateObject addr with
  | (some o, s) =>
      let (value, o) := o.GetState key
      (value, s.setStateObject o)
  | (none, s) => (0, s)

def HasSuicided (s : StateDB) (addr : Address) : Bool × StateDB :=
  match s.getStateObject addr with
  | (some o, s) => (o.suicided, s)
  | (none, s) => (false, s)

def GetRefund (s : StateDB) : Int := s.refund

def GetLogs (s : StateDB) (hash : Hash) : List Log := s.logs hash

/-! ### The journal -/

/-- The undo of a change to one live account: `getStateObject(addr).set...(prev)`, which
dereferences nil if the account is gone. -/
def undoOnLive (s : StateDB) (addr : Address)
    (f : StateObject → StateDB → StateObject × StateDB) : Option StateDB :=
  match s.getStateObject addr with
  | (none, _) => none
  | (some o, s) =>
      let (o, s) := f o s
      some (s.setStateObject o)

end StateDB

/-- `undo`: revert one journaled change. -/
def JournalEntry.undo (e : JournalEntry) (s : StateDB) : Option StateDB :=
  match e with
  | .createObjectChange account =>
      some { s with
        stateObjects := Function.update s.stateObjects account none
        stateObjectsDirty := s.stateObjectsDirty.erase account }
  | .resetObjectChange prev => some (s.setStateObject prev)
  | .suicideChange account prev prevbalance =>
      match s.getStateObject account with
      | (none, s) => some s
      | (some o, s) =>
          let (o, s) := { o with suicided := prev }.setBalance prevbalance s
          some (s.setStateObject o)
  | .touchChange account prev prevDirty =>
      if !prev && account ≠ ripemd then
        match s.getStateObject account with
        | (none, _) => none
        | (some o, s) =>
            let s := s.setStateObject { o with touched := prev }
            -- the address leaves the dirty set, but the callback stays spent
            if !prevDirty then some { s with stateObjectsDirty := s.stateObjectsDirty.erase account }
            else some s
      else some s
  | .balanceChange account prev => s.undoOnLive account (·.setBalance prev)
  | .nonceChange account prev => s.undoOnLive account (·.setNonce prev)
  | .codeChange account prevcode prevhash => s.undoOnLive account (·.setCode prevhash prevcode)
  | .storageChange account key prevalue => s.undoOnLive account (·.setState key prevalue)
  | .refundChange prev => some { s with refund := prev }
  | .addLogChange txhash =>
      let logs := s.logs txhash
      some { s with
        logs := Function.update s.logs txhash (if logs.length = 1 then [] else logs.dropLast),
        logSize := s.logSize - 1 }

/-- Undo the entries of `es` in order (the journal's newest first). -/
def undoAll : List JournalEntry → StateDB → Option StateDB
  | [], s => some s
  | e :: es, s => (e.undo s).bind (undoAll es)

namespace StateDB

/-- `Snapshot`: a fresh id for the current journal length. -/
def Snapshot (s : StateDB) : Nat × StateDB :=
  let id := s.nextRevisionId
  (id, { s with
    nextRevisionId := id + 1
    validRevisions := s.validRevisions ++ [⟨id, s.journal.length⟩] })

/-- `RevertToSnapshot`: find the revision (`sort.Search` for the first id at least `revid`:
the ids are increasing), undo the journal after it, newest first, and drop it and the
revisions from it on.  An unknown id panics. -/
def RevertToSnapshot (s : StateDB) (revid : Nat) : Option StateDB :=
  let idx := s.validRevisions.findIdx (fun r => decide (r.id ≥ revid))
  match s.validRevisions[idx]? with
  | none => none
  | some r =>
      if r.id ≠ revid then none
      else
        let snapshot := r.journalIndex
        (undoAll (s.journal.drop snapshot).reverse s).map fun s =>
          { s with journal := s.journal.take snapshot, validRevisions := s.validRevisions.take idx }

/-- `updateStateObject`: write the object's account into the trie. -/
def updateStateObject (s : StateDB) (o : StateObject) : StateDB :=
  { s with trie := Function.update s.trie o.address (some o.data) }

/-- `deleteStateObject`: flag the object deleted and remove its account from the trie. -/
def deleteStateObject (s : StateDB) (o : StateObject) : StateDB :=
  let s := s.setStateObject { o with deleted := true }
  { s with trie := Function.update s.trie o.address none }

def clearJournalAndRefund (s : StateDB) : StateDB :=
  { s with journal := [], validRevisions := [], refund := 0 }

/-- One address of `Finalise`'s walk over `stateObjectsDirty`. -/
def finaliseObject (deleteEmptyObjects : Bool) (s : StateDB) (addr : Address) :
    Option StateDB :=
  match s.stateObjects addr with
  | none => none
  | some o =>
      if o.suicided || (deleteEmptyObjects && o.empty s.db) then some (s.deleteStateObject o)
      else
        let o := o.updateRoot
        some ((s.setStateObject o).updateStateObject o)

/-- `Finalise`: write every dirty object to the trie (or delete it), then clear the journal
and the refund.  Each address is written once, so the order of the walk does not matter. -/
def Finalise (s : StateDB) (deleteEmptyObjects : Bool) : Option StateDB :=
  (s.stateObjectsDirty.foldlM (finaliseObject deleteEmptyObjects) s).map clearJournalAndRefund

/-- `IntermediateRoot`: `Finalise`, then the hash `root` of the account trie. -/
def IntermediateRoot {H : Type} (root : (Address → Option Account) → H) (s : StateDB)
    (deleteEmptyObjects : Bool) : Option (H × StateDB) :=
  (s.Finalise deleteEmptyObjects).map fun s => (root s.trie, s)

/-- One object of `CommitTo`'s walk over the live objects: a suicided object, or a dirty
empty one when empty objects go, is deleted; another dirty object has its code written and
its storage trie committed, and is written to the account trie; a clean one stays as it is.
Either way the address leaves the dirty set. -/
def commitObject (deleteEmptyObjects : Bool) (s : StateDB) (addr : Address) : StateDB :=
  match s.stateObjects addr with
  | none => s
  | some o =>
      let isDirty := decide (addr ∈ s.stateObjectsDirty)
      let s :=
        if o.suicided || (isDirty && deleteEmptyObjects && o.empty s.db) then s.deleteStateObject o
        else if isDirty then
          -- the code goes to the database, and `CommitTrie` sets the root as `updateRoot` does
          let o := if o.code.isSome && o.dirtyCode then { o with dirtyCode := false } else o
          let o := o.updateRoot
          (s.setStateObject o).updateStateObject o
        else s
      { s with stateObjectsDirty := s.stateObjectsDirty.erase addr }

/-- `CommitTo`: walk the live objects in `order`, the order of the Go map walk, which may be
any; then the hash `root` of the account trie.  The journal and the refund are cleared on
return.  The database writes do not fail. -/
def CommitTo {H : Type} (root : (Address → Option Account) → H) (s : StateDB)
    (order : List Address) (deleteEmptyObjects : Bool) : H × StateDB :=
  let s := order.foldl (commitObject deleteEmptyObjects) s
  (root s.trie, s.clearJournalAndRefund)

/-- `Copy`: a state over the same trie with a deep copy of each dirty object (the other live
objects are dropped), the dirty set, the refund and the logs; the journal, the snapshots and
the transaction context start empty.  A dirty address without a live object is a nil
dereference. -/
def Copy (s : StateDB) : Option StateDB :=
  (s.stateObjectsDirty.foldlM
      (fun objs addr =>
        (s.stateObjects addr).map fun o => Function.update objs addr (some o.deepCopy))
      fun _ => none).map fun objs =>
    { New s.db s.trie with
      stateObjects := objs
      stateObjectsDirty := s.stateObjectsDirty
      refund := s.refund
      logs := s.logs
      logSize := s.logSize }

end StateDB

/-! ### Balances

`GetBalance` reads an address's live object, else the trie's account; `AddBalance` changes
the live object of its own address and nothing else (`StateDB.AddBalance_spec`), provided every
live object sits under its own address (`StateDB.Addressed`), as `setStateObject` keeps
it. -/

namespace StateObject

/-! The callback changes neither the account nor the live objects. -/

@[simp] theorem fireOnDirty_address (o : StateObject) (s : StateDB) :
    (o.fireOnDirty s).1.address = o.address := by
  unfold fireOnDirty; split <;> rfl

@[simp] theorem fireOnDirty_data (o : StateObject) (s : StateDB) :
    (o.fireOnDirty s).1.data = o.data := by
  unfold fireOnDirty; split <;> rfl

@[simp] theorem fireOnDirty_deleted (o : StateObject) (s : StateDB) :
    (o.fireOnDirty s).1.deleted = o.deleted := by
  unfold fireOnDirty; split <;> rfl

@[simp] theorem fireOnDirty_stateObjects (o : StateObject) (s : StateDB) :
    (o.fireOnDirty s).2.stateObjects = s.stateObjects := by
  unfold fireOnDirty; split <;> rfl

@[simp] theorem fireOnDirty_trie (o : StateObject) (s : StateDB) :
    (o.fireOnDirty s).2.trie = s.trie := by
  unfold fireOnDirty; split <;> rfl

/-- `AddBalance` of an object adds to its balance and leaves the live objects and the trie
of the state alone. -/
theorem AddBalance_spec (o : StateObject) (x : Int) (s : StateDB) :
    (o.AddBalance x s).1.address = o.address ∧ (o.AddBalance x s).1.deleted = o.deleted ∧
      (o.AddBalance x s).1.data.Balance = o.data.Balance + x ∧
      (o.AddBalance x s).2.stateObjects = s.stateObjects ∧ (o.AddBalance x s).2.trie = s.trie := by
  unfold AddBalance
  by_cases hx : x = 0
  · -- a zero amount: at most a touch
    by_cases he : o.empty s.db <;> simp [hx, he, touch, StateDB.append]
  · simp [hx, SetBalance, setBalance, StateDB.append]

end StateObject

namespace StateDB

/-- Every live object sits under its own address, where `setStateObject` puts it. -/
def Addressed (s : StateDB) : Prop := ∀ a o, s.stateObjects a = some o → o.address = a

theorem Addressed_New (db : Env) (trie : Address → Option Account) : (New db trie).Addressed := by
  intro a o h
  cases h

variable {s s' : StateDB} {a b : Address} {o : StateObject}

/-- `GetBalance` reads only the live object and the trie's account of its address. -/
theorem GetBalance_congr (h1 : s'.stateObjects b = s.stateObjects b) (h2 : s'.trie b = s.trie b) :
    (s'.GetBalance b).1 = (s.GetBalance b).1 := by
  simp only [GetBalance, getStateObject, h1, h2]
  rcases s.stateObjects b with _ | o
  · rcases s.trie b with _ | data <;> rfl
  · by_cases hd : o.deleted <;> simp [hd]

theorem GetBalance_of_live (h : s.stateObjects b = some o) (hd : o.deleted = false) :
    (s.GetBalance b).1 = o.data.Balance := by
  simp [GetBalance, getStateObject, h, hd]

theorem getStateObject_frame (s : StateDB) (a : Address) :
    (s.getStateObject a).2.trie = s.trie ∧
      ∀ b, b ≠ a → (s.getStateObject a).2.stateObjects b = s.stateObjects b := by
  unfold getStateObject
  split
  · split <;> simp
  · split
    · simp
    · simp +contextual [setStateObject, newObject, Function.update_of_ne]

theorem createObject_spec (s : StateDB) (a : Address) :
    (s.createObject a).1.1.address = a ∧ (s.createObject a).1.1.deleted = false ∧
      (s.createObject a).1.1.data.Balance = 0 ∧ (s.createObject a).2.trie = s.trie ∧
      ∀ b, b ≠ a → (s.createObject a).2.stateObjects b = s.stateObjects b := by
  obtain ⟨htrie, hframe⟩ := s.getStateObject_frame a
  unfold createObject
  rcases hget : s.getStateObject a with ⟨prev, s1⟩
  rw [hget] at htrie hframe
  refine ⟨?_, ?_, ?_, ?_, ?_⟩
  · simp [StateObject.setNonce, newObject]
  · simp [StateObject.setNonce, newObject]
  · simp [StateObject.setNonce, newObject, emptyAccount]
  · cases prev <;> simpa [StateObject.setNonce, setStateObject, append] using htrie
  · intro b hb
    cases prev <;>
      simpa [StateObject.setNonce, setStateObject, append, newObject, hb] using hframe b hb

/-- `GetOrNewStateObject` returns a live object of the address with the balance `GetBalance`
reads, and loads or creates nothing at any other address. -/
theorem GetOrNewStateObject_spec (hs : s.Addressed) (a : Address) :
    (s.GetOrNewStateObject a).1.address = a ∧ (s.GetOrNewStateObject a).1.deleted = false ∧
      (s.GetOrNewStateObject a).1.data.Balance = (s.GetBalance a).1 ∧
      (s.GetOrNewStateObject a).2.trie = s.trie ∧
      ∀ b, b ≠ a → (s.GetOrNewStateObject a).2.stateObjects b = s.stateObjects b := by
  have hcreate := s.createObject_spec a
  rcases ho : s.stateObjects a with _ | o
  · rcases hd : s.trie a with _ | data
    · -- nothing to load: a fresh object with no balance
      have hget : s.getStateObject a = (none, s) := by simp [getStateObject, ho, hd]
      simpa [GetOrNewStateObject, GetBalance, hget] using hcreate
    · -- the trie's account becomes live
      simp +contextual [GetOrNewStateObject, GetBalance, getStateObject, ho, hd, newObject,
        setStateObject, Function.update_of_ne]
  · by_cases hdel : o.deleted
    · -- a deleted object is replaced by a fresh one
      have hget : s.getStateObject a = (none, s) := by simp [getStateObject, ho, hdel]
      simpa [GetOrNewStateObject, GetBalance, hget] using hcreate
    · simp [GetOrNewStateObject, GetBalance, getStateObject, ho, hdel, hs a o ho]

/-- `AddBalance` credits its own address and no other, keeps every live object under its
own address, and writes nothing to the trie. -/
theorem AddBalance_spec (hs : s.Addressed) (a : Address) (x : Int) :
    (s.AddBalance a x).Addressed ∧ (s.AddBalance a x).trie = s.trie ∧
      ∀ b, ((s.AddBalance a x).GetBalance b).1 = (s.GetBalance b).1 + if b = a then x else 0 := by
  obtain ⟨haddr, hdel, hbal, htrie, hframe⟩ := s.GetOrNewStateObject_spec hs a
  obtain ⟨haddr', hdel', hbal', hobjs', htrie'⟩ :=
    (s.GetOrNewStateObject a).1.AddBalance_spec x (s.GetOrNewStateObject a).2
  -- the credited object is the only live object that changes
  have hobjs : ∀ b, (s.AddBalance a x).stateObjects b =
      if b = a then some ((s.GetOrNewStateObject a).1.AddBalance x (s.GetOrNewStateObject a).2).1
      else s.stateObjects b := by
    intro b
    by_cases hb : b = a
    · simp [StateDB.AddBalance, withObject, setStateObject, haddr', haddr, hb]
    · simp [StateDB.AddBalance, withObject, setStateObject, haddr', haddr, hb, hobjs', hframe b hb]
  have htrieR : (s.AddBalance a x).trie = s.trie := by
    simp [StateDB.AddBalance, withObject, setStateObject, htrie', htrie]
  refine ⟨?_, htrieR, ?_⟩
  · intro b o h
    rw [hobjs b] at h
    split_ifs at h with hb
    · cases h
      rw [haddr', haddr, hb]
    · exact hs b o h
  · intro b
    by_cases hb : b = a
    · subst hb
      rw [GetBalance_of_live (hobjs b ▸ if_pos rfl) (by rw [hdel', hdel]), hbal', hbal, if_pos rfl]
    · rw [GetBalance_congr ((hobjs b).trans (if_neg hb)) (by rw [htrieR]), if_neg hb, add_zero]

end StateDB

end State
end Ethcore
