import Ethcore.State.StateDB

/-!
# Snapshots and reverts of the state database

`RevertToSnapshot` is meant to leave the state as if the reverted mutators had never run.
It does for what the getters read, but not for the bookkeeping `Finalise` relies on: the
undo of a `touchChange` removes the address from `stateObjectsDirty` and leaves the
object's `onDirty` callback spent.  An account that is loaded from the trie, touched by a
zero-value `AddBalance` (it must be empty), and reverted, is then never marked dirty again:
a later credit changes its balance, which every getter reports, but `IntermediateRoot`
does not write it to the trie (`IntermediateRoot_reverted_touch`).  `Copy` copies only the
dirty objects, so a copy taken then reads the account from the trie again and does not see
the credit either (`Copy_GetBalance_reverted_touch`).

The run is `touchRevertCredit`; the steps below follow it through the model from a fresh
`StateDB` over any account trie in which the account exists and is empty.
-/

namespace Ethcore
namespace State

open StateDB

/-- Snapshot, touch `addr` with a zero-value `AddBalance`, revert the snapshot, then credit
`amount` to `addr`. -/
def touchRevertCredit (s : StateDB) (addr : Address) (amount : Int) : Option StateDB :=
  let snap := s.Snapshot
  ((snap.2.AddBalance addr 0).RevertToSnapshot snap.1).map (·.AddBalance addr amount)

section Run

variable {env : Env} {trie : Address → Option Account} {addr : Address} {acc : Account}
  {amount : Int}

/-- The touch: the account is loaded with its callback armed, the callback fires and marks
it dirty, and the journal records that it was not dirty before. -/
theorem touch_loaded_empty (htrie : trie addr = some acc)
    (hempty : acc.Nonce = 0 ∧ acc.Balance = 0 ∧ acc.CodeHash = env.emptyCodeHash) :
    (New env trie).Snapshot.2.AddBalance addr 0 =
      { New env trie with
        stateObjects := Function.update (fun _ => none) addr
          (some { newObject addr acc with onDirty := false, touched := true })
        stateObjectsDirty := [addr]
        journal := [.touchChange addr false false]
        nextRevisionId := 1
        validRevisions := [⟨0, 0⟩] } := by
  obtain ⟨h1, h2, h3⟩ := hempty
  simp [Snapshot, StateDB.AddBalance, withObject, GetOrNewStateObject, getStateObject, New, htrie,
    StateObject.AddBalance, StateObject.empty, h1, h2, h3, StateObject.touch,
    StateObject.fireOnDirty, newObject, setStateObject, StateDB.append, MarkStateObjectDirty]

/-- The revert: the address leaves the dirty set, and the object keeps its spent
callback. -/
theorem revert_touch (hripemd : addr ≠ ripemd) :
    ({ New env trie with
        stateObjects := Function.update (fun _ => none) addr
          (some { newObject addr acc with onDirty := false, touched := true })
        stateObjectsDirty := [addr]
        journal := [.touchChange addr false false]
        nextRevisionId := 1
        validRevisions := [⟨0, 0⟩] } : StateDB).RevertToSnapshot 0 =
      some { New env trie with
        stateObjects := Function.update (fun _ => none) addr
          (some { newObject addr acc with onDirty := false })
        nextRevisionId := 1 } := by
  simp [RevertToSnapshot, undoAll, JournalEntry.undo, hripemd, getStateObject, newObject,
    setStateObject, New]

/-- The credit after the revert: the balance changes, and nothing marks the object dirty. -/
theorem credit_spent_callback (hamount : amount ≠ 0) :
    ({ New env trie with
        stateObjects := Function.update (fun _ => none) addr
          (some { newObject addr acc with onDirty := false })
        nextRevisionId := 1 } : StateDB).AddBalance addr amount =
      { New env trie with
        stateObjects := Function.update (fun _ => none) addr
          (some { newObject addr { acc with Balance := acc.Balance + amount } with
            onDirty := false })
        journal := [.balanceChange addr acc.Balance]
        nextRevisionId := 1 } := by
  simp [StateDB.AddBalance, withObject, GetOrNewStateObject, getStateObject, newObject, hamount,
    StateObject.AddBalance, StateObject.SetBalance, StateObject.setBalance,
    StateObject.fireOnDirty, setStateObject, New, StateDB.append]

/-- The same credit on a fresh state: the callback is armed and marks the account dirty. -/
theorem credit_loaded (htrie : trie addr = some acc) (hamount : amount ≠ 0) :
    (New env trie).AddBalance addr amount =
      { New env trie with
        stateObjects := Function.update (fun _ => none) addr
          (some { newObject addr { acc with Balance := acc.Balance + amount } with
            onDirty := false })
        stateObjectsDirty := [addr]
        journal := [.balanceChange addr acc.Balance] } := by
  simp [StateDB.AddBalance, withObject, GetOrNewStateObject, getStateObject, newObject, hamount,
    htrie, StateObject.AddBalance, StateObject.SetBalance, StateObject.setBalance,
    StateObject.fireOnDirty, setStateObject, New, StateDB.append, MarkStateObjectDirty]

/-- The whole run from a fresh state: the credited object is live with its callback spent,
and nothing is dirty. -/
theorem touchRevertCredit_New (htrie : trie addr = some acc)
    (hempty : acc.Nonce = 0 ∧ acc.Balance = 0 ∧ acc.CodeHash = env.emptyCodeHash)
    (hripemd : addr ≠ ripemd) (hamount : amount ≠ 0) :
    touchRevertCredit (New env trie) addr amount =
      some { New env trie with
        stateObjects := Function.update (fun _ => none) addr
          (some { newObject addr { acc with Balance := acc.Balance + amount } with
            onDirty := false })
        journal := [.balanceChange addr acc.Balance]
        nextRevisionId := 1 } := by
  simp only [touchRevertCredit]
  rw [touch_loaded_empty htrie hempty]
  have hid : (New env trie).Snapshot.1 = 0 := rfl
  rw [hid, revert_touch hripemd, Option.map_some, credit_spent_callback hamount]

/-- `Finalise` with nothing dirty leaves the account trie as it is. -/
theorem Finalise_trie_of_clean {s : StateDB} (h : s.stateObjectsDirty = []) (del : Bool) :
    (s.Finalise del).map StateDB.trie = some s.trie := by
  simp [Finalise, h, clearJournalAndRefund]

end Run

/-- **A reverted touch hides a later credit from `IntermediateRoot`.**  From a fresh
`StateDB` over an account trie holding an empty account `addr` (other than `ripemd`),
touching it by a zero-value `AddBalance` inside a snapshot, reverting the snapshot and then
crediting `amount ≠ 0` gives the same balance as the credit alone, yet a different
`IntermediateRoot(false)` under any injective trie hash: the credited account is never
written to the trie. -/
theorem IntermediateRoot_reverted_touch {H : Type} (root : (Address → Option Account) → H)
    (hroot : Function.Injective root) (env : Env) (trie : Address → Option Account)
    (addr : Address) (acc : Account) (htrie : trie addr = some acc)
    (hempty : acc.Nonce = 0 ∧ acc.Balance = 0 ∧ acc.CodeHash = env.emptyCodeHash)
    (hripemd : addr ≠ ripemd) (amount : Int) (hamount : amount ≠ 0) :
    (touchRevertCredit (New env trie) addr amount).map (fun s => (s.GetBalance addr).1) =
        some ((New env trie).AddBalance addr amount |>.GetBalance addr).1 ∧
      ((touchRevertCredit (New env trie) addr amount).bind
          (·.IntermediateRoot root false)).map Prod.fst ≠
        (((New env trie).AddBalance addr amount).IntermediateRoot root false).map Prod.fst := by
  rw [touchRevertCredit_New htrie hempty hripemd hamount, credit_loaded htrie hamount]
  constructor
  · simp [GetBalance, getStateObject, newObject]
  · -- the reverted run writes nothing; the fresh one writes the credited account
    simp only [Option.bind_some, IntermediateRoot, Finalise, Option.map_map]
    simp [finaliseObject, clearJournalAndRefund, New, StateObject.updateRoot, newObject,
      updateStateObject, setStateObject]
    intro heq
    have hat := congrFun (hroot heq) addr
    simp only [Function.update_self, htrie, Option.some.injEq] at hat
    have hb := congrArg Account.Balance hat
    simp only at hb
    omega

/-- **A copy after a reverted touch loses a credit.**  After the run above the credited
account is live but not dirty.  `Copy` copies only the dirty objects, so the copy reads the
account from the trie again: right after the copy its `GetBalance` is the trie's `0`, while
the original's is the credit. -/
theorem Copy_GetBalance_reverted_touch (env : Env) (trie : Address → Option Account)
    (addr : Address) (acc : Account) (htrie : trie addr = some acc)
    (hempty : acc.Nonce = 0 ∧ acc.Balance = 0 ∧ acc.CodeHash = env.emptyCodeHash)
    (hripemd : addr ≠ ripemd) (amount : Int) (hamount : amount ≠ 0) :
    ∃ s c, touchRevertCredit (New env trie) addr amount = some s ∧ s.Copy = some c ∧
      (s.GetBalance addr).1 = amount ∧ (c.GetBalance addr).1 = 0 := by
  refine ⟨_, _, touchRevertCredit_New htrie hempty hripemd hamount, rfl, ?_, ?_⟩
  · -- the original reads its live object
    simp [GetBalance, getStateObject, newObject, hempty.2.1]
  · -- the copy has no live object and loads the trie's account
    simp [GetBalance, getStateObject, New, htrie, newObject, hempty.2.1]

/-- The environment of the witness: no code, every hash `0`, nonces from `0`. -/
def zeroEnv : Env := ⟨fun _ => [], fun _ => 0, 0⟩

/-- The empty account under `zeroEnv`. -/
def zeroAccount : Account := ⟨0, 0, fun _ => 0, 0⟩

/-- The trie holding only the empty account `1`. -/
def oneAccountTrie : Address → Option Account := fun a => if a = 1 then some zeroAccount else none

/-- The run at the account `1` of a one-account trie, with the account trie itself as its
hash. -/
theorem IntermediateRoot_reverted_touch_one :
    (touchRevertCredit (New zeroEnv oneAccountTrie) 1 5).map (fun s => (s.GetBalance 1).1) =
        some ((New zeroEnv oneAccountTrie).AddBalance 1 5 |>.GetBalance 1).1 ∧
      ((touchRevertCredit (New zeroEnv oneAccountTrie) 1 5).bind
          (·.IntermediateRoot id false)).map Prod.fst ≠
        (((New zeroEnv oneAccountTrie).AddBalance 1 5).IntermediateRoot id false).map
          Prod.fst :=
  IntermediateRoot_reverted_touch id Function.injective_id zeroEnv oneAccountTrie 1 zeroAccount
    rfl ⟨rfl, rfl, rfl⟩ (by decide) 5 (by decide)

/-- The copy at the account `1` of a one-account trie. -/
theorem Copy_GetBalance_reverted_touch_one :
    ∃ s c, touchRevertCredit (New zeroEnv oneAccountTrie) 1 5 = some s ∧ s.Copy = some c ∧
      (s.GetBalance 1).1 = 5 ∧ (c.GetBalance 1).1 = 0 :=
  Copy_GetBalance_reverted_touch zeroEnv oneAccountTrie 1 zeroAccount rfl ⟨rfl, rfl, rfl⟩
    (by decide) 5 (by decide)

/-! ### The bookkeeping `Finalise` relies on -/

/-- What `Finalise` relies on: a live object whose callback is spent is in
`stateObjectsDirty`, and a live object whose account differs from the trie's has spent its
callback. -/
def StateDB.DirtyTracked (s : StateDB) : Prop :=
  (∀ a o, s.stateObjects a = some o → o.onDirty = false → o.address ∈ s.stateObjectsDirty) ∧
    ∀ a o, s.stateObjects a = some o → s.trie a ≠ some o.data → o.onDirty = false

theorem DirtyTracked_New (env : Env) (trie : Address → Option Account) :
    (New env trie).DirtyTracked := by
  -- nothing is live yet
  constructor
  · intro a o h
    cases h
  · intro a o h
    cases h

/-- **A reverted touch breaks the dirty tracking.**  A fresh `StateDB` keeps it.  Touching an
empty account of the trie inside a snapshot and reverting leaves the account live with its
callback spent and out of `stateObjectsDirty`; a credit after that makes its account differ
from the trie's while it is still not dirty. -/
theorem DirtyTracked_reverted_touch (env : Env) (trie : Address → Option Account)
    (addr : Address) (acc : Account) (htrie : trie addr = some acc)
    (hempty : acc.Nonce = 0 ∧ acc.Balance = 0 ∧ acc.CodeHash = env.emptyCodeHash)
    (hripemd : addr ≠ ripemd) (amount : Int) (hamount : amount ≠ 0) :
    (New env trie).DirtyTracked ∧
      (∃ s, ((New env trie).Snapshot.2.AddBalance addr 0).RevertToSnapshot
          (New env trie).Snapshot.1 = some s ∧ ¬ s.DirtyTracked) ∧
      ∃ s o, touchRevertCredit (New env trie) addr amount = some s ∧
        s.stateObjects addr = some o ∧ s.trie addr ≠ some o.data ∧ addr ∉ s.stateObjectsDirty := by
  have hid : (New env trie).Snapshot.1 = 0 := rfl
  have hrev := @revert_touch env trie addr acc hripemd
  rw [← touch_loaded_empty htrie hempty, ← hid] at hrev
  refine ⟨DirtyTracked_New env trie, ⟨_, hrev, ?_⟩,
    ⟨_, { newObject addr { acc with Balance := acc.Balance + amount } with onDirty := false },
      touchRevertCredit_New htrie hempty hripemd hamount, by simp, ?_, by simp [New]⟩⟩
  · -- the reverted account is live, spent, and not dirty
    rintro ⟨hdirty, -⟩
    have hmem := hdirty addr { newObject addr acc with onDirty := false } (by simp) rfl
    simp [New, newObject] at hmem
  · -- the credit changed the balance the trie still holds
    simp only [New, htrie, newObject, ne_eq, Option.some.injEq]
    intro heq
    have hb := congrArg Account.Balance heq
    simp only at hb
    omega

/-- The reverted touch at the account `1` of a one-account trie. -/
theorem DirtyTracked_reverted_touch_one :
    (New zeroEnv oneAccountTrie).DirtyTracked ∧
      (∃ s, ((New zeroEnv oneAccountTrie).Snapshot.2.AddBalance 1 0).RevertToSnapshot
          (New zeroEnv oneAccountTrie).Snapshot.1 = some s ∧ ¬ s.DirtyTracked) ∧
      ∃ s o, touchRevertCredit (New zeroEnv oneAccountTrie) 1 5 = some s ∧
        s.stateObjects 1 = some o ∧ s.trie 1 ≠ some o.data ∧ 1 ∉ s.stateObjectsDirty :=
  DirtyTracked_reverted_touch zeroEnv oneAccountTrie 1 zeroAccount rfl ⟨rfl, rfl, rfl⟩
    (by decide) 5 (by decide)

end State
end Ethcore
