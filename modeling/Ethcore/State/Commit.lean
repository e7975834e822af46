import Ethcore.Lib.LocalWalk
import Ethcore.State.Revert

/-!
# `CommitTo` against `IntermediateRoot`

`IntermediateRoot` writes back the objects of `stateObjectsDirty`, and `CommitTo` walks every
live object and writes back the dirty ones.  The two agree only while the dirty set is
exact.  Two things make it inexact:

* a suicided object outside the dirty set is deleted from the trie by `CommitTo` and left
  in it by `IntermediateRoot`;
* a changed object outside the dirty set is written by neither, so the committed trie does
  not hold what the getters of the committed state report.

Both happen after the reverted touch of `Ethcore.State.Revert`, which takes the address out
of the dirty set and leaves the object's `onDirty` callback spent: a later `Suicide` gives
the first (`touchRevertSuicide`), a later credit the second (`touchRevertCredit`).
`CommitTo_reverted_touch` follows both runs from a fresh `StateDB`.  On an exact dirty set
the two roots agree, whatever the order of `CommitTo`'s walk (`IntermediateRoot_eq_CommitTo`).
-/

namespace Ethcore
namespace State

open StateDB

/-- Snapshot, touch `addr` with a zero-value `AddBalance`, revert the snapshot, then let the
account suicide. -/
def touchRevertSuicide (s : StateDB) (addr : Address) : Option StateDB :=
  let snap := s.Snapshot
  ((snap.2.AddBalance addr 0).RevertToSnapshot snap.1).map fun s => (s.Suicide addr).2

section Run

variable {env : Env} {trie : Address → Option Account} {addr : Address} {acc : Account}

/-- The suicide after the revert: the object is flagged and emptied, and nothing marks it
dirty. -/
theorem suicide_spent_callback :
    (({ New env trie with
        stateObjects := Function.update (fun _ => none) addr
          (some { newObject addr acc with onDirty := false })
        nextRevisionId := 1 } : StateDB).Suicide addr).2 =
      { New env trie with
        stateObjects := Function.update (fun _ => none) addr
          (some { newObject addr { acc with Balance := 0 } with
            onDirty := false, suicided := true })
        journal := [.suicideChange addr false acc.Balance]
        nextRevisionId := 1 } := by
  simp [Suicide, getStateObject, newObject, StateObject.markSuicided, StateObject.fireOnDirty,
    setStateObject, New, StateDB.append]

theorem touchRevertSuicide_New (htrie : trie addr = some acc)
    (hempty : acc.Nonce = 0 ∧ acc.Balance = 0 ∧ acc.CodeHash = env.emptyCodeHash)
    (hripemd : addr ≠ ripemd) :
    touchRevertSuicide (New env trie) addr =
      some { New env trie with
        stateObjects := Function.update (fun _ => none) addr
          (some { newObject addr { acc with Balance := 0 } with
            onDirty := false, suicided := true })
        journal := [.suicideChange addr false acc.Balance]
        nextRevisionId := 1 } := by
  simp only [touchRevertSuicide]
  rw [touch_loaded_empty htrie hempty]
  have hid : (New env trie).Snapshot.1 = 0 := rfl
  rw [hid, revert_touch hripemd, Option.map_some, suicide_spent_callback]

/-- After the suicide the account's object is the only live one: it has suicided and is not
dirty, and the trie is as it was. -/
theorem touchRevertSuicide_shape (htrie : trie addr = some acc)
    (hempty : acc.Nonce = 0 ∧ acc.Balance = 0 ∧ acc.CodeHash = env.emptyCodeHash)
    (hripemd : addr ≠ ripemd) :
    ∃ s o, touchRevertSuicide (New env trie) addr = some s ∧ s.trie = trie ∧
      s.stateObjectsDirty = [] ∧ s.stateObjects = Function.update (fun _ => none) addr (some o) ∧
      o.address = addr ∧ o.suicided = true :=
  ⟨_, _, touchRevertSuicide_New htrie hempty hripemd, rfl, rfl, rfl, rfl, rfl⟩

/-- After the credit the account's object is the only live one: it holds the credit and is
not dirty, and the trie is as it was. -/
theorem touchRevertCredit_shape (htrie : trie addr = some acc)
    (hempty : acc.Nonce = 0 ∧ acc.Balance = 0 ∧ acc.CodeHash = env.emptyCodeHash)
    (hripemd : addr ≠ ripemd) {amount : Int} (hamount : amount ≠ 0) :
    ∃ s o, touchRevertCredit (New env trie) addr amount = some s ∧ s.trie = trie ∧
      s.stateObjectsDirty = [] ∧ s.stateObjects = Function.update (fun _ => none) addr (some o) ∧
      o.address = addr ∧ o.suicided = false ∧ o.deleted = false ∧ o.data.Balance = amount := by
  refine ⟨_, _, touchRevertCredit_New htrie hempty hripemd hamount, rfl, rfl, rfl, rfl, rfl, rfl, ?_⟩
  simp [newObject, hempty.2.1]

end Run

/-! ### One object of the walk -/

section Walk

variable {s : StateDB} {addr : Address} {o : StateObject}

/-- A suicided object leaves the trie, dirty or not. -/
theorem commitObject_suicided (h : s.stateObjects addr = some o) (hsu : o.suicided = true)
    (d : Bool) : (commitObject d s addr).trie = Function.update s.trie o.address none := by
  simp [commitObject, h, hsu, deleteStateObject, setStateObject]

/-- A clean object that has not suicided is left as it is. -/
theorem commitObject_clean (h : s.stateObjects addr = some o) (hsu : o.suicided = false)
    (hclean : addr ∉ s.stateObjectsDirty) (d : Bool) :
    commitObject d s addr = { s with stateObjectsDirty := s.stateObjectsDirty.erase addr } := by
  simp [commitObject, h, hsu, hclean]

/-- With nothing dirty, `IntermediateRoot` is the hash of the trie as it is. -/
theorem IntermediateRoot_of_clean {H : Type} (root : (Address → Option Account) → H)
    (h : s.stateObjectsDirty = []) (d : Bool) :
    s.IntermediateRoot root d = some (root s.trie, s.clearJournalAndRefund) := by
  simp [IntermediateRoot, Finalise, h, clearJournalAndRefund]

end Walk

/-! ### When the two agree

Each walk writes the trie at its own addresses only: `Finalise` at the dirty ones, `CommitTo`
at the live ones.  What they write at an address depends on its object and on whether it is
dirty (`finaliseEntry`, `commitEntry`), so the order of either walk does not matter
(`LocalStep.foldl`), and the two tries agree when the dirty set is exact: every dirty address
has a live object, and every suicided object is dirty. -/

/-- What a walk reads at an address: the environment, the live object, and whether the
address is dirty. -/
def walkRead (s : StateDB) (a : Address) : Env × Option StateObject × Bool :=
  (s.db, s.stateObjects a, decide (a ∈ s.stateObjectsDirty))

/-- What `Finalise` writes to the trie at a dirty address. -/
def finaliseEntry (d : Bool) (x : Env × Option StateObject × Bool) (t : Option Account) :
    Option Account :=
  match x.2.1 with
  | none => t
  | some o => if o.suicided || (d && o.empty x.1) then none else some o.updateRoot.data

/-- What `CommitTo` writes to the trie at a live address. -/
def commitEntry (d : Bool) (x : Env × Option StateObject × Bool) (t : Option Account) :
    Option Account :=
  match x.2.1 with
  | none => t
  | some o =>
      if o.suicided || (x.2.2 && d && o.empty x.1) then none
      else if x.2.2 then some o.updateRoot.data else t

/-- The step of `CommitTo` at an address whose object (if any) sits there. -/
theorem commitObject_local (d : Bool) :
    LocalStep walkRead (fun s a => s.trie a)
      (fun a x => ∀ o, x.2.1 = some o → o.address = a) (fun _ => commitEntry d)
      (commitObject d) := by
  intro s a hok
  rcases ho : s.stateObjects a with _ | o
  · simp [commitObject, ho, commitEntry, walkRead]
  · have haddr : o.address = a := hok o (by simp [walkRead, ho])
    unfold commitObject
    rw [ho]
    dsimp only
    split_ifs with h1 h2 <;>
      simp_all +contextual [commitEntry, walkRead, deleteStateObject, setStateObject,
        updateStateObject, StateObject.updateRoot, Function.update_of_ne, List.mem_erase_of_ne]

/-- The step of `Finalise` at an address with an object that sits there. -/
theorem finaliseObject_local (d : Bool) :
    LocalStepM walkRead (fun s a => s.trie a)
      (fun a x => ∃ o, x.2.1 = some o ∧ o.address = a) (fun _ => finaliseEntry d)
      (finaliseObject d) := by
  intro s a hok
  obtain ⟨o, ho, haddr⟩ := hok
  simp only [walkRead] at ho
  unfold finaliseObject
  rw [ho]
  dsimp only
  split_ifs with h1 <;>
    simp_all +contextual [finaliseEntry, walkRead, deleteStateObject, setStateObject,
      updateStateObject, StateObject.updateRoot, Function.update_of_ne]

/-- **`IntermediateRoot` and `CommitTo` agree on an exact dirty set.**  If every live object
sits under its own address, every dirty address has a live object and every suicided live
object is dirty, then `CommitTo` returns the root `IntermediateRoot` returns, whatever the
order of its walk over the live objects. -/
theorem IntermediateRoot_eq_CommitTo {H : Type} (root : (Address → Option Account) → H)
    {s : StateDB} (hs : s.Addressed) (hnodup : s.stateObjectsDirty.Nodup)
    (hlive : ∀ a ∈ s.stateObjectsDirty, (s.stateObjects a).isSome)
    (hsuicided : ∀ a o, s.stateObjects a = some o → o.suicided = true → a ∈ s.stateObjectsDirty)
    (order : List Address) (hnd : order.Nodup)
    (horder : ∀ a, a ∈ order ↔ (s.stateObjects a).isSome) (d : Bool) :
    (s.IntermediateRoot root d).map Prod.fst = some (s.CommitTo root order d).1 := by
  -- `Finalise` walks the dirty addresses, each with a live object
  obtain ⟨s', hfin, hfinal⟩ := (finaliseObject_local d).foldlM hnodup s fun a ha => by
    obtain ⟨o, ho⟩ := Option.isSome_iff_exists.mp (hlive a ha)
    exact ⟨o, ho, hs a o ho⟩
  have hcommit := (commitObject_local d).foldl hnd s fun a _ o ho => hs a o ho
  simp only [IntermediateRoot, Finalise, hfin, Option.map_some, clearJournalAndRefund, CommitTo]
  congr 2
  funext b
  rw [hfinal b, hcommit b]
  by_cases hb : b ∈ s.stateObjectsDirty
  · -- a dirty address: both walks write its object back, or both delete it
    obtain ⟨o, ho⟩ := Option.isSome_iff_exists.mp (hlive b hb)
    have hbo : b ∈ order := (horder b).mpr (by simp [ho])
    simp [hb, hbo, finaliseEntry, commitEntry, walkRead, ho]
  · by_cases hbo : b ∈ order
    · -- a clean live object has not suicided, and `CommitTo` leaves it out
      obtain ⟨o, ho⟩ := Option.isSome_iff_exists.mp ((horder b).mp hbo)
      have hsu : o.suicided = false := by
        cases h : o.suicided
        · rfl
        · exact absurd (hsuicided b o ho h) hb
      simp [hb, hbo, commitEntry, walkRead, ho, hsu]
    · simp [hb, hbo]

/-- **`CommitTo` and `IntermediateRoot` disagree after a reverted touch.**  From a fresh
`StateDB` over an account trie holding an empty account `addr` (other than `ripemd`), touch
the account inside a snapshot and revert the snapshot.  If the account then suicides, its
object is the only live one and is not dirty: `IntermediateRoot` keeps the account in the
trie and `CommitTo` deletes it, so under an injective trie hash the two roots differ, also
when `CommitTo` follows `IntermediateRoot`.  If the account is credited instead, `CommitTo`
does not write the credit: the committed state reports it, and the state reopened from the
committed trie does not. -/
theorem CommitTo_reverted_touch {H : Type} (root : (Address → Option Account) → H)
    (hroot : Function.Injective root) (env : Env) (trie : Address → Option Account)
    (addr : Address) (acc : Account) (htrie : trie addr = some acc)
    (hempty : acc.Nonce = 0 ∧ acc.Balance = 0 ∧ acc.CodeHash = env.emptyCodeHash)
    (hripemd : addr ≠ ripemd) (amount : Int) (hamount : amount ≠ 0) (d : Bool) :
    (∃ s r s1, touchRevertSuicide (New env trie) addr = some s ∧
      (∀ a, (s.stateObjects a).isSome ↔ a ∈ [addr]) ∧
      s.IntermediateRoot root d = some (r, s1) ∧
      (s.CommitTo root [addr] d).1 ≠ r ∧ (s1.CommitTo root [addr] d).1 ≠ r) ∧
    (∃ s, touchRevertCredit (New env trie) addr amount = some s ∧
      (∀ a, (s.stateObjects a).isSome ↔ a ∈ [addr]) ∧
      ((s.CommitTo root [addr] d).2.GetBalance addr).1 = amount ∧
      ((New env (s.CommitTo root [addr] d).2.trie).GetBalance addr).1 = 0) := by
  -- the trie without the account hashes differently from the trie with it
  have hdel : root (Function.update trie addr none) ≠ root trie := by
    intro heq
    have hat := congrFun (hroot heq) addr
    rw [Function.update_self, htrie] at hat
    cases hat
  have hlive : ∀ (o : StateObject) (a : Address),
      ((Function.update (fun _ => none) addr (some o) a).isSome ↔ a ∈ [addr]) := by
    intro o a
    by_cases ha : a = addr <;> simp [ha]
  constructor
  · -- the suicide: `IntermediateRoot` keeps the account, `CommitTo` deletes it
    obtain ⟨s, o, hrun, hstrie, hclean, hobjs, haddr, hsu⟩ :=
      touchRevertSuicide_shape htrie hempty hripemd
    have ho : s.stateObjects addr = some o := by rw [hobjs, Function.update_self]
    -- `CommitTo` over the one live object deletes it from the trie
    have hcommit : ∀ s' : StateDB, s'.stateObjects = s.stateObjects → s'.trie = trie →
        (s'.CommitTo root [addr] d).1 ≠ root trie := by
      intro s' hobjs' htrie'
      rw [CommitTo, List.foldl_cons, List.foldl_nil,
        commitObject_suicided (hobjs' ▸ ho) hsu, htrie', haddr]
      exact hdel
    refine ⟨s, root trie, s.clearJournalAndRefund, hrun, fun a => hobjs ▸ hlive o a, ?_,
      hcommit s rfl hstrie, hcommit _ rfl hstrie⟩
    rw [IntermediateRoot_of_clean root hclean d, hstrie]
  · -- the credit: `CommitTo` leaves the clean object out of the trie
    obtain ⟨s, o, hrun, hstrie, hclean, hobjs, haddr, hsu, hdeleted, hbal⟩ :=
      touchRevertCredit_shape htrie hempty hripemd hamount
    have ho : s.stateObjects addr = some o := by rw [hobjs, Function.update_self]
    have hcommit : (s.CommitTo root [addr] d).2 =
        { s with stateObjectsDirty := [] }.clearJournalAndRefund := by
      rw [CommitTo, List.foldl_cons, List.foldl_nil,
        commitObject_clean ho hsu (by simp [hclean]), hclean, List.erase_nil]
    refine ⟨s, hrun, fun a => hobjs ▸ hlive o a, ?_, ?_⟩
    · rw [hcommit, ← hbal]
      exact GetBalance_of_live ho hdeleted
    · rw [hcommit]
      simp [GetBalance, getStateObject, clearJournalAndRefund, New, hstrie, htrie, newObject,
        hempty.2.1]

/-- The two runs at the account `1` of a one-account trie, with the account trie itself as
its hash. -/
theorem CommitTo_reverted_touch_one :
    (∃ s r s1, touchRevertSuicide (New zeroEnv oneAccountTrie) 1 = some s ∧
      (∀ a, (s.stateObjects a).isSome ↔ a ∈ [1]) ∧
      s.IntermediateRoot id false = some (r, s1) ∧
      (s.CommitTo id [1] false).1 ≠ r ∧ (s1.CommitTo id [1] false).1 ≠ r) ∧
    (∃ s, touchRevertCredit (New zeroEnv oneAccountTrie) 1 5 = some s ∧
      (∀ a, (s.stateObjects a).isSome ↔ a ∈ [1]) ∧
      ((s.CommitTo id [1] false).2.GetBalance 1).1 = 5 ∧
      ((New zeroEnv (s.CommitTo id [1] false).2.trie).GetBalance 1).1 = 0) :=
  CommitTo_reverted_touch id Function.injective_id zeroEnv oneAccountTrie 1 zeroAccount rfl
    ⟨rfl, rfl, rfl⟩ (by decide) 5 (by decide) false

end State
end Ethcore
