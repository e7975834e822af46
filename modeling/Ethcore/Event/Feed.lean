import Mathlib
import Ethcore.Lib.InPlace

/-!
# One-to-many subscriptions: `event/feed.go`

A `Feed` delivers each value sent to it to every subscribed channel.  Its state is shared by
the goroutines that call `Subscribe`, `Send` and `Unsubscribe` on it and is guarded by two
locks: `sendLock`, a channel with a one-element buffer whose token a goroutine takes to own
`sendCases`, and the mutex `mu`, which guards `inbox` and `etype`.

The model is a system of threads over one feed (`World`).  Each call is a thread whose
program counter (`Pc`) stops at each synchronisation point of the source: `once.Do`, the two
locks and the `select`s.  A step (`Step`) runs one thread from one point to the next, or
hands a channel from a `remove` to a `Send` over `removeSub`.  A critical section is one step,
since no other thread touches what its lock guards.  Which subscribed channel is ready to
receive is the environment's choice: a `Send` in its loop may deliver to any active case,
which covers both the `TrySend` fast path and the `select` of the source.
-/

namespace Ethcore
namespace Event

open InPlace

/-! ### The feed -/

/-- `reflect.ChanDir`. -/
inductive ChanDir where
  | RecvDir
  | SendDir
  | BothDir
  deriving DecidableEq, Repr

/-- `dir & reflect.SendDir != 0`: values can be sent on a channel of this direction. -/
def ChanDir.canSend : ChanDir → Bool
  | .RecvDir => false
  | .SendDir | .BothDir => true

/-- The `reflect.Type`s in the feed's panics: the type of a value, or a channel type; `none`
is the `nil` type. -/
inductive GoType (Ty : Type) where
  | type (t : Option Ty)
  | chanOf (dir : ChanDir) (elem : Option Ty)
  deriving DecidableEq, Repr

/-- The argument of `Subscribe`: a channel with its direction and element type, or a value of
another kind. -/
inductive SubArg (Chan Ty : Type) where
  | chan (ch : Chan) (dir : ChanDir) (elem : Ty)
  | other
  deriving DecidableEq, Repr

/-- A `reflect.SelectCase` of `sendCases` or `inbox`: the receive from `removeSub`, which is
`sendCases[0]`, or a send to a subscribed channel. -/
inductive SelectCase (Chan : Type) where
  | removeSub
  | send (ch : Chan)
  deriving DecidableEq, Repr

/-- The channel of a send case. -/
def SelectCase.chan? {Chan : Type} : SelectCase Chan → Option Chan
  | .removeSub => none
  | .send ch => some ch

/-- `caseList`. -/
abbrev caseList (Chan : Type) := List (SelectCase Chan)

/-- `firstSubSendCase`: the index of the first subscription in `sendCases`. -/
def firstSubSendCase : Nat := 1

/-- What a call of the feed panics with: `errBadChannel`, a `feedTypeError` with its
operation, the type it got and the one it wanted, or the runtime error of a slice
expression out of range. -/
inductive PanicValue (Ty : Type) where
  | errBadChannel
  | feedTypeError (op : String) (got want : GoType Ty)
  | sliceBoundsOutOfRange
  deriving DecidableEq, Repr

/-- `Feed`: the `sync.Once` as whether `init` has run, the buffer of `sendLock` as whether it
holds the token, and `mu` as whether it is locked.  `removeSub` is the case `sendCases[0]`;
`closed` is never read or set in this file. -/
structure Feed (Chan Ty : Type) where
  once : Bool
  sendLock : Bool
  sendCases : caseList Chan
  mu : Bool
  inbox : caseList Chan
  etype : Option Ty
  deriving DecidableEq, Repr

namespace Feed

variable {Chan Ty : Type}

/-- The zero value of `Feed`, ready to use. -/
def zero : Feed Chan Ty := ⟨false, false, [], false, [], none⟩

/-- `init`: make `removeSub` and `sendLock`, put the token in `sendLock`, and start
`sendCases` with the receive from `removeSub`. -/
def init (f : Feed Chan Ty) : Feed Chan Ty :=
  { f with sendLock := true, sendCases := [.removeSub] }

/-- `f.once.Do(f.init)`. -/
def onceDo (f : Feed Chan Ty) : Feed Chan Ty :=
  if f.once then f else { f.init with once := true }

@[simp] theorem onceDo_mu (f : Feed Chan Ty) : f.onceDo.mu = f.mu := by
  unfold onceDo init
  split <;> rfl

@[simp] theorem onceDo_once (f : Feed Chan Ty) : f.onceDo.once = true := by
  unfold onceDo
  split <;> simp_all

@[simp] theorem onceDo_inbox (f : Feed Chan Ty) : f.onceDo.inbox = f.inbox := by
  unfold onceDo init
  split <;> rfl

/-- `init` runs once: after it the token is in the buffer and `sendCases` holds the receive
from `removeSub` only. -/
theorem onceDo_of_once_eq_false {f : Feed Chan Ty} (h : f.once = false) :
    f.onceDo.sendLock = true ∧ f.onceDo.sendCases = [.removeSub] := by
  simp [onceDo, init, h]

theorem onceDo_of_once {f : Feed Chan Ty} (h : f.once = true) : f.onceDo = f := by
  simp [onceDo, h]

/-- `typecheck`: the first type checked becomes the feed's; later ones must be equal to it. -/
def typecheck [DecidableEq Ty] (f : Feed Chan Ty) (typ : Ty) : Bool × Feed Chan Ty :=
  match f.etype with
  | none => (true, { f with etype := some typ })
  | some etype => (decide (etype = typ), f)

end Feed

namespace caseList

variable {Chan : Type}

/-- `find`: the index of the first case on `channel`, or `-1`. -/
def find [DecidableEq Chan] (cs : caseList Chan) (channel : Chan) : Int :=
  match cs.idxOf? (.send channel) with
  | some i => i
  | none => -1

/-- `delete`: `append(cs[:index], cs[index+1:]...)`, which panics (`none`) unless `index` is
an index of `cs`. -/
def delete (cs : caseList Chan) (index : Int) : Option (caseList Chan) :=
  if 0 ≤ index ∧ index < cs.length then some (cs.eraseIdx index.toNat) else none

/-- `deactivate` on the slice `cases` of the first `n` cases of the backing list `cs`:
exchange case `index` with the last of the slice and shrink the slice by one.  The backing
list and the new length. -/
def deactivate (cs : caseList Chan) (n index : Nat) : caseList Chan × Nat :=
  (swapAt cs index (n - 1), n - 1)

/-- The channels of the send cases. -/
def chans (cs : caseList Chan) : Multiset Chan := (cs.filterMap SelectCase.chan? : List Chan)

end caseList

/-! ### The calls as threads -/

/-- What a call returned. -/
inductive Ret where
  | subscribed
  | sent (nsent : Nat)
  | unsubscribed
  deriving DecidableEq, Repr

/-- Where a goroutine is in its call of the feed. -/
inductive Pc (Chan Ty Val : Type) where
  /-- `Subscribe(arg)`, at `f.once.Do(f.init)` and the check of the argument. -/
  | subscribe (arg : SubArg Chan Ty)
  /-- At `f.mu.Lock()`. -/
  | subscribeLock (ch : Chan) (dir : ChanDir) (elem : Ty)
  /-- Holding `f.mu`: the type check and the append to the inbox. -/
  | subscribeCheck (ch : Chan) (dir : ChanDir) (elem : Ty)
  /-- `Send(value)`, at `f.once.Do(f.init)`. -/
  | send (value : Val)
  /-- At `<-f.sendLock`. -/
  | sendAcquire (value : Val)
  /-- Holding the send lock, at `f.mu.Lock()`. -/
  | sendLockMu (value : Val)
  /-- Holding both: the move of the inbox and the type check. -/
  | sendCheck (value : Val)
  /-- In the delivery loop: `cases` is the first `n` cases of `sendCases`, `nsent` the
  deliveries made. -/
  | sending (value : Val) (n nsent : Nat)
  /-- `Unsubscribe` of a subscription to `ch`, in `remove` at `f.mu.Lock()`. -/
  | remove (ch : Chan)
  /-- Holding `f.mu`: the search of the inbox. -/
  | removeFind (ch : Chan)
  /-- At the `select` between `f.removeSub <- ch` and `<-f.sendLock`. -/
  | removeSelect (ch : Chan)
  /-- Holding the send lock: the delete from `sendCases`. -/
  | removeDelete (ch : Chan)
  /-- The call returned. -/
  | returned (r : Ret)
  /-- The call panicked with `p`, holding `f.mu` if `mu` and the send lock if `sendLock`: a
  panic releases only what a deferred call releases. -/
  | panicked (p : PanicValue Ty) (mu sendLock : Bool)
  deriving DecidableEq, Repr

/-- A `Send`'s delivery of `value` to `ch`, and a `Send`'s receive of `ch` from `removeSub`;
`sender` is the thread of the `Send`. -/
inductive ChanOp (Chan Val : Type) where
  | delivered (sender : Nat) (ch : Chan) (value : Val)
  | removed (sender : Nat) (ch : Chan)
  deriving DecidableEq, Repr

/-- The feed with the calls in progress or made on it. -/
structure World (Chan Ty Val : Type) where
  feed : Feed Chan Ty
  threads : List (Pc Chan Ty Val)
  /-- The channels of the subscriptions `Subscribe` returned that no `Unsubscribe` was
  called on. -/
  subs : List Chan
  /-- The deliveries and the receives from `removeSub`, in order. -/
  log : List (ChanOp Chan Val)

section Steps

variable {Chan Ty Val : Type} [DecidableEq Chan] [DecidableEq Ty] (typeOf : Val → Ty)

/-- The start of `Subscribe`: after `f.once.Do(f.init)`, the check that the argument is a
channel values can be sent on. -/
def subscribeStart (arg : SubArg Chan Ty) : Pc Chan Ty Val :=
  match arg with
  | .chan ch dir elem =>
    if dir.canSend then .subscribeLock ch dir elem else .panicked .errBadChannel false false
  | .other => .panicked .errBadChannel false false

namespace Feed

/-- The critical section of `Subscribe`: the type check, then the case goes to the inbox.  The
deferred `f.mu.Unlock()` runs on the panic too. -/
def subscribeCheck (f : Feed Chan Ty) (ch : Chan) (dir : ChanDir) (elem : Ty) :
    Pc Chan Ty Val × Feed Chan Ty :=
  match f.typecheck elem with
  | (true, f) => (.returned .subscribed, { f with inbox := f.inbox ++ [.send ch], mu := false })
  | (false, f) =>
    (.panicked (.feedTypeError "Subscribe" (.chanOf dir (some elem)) (.chanOf .SendDir f.etype))
      false false, { f with mu := false })

/-- The critical section of `Send`: the inbox moves to `sendCases`, then the type check.  On a
wrong type the token goes back to `sendLock` before the panic, and nothing unlocks `f.mu`. -/
def sendCheck (f : Feed Chan Ty) (value : Val) : Pc Chan Ty Val × Feed Chan Ty :=
  let f := { f with sendCases := f.sendCases ++ f.inbox, inbox := [] }
  match f.typecheck (typeOf value) with
  | (true, f) => (.sending value f.sendCases.length 0, { f with mu := false })
  | (false, f) =>
    (.panicked (.feedTypeError "Send" (.type (some (typeOf value))) (.type f.etype)) true false,
      { f with sendLock := true })

/-- The critical section of `remove`: a case still in the inbox is deleted there; otherwise
the thread goes on to the `select`. -/
def removeFind (f : Feed Chan Ty) (ch : Chan) : Pc Chan Ty Val × Feed Chan Ty :=
  let index := f.inbox.find ch
  if index ≠ -1 then
    match f.inbox.delete index with
    | some inbox => (.returned .unsubscribed, { f with inbox := inbox, mu := false })
    | none => (.panicked .sliceBoundsOutOfRange true false, f)
  else (.removeSelect ch, { f with mu := false })

/-- The second case of `remove`'s `select`, holding the send lock: the case is deleted from
`sendCases` and the token goes back. -/
def removeDelete (f : Feed Chan Ty) (ch : Chan) : Pc Chan Ty Val × Feed Chan Ty :=
  match f.sendCases.delete (f.sendCases.find ch) with
  | some cs => (.returned .unsubscribed, { f with sendCases := cs, sendLock := true })
  | none => (.panicked .sliceBoundsOutOfRange false true, f)

/-- `Send`'s branch `chosen == 0`, having received `ch` from `removeSub`: its case is deleted
from `sendCases`, and `cases` shrinks by one if the case was still active.  `none` when the
delete panics. -/
def removeSubCase (f : Feed Chan Ty) (n : Nat) (ch : Chan) : Option (Feed Chan Ty × Nat) :=
  let index := f.sendCases.find ch
  (f.sendCases.delete index).map fun cs =>
    ({ f with sendCases := cs }, if 0 ≤ index ∧ index < n then n - 1 else n)

end Feed

namespace World

/-- No call made yet, on the zero `Feed`. -/
def zero : World Chan Ty Val := ⟨Feed.zero, [], [], []⟩

/-- A goroutine makes a call: a new thread at `pc`. -/
def call (w : World Chan Ty Val) (pc : Pc Chan Ty Val) : World Chan Ty Val :=
  { w with threads := w.threads ++ [pc] }

/-- Thread `t` moves to `pc`, and the feed is now `f`. -/
def move (w : World Chan Ty Val) (t : Nat) (pc : Pc Chan Ty Val) (f : Feed Chan Ty) :
    World Chan Ty Val :=
  { w with feed := f, threads := w.threads.set t pc }

end World

/-- One step of one thread, or of a `remove` and a `Send` meeting on `removeSub`. -/
inductive Step : World Chan Ty Val → World Chan Ty Val → Prop
  /-- A goroutine calls `Subscribe(arg)`. -/
  | callSubscribe (w : World Chan Ty Val) (arg : SubArg Chan Ty) :
      Step w (w.call (.subscribe arg))
  /-- A goroutine calls `Send(value)`. -/
  | callSend (w : World Chan Ty Val) (value : Val) : Step w (w.call (.send value))
  /-- A goroutine calls `Unsubscribe` on a subscription to `ch` that `Subscribe` returned and
  that no `Unsubscribe` was called on. -/
  | callUnsubscribe (w : World Chan Ty Val) {ch : Chan} (h : ch ∈ w.subs) :
      Step w { w.call (.remove ch) with subs := w.subs.erase ch }
  | subscribe {w : World Chan Ty Val} {t : Nat} {arg : SubArg Chan Ty}
      (h : w.threads[t]? = some (.subscribe arg)) :
      Step w (w.move t (subscribeStart arg) w.feed.onceDo)
  | subscribeLock {w : World Chan Ty Val} {t : Nat} {ch : Chan} {dir : ChanDir} {elem : Ty}
      (h : w.threads[t]? = some (.subscribeLock ch dir elem)) (hmu : w.feed.mu = false) :
      Step w (w.move t (.subscribeCheck ch dir elem) { w.feed with mu := true })
  /-- The critical section of `Subscribe`; the subscription it returns when the type check
  passes is the caller's. -/
  | subscribeCheck {w : World Chan Ty Val} {t : Nat} {ch : Chan} {dir : ChanDir} {elem : Ty}
      {pc : Pc Chan Ty Val} {f : Feed Chan Ty}
      (h : w.threads[t]? = some (.subscribeCheck ch dir elem))
      (hf : w.feed.subscribeCheck ch dir elem = (pc, f)) :
      Step w { w.move t pc f with
        subs := if (w.feed.typecheck elem).1 then w.subs ++ [ch] else w.subs }
  | send {w : World Chan Ty Val} {t : Nat} {value : Val}
      (h : w.threads[t]? = some (.send value)) :
      Step w (w.move t (.sendAcquire value) w.feed.onceDo)
  | sendAcquire {w : World Chan Ty Val} {t : Nat} {value : Val}
      (h : w.threads[t]? = some (.sendAcquire value)) (hlock : w.feed.sendLock = true) :
      Step w (w.move t (.sendLockMu value) { w.feed with sendLock := false })
  | sendLockMu {w : World Chan Ty Val} {t : Nat} {value : Val}
      (h : w.threads[t]? = some (.sendLockMu value)) (hmu : w.feed.mu = false) :
      Step w (w.move t (.sendCheck value) { w.feed with mu := true })
  | sendCheck {w : World Chan Ty Val} {t : Nat} {value : Val} {pc : Pc Chan Ty Val}
      {f : Feed Chan Ty} (h : w.threads[t]? = some (.sendCheck value))
      (hf : w.feed.sendCheck typeOf value = (pc, f)) :
      Step w (w.move t pc f)
  /-- The channel of active case `i` receives the value: `TrySend` succeeded, or the `select`
  chose the case. -/
  | deliver {w : World Chan Ty Val} {t : Nat} {value : Val} {n nsent i : Nat} {ch : Chan}
      (h : w.threads[t]? = some (.sending value n nsent)) (hi : firstSubSendCase ≤ i)
      (hin : i < n) (hc : w.feed.sendCases[i]? = some (.send ch)) :
      Step w { w.move t (.sending value (w.feed.sendCases.deactivate n i).2 (nsent + 1))
          { w.feed with sendCases := (w.feed.sendCases.deactivate n i).1 } with
        log := w.log ++ [.delivered t ch value] }
  /-- `len(cases) == firstSubSendCase`: the loop ends and the token goes back. -/
  | finish {w : World Chan Ty Val} {t : Nat} {value : Val} {nsent : Nat}
      (h : w.threads[t]? = some (.sending value firstSubSendCase nsent)) :
      Step w (w.move t (.returned (.sent nsent)) { w.feed with sendLock := true })
  /-- The `select` of a `Send` and that of a `remove` meet on `removeSub`. -/
  | removeSub {w : World Chan Ty Val} {t j : Nat} {value : Val} {n nsent n' : Nat} {ch : Chan}
      {f : Feed Chan Ty} (h : w.threads[t]? = some (.sending value n nsent))
      (hn : n ≠ firstSubSendCase) (hj : w.threads[j]? = some (.removeSelect ch))
      (hf : w.feed.removeSubCase n ch = some (f, n')) :
      Step w { w with feed := f
                      threads := (w.threads.set t (.sending value n' nsent)).set j
                        (.returned .unsubscribed)
                      log := w.log ++ [.removed t ch] }
  /-- The same, when the delete of `Send` panics. -/
  | removeSubPanic {w : World Chan Ty Val} {t j : Nat} {value : Val} {n nsent : Nat} {ch : Chan}
      (h : w.threads[t]? = some (.sending value n nsent))
      (hn : n ≠ firstSubSendCase) (hj : w.threads[j]? = some (.removeSelect ch))
      (hf : w.feed.removeSubCase n ch = none) :
      Step w { w with threads := (w.threads.set t (.panicked .sliceBoundsOutOfRange false true)).set
                        j (.returned .unsubscribed)
                      log := w.log ++ [.removed t ch] }
  | remove {w : World Chan Ty Val} {t : Nat} {ch : Chan}
      (h : w.threads[t]? = some (.remove ch)) (hmu : w.feed.mu = false) :
      Step w (w.move t (.removeFind ch) { w.feed with mu := true })
  | removeFind {w : World Chan Ty Val} {t : Nat} {ch : Chan} {pc : Pc Chan Ty Val}
      {f : Feed Chan Ty} (h : w.threads[t]? = some (.removeFind ch))
      (hf : w.feed.removeFind ch = (pc, f)) :
      Step w (w.move t pc f)
  /-- The `select` of `remove` takes the token of `sendLock`: no `Send` is in progress. -/
  | removeTakeLock {w : World Chan Ty Val} {t : Nat} {ch : Chan}
      (h : w.threads[t]? = some (.removeSelect ch)) (hlock : w.feed.sendLock = true) :
      Step w (w.move t (.removeDelete ch) { w.feed with sendLock := false })
  | removeDelete {w : World Chan Ty Val} {t : Nat} {ch : Chan} {pc : Pc Chan Ty Val}
      {f : Feed Chan Ty} (h : w.threads[t]? = some (.removeDelete ch))
      (hf : w.feed.removeDelete ch = (pc, f)) :
      Step w (w.move t pc f)

/-- The worlds a run of calls reaches from the zero `Feed`, in any interleaving. -/
def Reachable (w : World Chan Ty Val) : Prop :=
  Relation.ReflTransGen (Step typeOf) World.zero w

end Steps

/-! ### What each block does -/

namespace Pc

variable {Chan Ty Val : Type}

/-- The thread holds the send lock: it took the token from `sendLock` and has not put it
back. -/
def holdsSendLock : Pc Chan Ty Val → Bool
  | .sendLockMu _ | .sendCheck _ | .sending .. | .removeDelete _ => true
  | .panicked _ _ sendLock => sendLock
  | _ => false

/-- The thread holds `f.mu`. -/
def holdsMu : Pc Chan Ty Val → Bool
  | .subscribeCheck .. | .sendCheck _ | .removeFind _ => true
  | .panicked _ mu _ => mu
  | _ => false

/-- The thread is in a critical section of `f.mu`, which ends by unlocking it. -/
def inMuSection : Pc Chan Ty Val → Bool
  | .subscribeCheck .. | .sendCheck _ | .removeFind _ => true
  | _ => false

/-- The call has not got past its `f.mu.Lock()`: it has not reached it, or waits at it, or
panicked on its argument before it. -/
def beforeMu : Pc Chan Ty Val → Bool
  | .subscribe _ | .subscribeLock .. | .send _ | .sendAcquire _ | .sendLockMu _ | .remove _ => true
  | .panicked .errBadChannel _ _ => true
  | _ => false

end Pc

section Blocks

variable {Chan Ty Val : Type} [DecidableEq Ty] {typeOf : Val → Ty}

namespace Feed

theorem subscribeCheck_spec {f f' : Feed Chan Ty} {ch : Chan} {dir : ChanDir} {elem : Ty}
    {pc : Pc Chan Ty Val} (hf : f.subscribeCheck ch dir elem = (pc, f')) :
    f'.once = f.once ∧ f'.sendLock = f.sendLock ∧ f'.sendCases = f.sendCases ∧
      f'.mu = false ∧
      if (f.typecheck elem).1 then pc = .returned .subscribed ∧ f'.inbox = f.inbox ++ [.send ch]
      else (∃ got want, pc = .panicked (.feedTypeError "Subscribe" got want) false false) ∧
        f'.inbox = f.inbox := by
  unfold subscribeCheck typecheck at hf
  unfold typecheck
  cases he : f.etype with
  | none =>
    simp only [he] at hf
    cases hf
    simp
  | some etype =>
    simp only [he] at hf
    by_cases heq : etype = elem
    · simp only [heq, decide_true] at hf
      cases hf
      simp [heq]
    · simp only [heq, decide_false] at hf
      cases hf
      simp [heq]

theorem sendCheck_spec {f f' : Feed Chan Ty} {value : Val} {pc : Pc Chan Ty Val}
    (hf : f.sendCheck typeOf value = (pc, f')) :
    f'.once = f.once ∧ f'.sendCases = f.sendCases ++ f.inbox ∧ f'.inbox = [] ∧
      ((pc = .sending value (f.sendCases ++ f.inbox).length 0 ∧ f'.mu = false ∧
          f'.sendLock = f.sendLock) ∨
        (∃ got want, pc = .panicked (.feedTypeError "Send" got want) true false ∧ f'.mu = f.mu ∧
          f'.sendLock = true)) := by
  unfold sendCheck typecheck at hf
  dsimp only at hf
  cases he : f.etype with
  | none =>
    simp only [he] at hf
    cases hf
    simp
  | some etype =>
    simp only [he] at hf
    by_cases heq : etype = typeOf value
    · simp only [heq, decide_true] at hf
      cases hf
      simp
    · simp only [heq, decide_false] at hf
      cases hf
      simp

end Feed

end Blocks

section CaseBlocks

variable {Chan Ty Val : Type} [DecidableEq Chan]

namespace caseList

/-- On a channel with a case, `find` returns the index of its first case, in range, and
`delete` there erases that case. -/
theorem find_of_mem {cs : caseList Chan} {ch : Chan} (h : .send ch ∈ cs) :
    ∃ i, i < cs.length ∧ cs[i]? = some (.send ch) ∧ cs.find ch = i ∧
      cs.delete (cs.find ch) = some (cs.eraseIdx i) ∧ cs.eraseIdx i = cs.erase (.send ch) := by
  obtain ⟨i, hidx⟩ : ∃ i, cs.idxOf? (.send ch) = some i :=
    Option.ne_none_iff_exists'.mp (mt List.idxOf?_eq_none_iff.mp (not_not.mpr h))
  obtain ⟨hi, hget, _⟩ := List.idxOf?_eq_some_iff.mp hidx
  have hfind : cs.find ch = i := by simp [find, hidx]
  refine ⟨i, hi, List.getElem?_eq_some_iff.mpr ⟨hi, hget⟩, hfind, ?_, ?_⟩
  · simp [hfind, delete, hi]
  · simp [List.erase_eq_eraseIdx, hidx]

/-- On a channel without a case, `find` returns `-1` and `delete` there panics. -/
theorem find_of_not_mem {cs : caseList Chan} {ch : Chan} (h : .send ch ∉ cs) :
    cs.find ch = -1 ∧ cs.delete (cs.find ch) = none := by
  have hfind : cs.find ch = -1 := by simp [find, List.idxOf?_eq_none_iff.mpr h]
  exact ⟨hfind, by simp [hfind, delete]⟩

end caseList

namespace Feed

/-- `remove`'s critical section never panics: it deletes the first case on `ch` from the
inbox, or finds none there and goes on to the `select`. -/
theorem removeFind_spec {f f' : Feed Chan Ty} {ch : Chan} {pc : Pc Chan Ty Val}
    (hf : f.removeFind ch = (pc, f')) :
    f'.once = f.once ∧ f'.sendLock = f.sendLock ∧ f'.sendCases = f.sendCases ∧ f'.mu = false ∧
      ((.send ch ∈ f.inbox ∧ pc = .returned .unsubscribed ∧ f'.inbox = f.inbox.erase (.send ch)) ∨
        (.send ch ∉ f.inbox ∧ pc = .removeSelect ch ∧ f'.inbox = f.inbox)) := by
  unfold removeFind at hf
  by_cases hmem : .send ch ∈ f.inbox
  · obtain ⟨i, _, _, hfind, hdel, herase⟩ := caseList.find_of_mem hmem
    have hne : (f.inbox.find ch) ≠ -1 := by omega
    simp only [hne, ne_eq, not_false_eq_true, if_true, hdel] at hf
    cases hf
    simp [hmem, herase]
  · obtain ⟨hfind, _⟩ := caseList.find_of_not_mem hmem
    simp only [hfind, ne_eq, not_true_eq_false, if_false] at hf
    cases hf
    simp [hmem]

/-- The delete of `remove` holding the send lock: the first case on `ch` goes and the token
goes back, or there is none and the delete panics. -/
theorem removeDelete_spec {f f' : Feed Chan Ty} {ch : Chan} {pc : Pc Chan Ty Val}
    (hf : f.removeDelete ch = (pc, f')) :
    (.send ch ∈ f.sendCases ∧ pc = .returned .unsubscribed ∧
        f' = { f with sendCases := f.sendCases.erase (.send ch), sendLock := true }) ∨
      (.send ch ∉ f.sendCases ∧ pc = .panicked .sliceBoundsOutOfRange false true ∧ f' = f) := by
  unfold removeDelete at hf
  by_cases hmem : .send ch ∈ f.sendCases
  · obtain ⟨i, _, _, _, hdel, herase⟩ := caseList.find_of_mem hmem
    rw [hdel] at hf
    cases hf
    simp [hmem, herase]
  · obtain ⟨_, hdel⟩ := caseList.find_of_not_mem hmem
    rw [hdel] at hf
    cases hf
    simp [hmem]

/-- `Send`'s delete on a receive from `removeSub`: the first case on `ch` goes, at index `i`,
and `cases` shrinks when `i` was in it. -/
theorem removeSubCase_spec {f f' : Feed Chan Ty} {n n' : Nat} {ch : Chan}
    (hf : f.removeSubCase n ch = some (f', n')) :
    ∃ i, i < f.sendCases.length ∧ f.sendCases[i]? = some (.send ch) ∧
      f.sendCases.eraseIdx i = f.sendCases.erase (.send ch) ∧
      f' = { f with sendCases := f.sendCases.eraseIdx i } ∧
      n' = if i < n then n - 1 else n := by
  unfold removeSubCase at hf
  by_cases hmem : .send ch ∈ f.sendCases
  · obtain ⟨i, hi, hget, hfind, hdel, herase⟩ := caseList.find_of_mem hmem
    simp only [hdel, Option.map_some, Option.some.injEq, Prod.mk.injEq] at hf
    obtain ⟨rfl, rfl⟩ := hf
    refine ⟨i, hi, hget, herase, rfl, ?_⟩
    simp [hfind]
  · obtain ⟨_, hdel⟩ := caseList.find_of_not_mem hmem
    simp [hdel] at hf

theorem removeSubCase_eq_none {f : Feed Chan Ty} {n : Nat} {ch : Chan} :
    f.removeSubCase n ch = none ↔ .send ch ∉ f.sendCases := by
  unfold removeSubCase
  by_cases hmem : .send ch ∈ f.sendCases
  · obtain ⟨i, _, _, _, hdel, _⟩ := caseList.find_of_mem hmem
    simp [hdel, hmem]
  · obtain ⟨_, hdel⟩ := caseList.find_of_not_mem hmem
    simp [hdel, hmem]

end Feed

end CaseBlocks

/-! ### The locks over every run -/

section Counting

variable {Chan Ty Val : Type}

namespace World

@[simp] theorem move_feed (w : World Chan Ty Val) (t : Nat) (pc : Pc Chan Ty Val)
    (f : Feed Chan Ty) : (w.move t pc f).feed = f := rfl

@[simp] theorem move_threads (w : World Chan Ty Val) (t : Nat) (pc : Pc Chan Ty Val)
    (f : Feed Chan Ty) : (w.move t pc f).threads = w.threads.set t pc := rfl

@[simp] theorem move_subs (w : World Chan Ty Val) (t : Nat) (pc : Pc Chan Ty Val)
    (f : Feed Chan Ty) : (w.move t pc f).subs = w.subs := rfl

@[simp] theorem move_log (w : World Chan Ty Val) (t : Nat) (pc : Pc Chan Ty Val)
    (f : Feed Chan Ty) : (w.move t pc f).log = w.log := rfl

@[simp] theorem call_feed (w : World Chan Ty Val) (pc : Pc Chan Ty Val) :
    (w.call pc).feed = w.feed := rfl

@[simp] theorem call_threads (w : World Chan Ty Val) (pc : Pc Chan Ty Val) :
    (w.call pc).threads = w.threads ++ [pc] := rfl

@[simp] theorem call_subs (w : World Chan Ty Val) (pc : Pc Chan Ty Val) :
    (w.call pc).subs = w.subs := rfl

@[simp] theorem call_log (w : World Chan Ty Val) (pc : Pc Chan Ty Val) :
    (w.call pc).log = w.log := rfl

theorem countP_move (p : Pc Chan Ty Val → Bool) {w : World Chan Ty Val} {t : Nat}
    {old : Pc Chan Ty Val} (h : w.threads[t]? = some old) (pc : Pc Chan Ty Val)
    (f : Feed Chan Ty) :
    (w.move t pc f).threads.countP p + (p old).toNat =
      w.threads.countP p + (p pc).toNat :=
  countP_set_add p h pc

@[simp] theorem countP_call (p : Pc Chan Ty Val → Bool) (w : World Chan Ty Val)
    (pc : Pc Chan Ty Val) :
    (w.call pc).threads.countP p = w.threads.countP p + (p pc).toNat := by
  simp only [call, List.countP_append, List.countP_singleton]
  cases p pc <;> rfl

/-- The `Send` and the `remove` that meet on `removeSub` are two threads. -/
theorem ne_of_removeSub {w : World Chan Ty Val} {t j : Nat} {value : Val} {n nsent : Nat}
    {ch : Chan} (h : w.threads[t]? = some (.sending value n nsent))
    (hj : w.threads[j]? = some (.removeSelect ch)) : t ≠ j := by
  rintro rfl
  rw [h] at hj
  cases hj

/-- Moving the `Send` at `t` and then the `remove` at `j` changes a count by what each left
and entered. -/
theorem countP_set_set (p : Pc Chan Ty Val → Bool) {w : World Chan Ty Val} {t j : Nat}
    {a b : Pc Chan Ty Val} (ht : w.threads[t]? = some a) (hj : w.threads[j]? = some b)
    (htj : t ≠ j) (a' b' : Pc Chan Ty Val) :
    ((w.threads.set t a').set j b').countP p + (p a).toNat + (p b).toNat =
      w.threads.countP p + (p a').toNat + (p b').toNat := by
  have hj' : (w.threads.set t a')[j]? = some b := by
    rw [getElem?_set_of_getElem? ht, if_neg htj, hj]
  have h1 := countP_set_add p ht a'
  have h2 := countP_set_add p hj' b'
  omega

end World

/-- The two locks of the feed. -/
structure Locks (w : World Chan Ty Val) : Prop where
  /-- Once `init` made it, the token of `sendLock` is in its buffer or with one thread. -/
  token : w.feed.sendLock.toNat + w.threads.countP Pc.holdsSendLock = w.feed.once.toNat
  /-- `f.mu` is locked exactly when one thread holds it. -/
  mu : w.feed.mu.toNat = w.threads.countP Pc.holdsMu

theorem Locks.zero : Locks (World.zero : World Chan Ty Val) := by
  constructor <;> rfl

/-- A step of one thread keeps the locks when the token and the mutex balance: what the
feed and the thread give up is what they take. -/
theorem Locks.move {w : World Chan Ty Val} (hl : Locks w) {t : Nat} {old : Pc Chan Ty Val}
    (h : w.threads[t]? = some old) {pc : Pc Chan Ty Val} {f : Feed Chan Ty}
    (htok : f.sendLock.toNat + pc.holdsSendLock.toNat + w.feed.once.toNat =
      w.feed.sendLock.toNat + old.holdsSendLock.toNat + f.once.toNat)
    (hmu : f.mu.toNat + old.holdsMu.toNat = w.feed.mu.toNat + pc.holdsMu.toNat) :
    Locks (w.move t pc f) := by
  have h1 := World.countP_move Pc.holdsSendLock h pc f
  have h2 := World.countP_move Pc.holdsMu h pc f
  obtain ⟨ht, hm⟩ := hl
  constructor
  · simp only [World.move_feed]
    omega
  · simp only [World.move_feed]
    omega

/-- A thread that holds the send lock is the only one, and the token is not in the buffer. -/
theorem Locks.holder {w : World Chan Ty Val} (hl : Locks w) {t : Nat} {pc : Pc Chan Ty Val}
    (h : w.threads[t]? = some pc) (hpc : pc.holdsSendLock = true) :
    w.feed.once = true ∧ w.feed.sendLock = false ∧
      ∀ t' pc', w.threads[t']? = some pc' → pc'.holdsSendLock = true → t' = t := by
  have hpos : 0 < w.threads.countP Pc.holdsSendLock :=
    List.countP_pos_iff.mpr ⟨pc, List.mem_of_getElem? h, hpc⟩
  have htok := hl.token
  have hle : w.feed.once.toNat ≤ 1 := Bool.toNat_le _
  refine ⟨?_, ?_, ?_⟩
  · cases ho : w.feed.once
    · rw [ho, Bool.toNat_false] at htok
      omega
    · rfl
  · cases hs : w.feed.sendLock
    · rfl
    · rw [hs, Bool.toNat_true] at htok
      omega
  · intro t' pc' h' hpc'
    by_contra hne
    have := two_le_countP Pc.holdsSendLock h' h hne hpc' hpc
    omega

theorem subscribeStart_holds (arg : SubArg Chan Ty) :
    (subscribeStart arg : Pc Chan Ty Val).holdsSendLock = false ∧
      (subscribeStart arg : Pc Chan Ty Val).holdsMu = false := by
  unfold subscribeStart
  split
  · split <;> simp [Pc.holdsSendLock, Pc.holdsMu]
  · simp [Pc.holdsSendLock, Pc.holdsMu]

/-- `f.once.Do(f.init)` keeps the locks: before `init` there is no token anywhere. -/
theorem Locks.onceDo {w : World Chan Ty Val} (hl : Locks w) {t : Nat} {old pc : Pc Chan Ty Val}
    (h : w.threads[t]? = some old) (hold : old.holdsSendLock = false ∧ old.holdsMu = false)
    (hpc : pc.holdsSendLock = false ∧ pc.holdsMu = false) :
    Locks (w.move t pc w.feed.onceDo) := by
  refine hl.move h ?_ (by simp [hold.2, hpc.2])
  cases ho : w.feed.once
  · -- the token is not in the buffer yet, and `init` puts it there
    have hs : w.feed.sendLock = false := by
      have := hl.token
      rw [ho, Bool.toNat_false] at this
      cases hs : w.feed.sendLock
      · rfl
      · simp [hs] at this
    simp [Feed.onceDo_of_once_eq_false ho, hs, hold.1, hpc.1]
  · simp [Feed.onceDo_of_once ho, ho, hold.1, hpc.1]


/-- `f.mu` is locked and no thread is in a critical section that would unlock it. -/
structure MuStuck (w : World Chan Ty Val) : Prop where
  locked : w.feed.mu = true
  none_inside : ∀ pc ∈ w.threads, pc.inMuSection = false

/-- The calls that are at or before their `f.mu.Lock()` stay there. -/
def StaysBeforeMu (w w' : World Chan Ty Val) : Prop :=
  ∀ i : Nat, (w.threads[i]?).all Pc.beforeMu = true → (w'.threads[i]?).all Pc.beforeMu = true

theorem StaysBeforeMu.trans {w₁ w₂ w₃ : World Chan Ty Val} (h₁ : StaysBeforeMu w₁ w₂)
    (h₂ : StaysBeforeMu w₂ w₃) : StaysBeforeMu w₁ w₃ :=
  fun i hi => h₂ i (h₁ i hi)

/-- A step of one thread that keeps `f.mu` locked, enters no critical section and does not
move a thread past `f.mu.Lock()`. -/
theorem MuStuck.move {w : World Chan Ty Val} (hm : MuStuck w) {t : Nat} {old : Pc Chan Ty Val}
    (h : w.threads[t]? = some old) (pc : Pc Chan Ty Val) (f : Feed Chan Ty) (hmu : f.mu = true)
    (hpc : pc.inMuSection = false) (hbefore : old.beforeMu = true → pc.beforeMu = true) :
    MuStuck (w.move t pc f) ∧ StaysBeforeMu w (w.move t pc f) := by
  refine ⟨⟨hmu, fun pc' hmem => ?_⟩, fun i hi => ?_⟩
  · obtain ⟨k, hk, hget⟩ := List.getElem_of_mem hmem
    have hk' := (List.getElem?_eq_some_iff.mpr ⟨hk, hget⟩)
    simp only [World.move_threads, getElem?_set_of_getElem? h] at hk'
    split at hk'
    · cases hk'
      exact hpc
    · exact hm.none_inside pc' (List.mem_of_getElem? hk')
  · simp only [World.move_threads, getElem?_set_of_getElem? h]
    split
    · rename_i hti
      subst hti
      exact hbefore (by simpa [h] using hi)
    · exact hi

/-- A call made while `f.mu` is stuck waits before its `f.mu.Lock()`. -/
theorem MuStuck.call {w : World Chan Ty Val} (hm : MuStuck w) (pc : Pc Chan Ty Val)
    (hpc : pc.inMuSection = false) (hbefore : pc.beforeMu = true) :
    MuStuck (w.call pc) ∧ StaysBeforeMu w (w.call pc) := by
  refine ⟨⟨hm.locked, fun pc' hmem => ?_⟩, fun i hi => ?_⟩
  · rcases List.mem_append.mp hmem with hmem | hmem
    · exact hm.none_inside pc' hmem
    · rw [List.mem_singleton.mp hmem]
      exact hpc
  · simp only [World.call]
    by_cases hil : i < w.threads.length
    · rwa [List.getElem?_append_left hil]
    · rw [List.getElem?_append_right (by omega)]
      cases hk : i - w.threads.length <;> simp [hbefore]

end Counting

section Runs

variable {Chan Ty Val : Type} [DecidableEq Chan] [DecidableEq Ty] {typeOf : Val → Ty}

/-- Every step keeps the two locks. -/
theorem Locks.step {w w' : World Chan Ty Val} (hl : Locks w) (hs : Step typeOf w w') :
    Locks w' := by
  cases hs with
  | callSubscribe arg =>
    exact ⟨by simpa [World.call, List.countP_append, Pc.holdsSendLock] using hl.token,
      by simpa [World.call, List.countP_append, Pc.holdsMu] using hl.mu⟩
  | callSend value =>
    exact ⟨by simpa [World.call, List.countP_append, Pc.holdsSendLock] using hl.token,
      by simpa [World.call, List.countP_append, Pc.holdsMu] using hl.mu⟩
  | callUnsubscribe _ =>
    exact ⟨by simpa [World.call, List.countP_append, Pc.holdsSendLock] using hl.token,
      by simpa [World.call, List.countP_append, Pc.holdsMu] using hl.mu⟩
  | subscribe h =>
    exact hl.onceDo h (by simp [Pc.holdsSendLock, Pc.holdsMu]) (subscribeStart_holds _)
  | subscribeLock h hmu =>
    exact hl.move h (by simp [Pc.holdsSendLock]) (by simp [Pc.holdsMu, hmu])
  | @subscribeCheck t ch dir elem pc f h hf =>
    obtain ⟨honce, hlock, -, hmu', hpc⟩ := Feed.subscribeCheck_spec hf
    have hpc' : pc.holdsSendLock = false ∧ pc.holdsMu = false := by
      split at hpc
      · exact ⟨by simp [hpc.1, Pc.holdsSendLock], by simp [hpc.1, Pc.holdsMu]⟩
      · obtain ⟨⟨got, want, rfl⟩, -⟩ := hpc
        exact ⟨by simp [Pc.holdsSendLock], by simp [Pc.holdsMu]⟩
    -- `f.mu` was locked by this thread, and is unlocked
    have hm : w.feed.mu = true := by
      have := hl.mu
      have hpos : 0 < w.threads.countP Pc.holdsMu :=
        List.countP_pos_iff.mpr ⟨_, List.mem_of_getElem? h, rfl⟩
      cases hmu0 : w.feed.mu
      · simp [hmu0] at this
        omega
      · rfl
    have hl' : Locks (w.move t pc f) := hl.move h
      (by rw [hpc'.1]; simp [honce, hlock, Pc.holdsSendLock])
      (by rw [hpc'.2]; simp [hmu', hm, Pc.holdsMu])
    exact ⟨hl'.token, hl'.mu⟩
  | send h =>
    exact hl.onceDo h (by simp [Pc.holdsSendLock, Pc.holdsMu])
      (by simp [Pc.holdsSendLock, Pc.holdsMu])
  | sendAcquire h hlock =>
    exact hl.move h (by simp [Pc.holdsSendLock, hlock]) (by simp [Pc.holdsMu])
  | sendLockMu h hmu =>
    exact hl.move h (by simp [Pc.holdsSendLock]) (by simp [Pc.holdsMu, hmu])
  | sendCheck h hf =>
    obtain ⟨honce, -, -, hout⟩ := Feed.sendCheck_spec hf
    obtain ⟨-, hs, -⟩ := hl.holder h rfl
    have hm : w.feed.mu = true := by
      have := hl.mu
      have hpos : 0 < w.threads.countP Pc.holdsMu :=
        List.countP_pos_iff.mpr ⟨_, List.mem_of_getElem? h, rfl⟩
      cases hmu0 : w.feed.mu
      · simp [hmu0] at this
        omega
      · rfl
    rcases hout with ⟨rfl, hmu', hlock⟩ | ⟨got, want, rfl, hmu', hlock⟩
    · exact hl.move h (by simp [honce, hlock, Pc.holdsSendLock])
        (by simp [hmu', hm, Pc.holdsMu])
    · -- the token goes back before the panic; `f.mu` stays locked
      exact hl.move h (by simp [honce, hlock, hs, Pc.holdsSendLock])
        (by simp [hmu', Pc.holdsMu])
  | @deliver t value n nsent i ch h hi hin hc =>
    have hl' : Locks (w.move t (.sending value (w.feed.sendCases.deactivate n i).2 (nsent + 1))
        { w.feed with sendCases := (w.feed.sendCases.deactivate n i).1 }) :=
      hl.move h (by simp [Pc.holdsSendLock]) (by simp [Pc.holdsMu])
    exact ⟨hl'.token, hl'.mu⟩
  | finish h =>
    obtain ⟨-, hs, -⟩ := hl.holder h rfl
    exact hl.move h (by simp [Pc.holdsSendLock, hs]) (by simp [Pc.holdsMu])
  | @removeSub t j value n nsent n' ch f h hn hj hf =>
    obtain ⟨i, -, -, -, rfl, -⟩ := Feed.removeSubCase_spec hf
    have htj := World.ne_of_removeSub h hj
    have h1 := World.countP_set_set Pc.holdsSendLock h hj htj (.sending value n' nsent)
      (.returned .unsubscribed)
    have h2 := World.countP_set_set Pc.holdsMu h hj htj (.sending value n' nsent)
      (.returned .unsubscribed)
    simp only [Pc.holdsSendLock, Pc.holdsMu] at h1 h2
    have ht := hl.token
    have hm := hl.mu
    constructor
    · dsimp only
      omega
    · dsimp only
      omega
  | removeSubPanic h hn hj hf =>
    have htj := World.ne_of_removeSub h hj
    have h1 := World.countP_set_set Pc.holdsSendLock h hj htj
      (.panicked .sliceBoundsOutOfRange false true) (.returned .unsubscribed)
    have h2 := World.countP_set_set Pc.holdsMu h hj htj
      (.panicked .sliceBoundsOutOfRange false true) (.returned .unsubscribed)
    simp only [Pc.holdsSendLock, Pc.holdsMu] at h1 h2
    have ht := hl.token
    have hm := hl.mu
    constructor
    · dsimp only
      omega
    · dsimp only
      omega
  | remove h hmu =>
    exact hl.move h (by simp [Pc.holdsSendLock]) (by simp [Pc.holdsMu, hmu])
  | removeFind h hf =>
    obtain ⟨honce, hlock, -, hmu', hout⟩ := Feed.removeFind_spec hf
    have hm : w.feed.mu = true := by
      have := hl.mu
      have hpos : 0 < w.threads.countP Pc.holdsMu :=
        List.countP_pos_iff.mpr ⟨_, List.mem_of_getElem? h, rfl⟩
      cases hmu0 : w.feed.mu
      · simp [hmu0] at this
        omega
      · rfl
    rcases hout with ⟨-, rfl, -⟩ | ⟨-, rfl, -⟩
    · exact hl.move h (by simp [honce, hlock, Pc.holdsSendLock])
        (by simp [hmu', hm, Pc.holdsMu])
    · exact hl.move h (by simp [honce, hlock, Pc.holdsSendLock])
        (by simp [hmu', hm, Pc.holdsMu])
  | removeTakeLock h hlock =>
    exact hl.move h (by simp [Pc.holdsSendLock, hlock]) (by simp [Pc.holdsMu])
  | removeDelete h hf =>
    obtain ⟨-, hs, -⟩ := hl.holder h rfl
    rcases Feed.removeDelete_spec hf with ⟨-, rfl, rfl⟩ | ⟨-, rfl, rfl⟩
    · exact hl.move h (by simp [Pc.holdsSendLock, hs]) (by simp [Pc.holdsMu])
    · exact hl.move h (by simp [Pc.holdsSendLock]) (by simp [Pc.holdsMu])

/-- In every world a run reaches, the two locks hold. -/
theorem Reachable.locks {w : World Chan Ty Val} (hr : Reachable typeOf w) : Locks w := by
  -- induction on the run, one step at a time
  induction hr with
  | refl => exact Locks.zero
  | tail _ hs ih => exact ih.step hs

/-! ### A `Send` of the wrong type locks the feed for good -/

/-- Every step from a stuck mutex keeps it stuck: no thread can take `f.mu`, and none can
unlock it. -/
theorem MuStuck.step {w w' : World Chan Ty Val} (hm : MuStuck w) (hs : Step typeOf w w') :
    MuStuck w' ∧ StaysBeforeMu w w' := by
  have inside : ∀ {t : Nat} {pc : Pc Chan Ty Val}, w.threads[t]? = some pc →
      pc.inMuSection = false :=
    fun h => hm.none_inside _ (List.mem_of_getElem? h)
  cases hs with
  | callSubscribe arg => exact hm.call _ rfl rfl
  | callSend value => exact hm.call _ rfl rfl
  | @callUnsubscribe ch _ =>
    have := hm.call (.remove ch) rfl rfl
    exact ⟨⟨this.1.locked, this.1.none_inside⟩, this.2⟩
  | subscribe h =>
    refine hm.move h _ _ (by simp [hm.locked]) ?_ (fun _ => ?_) <;> unfold subscribeStart <;>
      split <;> (try split) <;> rfl
  | subscribeLock h hmu => simp [hm.locked] at hmu
  | subscribeCheck h hf => exact absurd (inside h) (by simp [Pc.inMuSection])
  | send h => exact hm.move h _ _ (by simp [hm.locked]) rfl (fun _ => rfl)
  | sendAcquire h hlock => exact hm.move h _ _ hm.locked rfl (fun _ => rfl)
  | sendLockMu h hmu => simp [hm.locked] at hmu
  | sendCheck h hf => exact absurd (inside h) (by simp [Pc.inMuSection])
  | @deliver t value n nsent i ch h hi hin hc =>
    have := hm.move h (.sending value (w.feed.sendCases.deactivate n i).2 (nsent + 1))
      { w.feed with sendCases := (w.feed.sendCases.deactivate n i).1 } hm.locked rfl
      (by simp [Pc.beforeMu])
    exact ⟨⟨this.1.locked, this.1.none_inside⟩, this.2⟩
  | finish h => exact hm.move h _ _ hm.locked rfl (by simp [Pc.beforeMu])
  | @removeSub t j value n nsent n' ch f h hn hj hf =>
    obtain ⟨i, -, -, -, rfl, -⟩ := Feed.removeSubCase_spec hf
    have htj := World.ne_of_removeSub h hj
    have hj' : (w.threads.set t (.sending value n' nsent))[j]? = some (.removeSelect ch) := by
      rw [getElem?_set_of_getElem? h, if_neg htj, hj]
    have h₁ := hm.move h (.sending value n' nsent)
      { w.feed with sendCases := w.feed.sendCases.eraseIdx i } hm.locked rfl
      (by simp [Pc.beforeMu])
    have h₂ := h₁.1.move hj' (.returned .unsubscribed)
      { w.feed with sendCases := w.feed.sendCases.eraseIdx i } hm.locked rfl
      (by simp [Pc.beforeMu])
    exact ⟨⟨h₂.1.locked, h₂.1.none_inside⟩, h₁.2.trans h₂.2⟩
  | @removeSubPanic t j value n nsent ch h hn hj hf =>
    have htj := World.ne_of_removeSub h hj
    have hj' : (w.threads.set t (.panicked .sliceBoundsOutOfRange false true))[j]? =
        some (.removeSelect ch) := by
      rw [getElem?_set_of_getElem? h, if_neg htj, hj]
    have h₁ := hm.move h (.panicked .sliceBoundsOutOfRange false true) w.feed hm.locked rfl
      (by simp [Pc.beforeMu])
    have h₂ := h₁.1.move hj' (.returned .unsubscribed) w.feed hm.locked rfl
      (by simp [Pc.beforeMu])
    exact ⟨⟨h₂.1.locked, h₂.1.none_inside⟩, h₁.2.trans h₂.2⟩
  | remove h hmu => simp [hm.locked] at hmu
  | removeFind h hf => exact absurd (inside h) (by simp [Pc.inMuSection])
  | removeTakeLock h hlock => exact hm.move h _ _ hm.locked rfl (by simp [Pc.beforeMu])
  | removeDelete h hf =>
    rcases Feed.removeDelete_spec hf with ⟨-, rfl, rfl⟩ | ⟨-, rfl, rfl⟩
    · exact hm.move h _ _ hm.locked rfl (by simp [Pc.beforeMu])
    · exact hm.move h _ _ hm.locked rfl (by simp [Pc.beforeMu])

/-- ... and so does every run. -/
theorem MuStuck.run {w w' : World Chan Ty Val} (hm : MuStuck w)
    (hrun : Relation.ReflTransGen (Step typeOf) w w') : MuStuck w' ∧ StaysBeforeMu w w' := by
  induction hrun with
  | refl => exact ⟨hm, fun _ hi => hi⟩
  | tail _ hs ih =>
    have := ih.1.step hs
    exact ⟨this.1, ih.2.trans this.2⟩

/-- A `Send` whose value is not of the feed's element type panics with `feedTypeError`, and
from then on, in every run, `f.mu` stays locked and every call that had not got past its
`f.mu.Lock()`, and every call made later, never does: no later `Subscribe`, `Send` or
`Unsubscribe` returns. -/
theorem Send_wrong_type_locks_feed {w w' : World Chan Ty Val} (hr : Reachable typeOf w)
    {t : Nat} {value : Val} {ety : Ty} (h : w.threads[t]? = some (.sendCheck value))
    (hety : w.feed.etype = some ety) (hne : ety ≠ typeOf value)
    (hrun : Relation.ReflTransGen (Step typeOf)
      (w.move t (w.feed.sendCheck typeOf value).1 (w.feed.sendCheck typeOf value).2) w') :
    (w.feed.sendCheck typeOf value).1 =
        .panicked (.feedTypeError "Send" (.type (some (typeOf value))) (.type (some ety)))
          true false ∧
      w'.feed.mu = true ∧ StaysBeforeMu w w' := by
  have hl := hr.locks
  -- the `Send` holds `f.mu`: it is locked, and no other thread is in a critical section
  have hpos : 0 < w.threads.countP Pc.holdsMu :=
    List.countP_pos_iff.mpr ⟨_, List.mem_of_getElem? h, rfl⟩
  have hmu : w.feed.mu = true := by
    have := hl.mu
    cases hmu0 : w.feed.mu
    · simp [hmu0] at this
      omega
    · rfl
  have hothers : ∀ k pc, w.threads[k]? = some pc → pc.inMuSection = true → k = t := by
    intro k pc hk hin
    by_contra hne
    have hmuk : pc.holdsMu = true := by
      cases pc <;> simp_all [Pc.inMuSection, Pc.holdsMu]
    have := two_le_countP Pc.holdsMu hk h hne hmuk rfl
    have := hl.mu
    have := Bool.toNat_le w.feed.mu
    omega
  -- the type check fails: the token goes back, and `f.mu` stays locked
  obtain ⟨hpc, hmu₁⟩ : (w.feed.sendCheck typeOf value).1 =
        .panicked (.feedTypeError "Send" (.type (some (typeOf value))) (.type (some ety)))
          true false ∧
      (w.feed.sendCheck typeOf value).2.mu = w.feed.mu := by
    simp [Feed.sendCheck, Feed.typecheck, hety, hne]
  have hstuck : MuStuck (w.move t (w.feed.sendCheck typeOf value).1
      (w.feed.sendCheck typeOf value).2) := by
    refine ⟨by rw [World.move_feed, hmu₁, hmu], fun pc hmem => ?_⟩
    obtain ⟨k, hk, hget⟩ := List.getElem_of_mem hmem
    have hk' := List.getElem?_eq_some_iff.mpr ⟨hk, hget⟩
    simp only [World.move_threads, getElem?_set_of_getElem? h] at hk'
    split at hk'
    · cases hk'
      rw [hpc]
      rfl
    · rename_i hkt
      cases hin : pc.inMuSection
      · rfl
      · exact absurd (hothers k pc hk' hin).symm hkt
  obtain ⟨hm', hstay⟩ := hstuck.run hrun
  refine ⟨hpc, hm'.locked, fun i hi => hstay i ?_⟩
  -- the `Send` itself was past its `f.mu.Lock()`; the other threads did not move
  simp only [World.move_threads, getElem?_set_of_getElem? h]
  split
  · rename_i hti
    subst hti
    simp [h, Pc.beforeMu] at hi
  · exact hi

/-- A feed of values that are pairs of a type and a payload, with one subscription to channel
`0` of element type `0`, and a `Send` of a value of type `1` holding both locks. -/
def wrongTypeSend : World Nat Nat (Nat × Nat) :=
  ⟨⟨true, false, [.removeSub], true, [.send 0], some 0⟩,
    [.returned .subscribed, .sendCheck (1, 7)], [0], []⟩

theorem wrongTypeSend_reachable : Reachable Prod.fst wrongTypeSend :=
  .tail (.tail (.tail (.tail (.tail (.tail (.tail (.tail .refl
    (Step.callSubscribe _ (.chan 0 .BothDir 0)))
    (Step.subscribe (t := 0) rfl))
    (Step.subscribeLock (t := 0) rfl rfl))
    (Step.subscribeCheck (t := 0) rfl rfl))
    (Step.callSend _ (1, 7)))
    (Step.send (t := 1) rfl))
    (Step.sendAcquire (t := 1) rfl rfl))
    (Step.sendLockMu (t := 1) rfl rfl)

/-- After the `Send` panicked, a second `Subscribe` waits at `f.mu.Lock()`. -/
def blockedSubscribe : World Nat Nat (Nat × Nat) :=
  ⟨⟨true, true, [.removeSub, .send 0], true, [], some 0⟩,
    [.returned .subscribed,
      .panicked (.feedTypeError "Send" (.type (some 1)) (.type (some 0))) true false,
      .subscribeLock 1 .BothDir 0], [0], []⟩

theorem Send_wrong_type_locks_feed_blockedSubscribe :
    (wrongTypeSend.feed.sendCheck Prod.fst (1, 7)).1 =
        .panicked (.feedTypeError "Send" (.type (some 1)) (.type (some 0))) true false ∧
      blockedSubscribe.feed.mu = true ∧ StaysBeforeMu wrongTypeSend blockedSubscribe :=
  Send_wrong_type_locks_feed wrongTypeSend_reachable (t := 1) rfl rfl (by decide)
    (.tail (.tail .refl (Step.callSubscribe _ (.chan 1 .BothDir 0)))
      (@Step.subscribe _ _ _ _ _ Prod.fst _ 2 (.chan 1 .BothDir 0) rfl))

end Runs

end Event
end Ethcore
