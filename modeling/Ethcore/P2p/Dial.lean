import Ethcore.Discover.Table
import Ethcore.Lib.SliceHeap
import Ethcore.Lib.Entries
import Mathlib.Logic.Relation

/-!
# The dial scheduler: `dial.go`

`dialstate` decides, each time `Server.run` asks through `newTasks`, which nodes to dial and
whether to start a discovery lookup, and learns through `taskDone` when a task has finished.
It keeps the dials in progress in `dialing`, the static nodes to keep connected in `static`, the
results of the last lookup not yet tried in `lookupBuf`, and the nodes dialed lately in `hist`,
a heap by expiry that `expire` trims on every call.  `newTasks` spends a budget of dynamic dials,
`maxDynDials` less the dynamic connections and dials there are, on random nodes of the table
(for half of it) and on lookup results; static dials are outside the budget.

A run of the scheduler is a sequence of its calls, with the tasks returned and not yet done
kept beside it (`Step`, `Reachable`).  Every reachable state keeps `Inv`: `dialing` holds one
entry for each dial in progress, with its flags, and a lookup is running exactly when one
lookup task is out (`Reachable.inv`).  Each call of `newTasks` from such a state dials no ID
twice and none that is being dialed, connected or dialed lately, stays within the budget, and
waits, when it has nothing to do, for a time that is not negative (`Inv.newTasks_spec`).
-/

namespace Ethcore
namespace P2p

open Discover (Node)

/-- `connFlag`: the bits of a connection's kind. -/
abbrev connFlag := Nat

/-- `dynDialedConn`. -/
def dynDialedConn : connFlag := 1

/-- `staticDialedConn`. -/
def staticDialedConn : connFlag := 2

/-- `f&g != 0`: whether flags `f` have a bit of `g`, as `conn.is` tests a connection. -/
def is (f g : connFlag) : Bool := f &&& g != 0

/-- `dialHistoryExpiration`, 30 seconds in nanoseconds. -/
def dialHistoryExpiration : Int := 30 * 1000000000

/-- `pastDial`: a node dialed lately and when that stops counting. -/
structure pastDial where
  id : Bytes
  exp : Int

/-- `dialTask`, with the fields the scheduler reads. -/
structure dialTask where
  flags : connFlag
  dest : Node

/-- `task`: the three kinds `newTasks` returns. -/
inductive task where
  /-- `*dialTask`. -/
  | dial (t : dialTask)
  /-- `*discoverTask`, with the results its lookup found. -/
  | discover (results : List Node)
  /-- `waitExpireTask`, with its duration. -/
  | waitExpire (d : Int)

/-- `dialstate`, with the fields `newTasks` and `taskDone` use. -/
structure dialstate where
  maxDynDials : Int
  lookupRunning : Bool
  dialing : List (Bytes × connFlag)
  lookupBuf : List Node
  static : List (Bytes × dialTask)
  hist : List pastDial

/-! ### The dial history -/

namespace dialHistory

/-- `dialHistory.Less`: the earlier expiry first. -/
def Less (a b : pastDial) : Bool := decide (a.exp < b.exp)

/-- `add`: `heap.Push`. -/
def add (h : List pastDial) (id : Bytes) (exp : Int) : List pastDial :=
  SliceHeap.Push Less h ⟨id, exp⟩

/-- `contains`. -/
def contains (h : List pastDial) (id : Bytes) : Bool := h.any fun v => v.id == id

/-- The loop of `expire`: `heap.Pop` while the earliest expiry, `min()`, is before `now`.  Each
round pops an entry, so as many rounds as entries are enough. -/
def expireLoop (now : Int) : Nat → List pastDial → List pastDial
  | 0, h => h
  | rounds + 1, h =>
    match h with
    | [] => h
    | m :: _ =>
      if m.exp < now then
        match SliceHeap.Pop Less h with
        | some (_, h') => expireLoop now rounds h'
        | none => h
      else h

/-- One round of `expire`. -/
theorem expireLoop_succ (now : Int) (rounds : Nat) (h : List pastDial) :
    expireLoop now (rounds + 1) h =
      match h with
      | [] => h
      | m :: _ =>
        if m.exp < now then
          match SliceHeap.Pop Less h with
          | some (_, h') => expireLoop now rounds h'
          | none => h
        else h :=
  rfl

/-- `expire`. -/
def expire (h : List pastDial) (now : Int) : List pastDial := expireLoop now h.length h

end dialHistory

/-! ### Calls of the scheduler -/

namespace dialstate

/-- `addStatic`: a new static dial task for `n`, overwriting the one of its ID. -/
def addStatic (s : dialstate) (n : Node) : dialstate :=
  { s with static := Entries.put n.ID ⟨staticDialedConn, n⟩ s.static }

/-- `newDialState`, with the fields the model keeps. -/
def newDialState (static : List Node) (maxdyn : Int) : dialstate :=
  static.foldl addStatic ⟨maxdyn, false, [], [], [], []⟩

/-- What `newTasks` has built so far: the dialing map and the new tasks. -/
structure building where
  dialing : List (Bytes × connFlag)
  newtasks : List task

/-- `isDialing`: being dialed, connected, or dialed lately. -/
def isDialing (dialing peers : List (Bytes × connFlag)) (hist : List pastDial) (id : Bytes) :
    Bool :=
  (dialing.lookup id).isSome || (peers.lookup id).isSome || dialHistory.contains hist id

/-- `addDial`: a dial of `n` with `flag`, unless `n` is being dialed already. -/
def addDial (peers : List (Bytes × connFlag)) (hist : List pastDial) (flag : connFlag)
    (n : Node) (b : building) : Bool × building :=
  if isDialing b.dialing peers hist n.ID then (false, b)
  else (true, ⟨Entries.put n.ID flag b.dialing, b.newtasks ++ [.dial ⟨flag, n⟩]⟩)

/-- One round of the static loop: the static task of `id`, unless it is being dialed. -/
def staticStep (peers : List (Bytes × connFlag)) (hist : List pastDial) (b : building)
    (e : Bytes × dialTask) : building :=
  if !isDialing b.dialing peers hist e.1 then
    ⟨Entries.put e.1 e.2.flags b.dialing, b.newtasks ++ [.dial e.2]⟩
  else b

/-- One round of a dynamic loop: a dynamic dial of `n`, one fewer needed if it is made. -/
def dynStep (peers : List (Bytes × connFlag)) (hist : List pastDial) (acc : Int × building)
    (n : Node) : Int × building :=
  let r := addDial peers hist dynDialedConn n acc.2
  (if r.1 then acc.1 - 1 else acc.1, r.2)

/-- The lookup loop: dynamic dials from the lookup results while dials are needed, returning
the results not tried, `lookupBuf[i:]`. -/
def lookupLoop (peers : List (Bytes × connFlag)) (hist : List pastDial) :
    List Node → Int × building → List Node × Int × building
  | [], acc => ([], acc)
  | n :: rest, acc =>
    if 0 < acc.1 then lookupLoop peers hist rest (dynStep peers hist acc n) else (n :: rest, acc)

/-- `newTasks(nRunning, peers, now)`.  `peers` gives each peer's ID with the flags of its
connection, and `read` the nodes `ReadRandomNodes` writes to the front of `randomNodes`. -/
def newTasks (s : dialstate) (nRunning : Int) (peers : List (Bytes × connFlag)) (now : Int)
    (read : List Node) : List task × dialstate :=
  let needDynDials : Int := s.maxDynDials - peers.countP (fun p => is p.2 dynDialedConn) -
    s.dialing.countP (fun e => is e.2 dynDialedConn)
  let hist := dialHistory.expire s.hist now
  let b := s.static.foldl (staticStep peers hist) ⟨s.dialing, []⟩
  let randomCandidates := needDynDials.tdiv 2
  let acc := if 0 < randomCandidates then
      (read.take randomCandidates.toNat).foldl (dynStep peers hist) (needDynDials, b)
    else (needDynDials, b)
  let r := lookupLoop peers hist s.lookupBuf acc
  let lookupBuf := r.1
  let needDynDials := r.2.1
  let b := r.2.2
  -- a lookup, if more candidates are needed and none is running
  let launch := decide ((lookupBuf.length : Int) < needDynDials) && !s.lookupRunning
  let newtasks := if launch then b.newtasks ++ [.discover []] else b.newtasks
  -- a wait for the next expiry, if there is nothing else to do
  let newtasks :=
    match hist with
    | m :: _ => if nRunning = 0 ∧ newtasks = [] then newtasks ++ [.waitExpire (m.exp - now)]
      else newtasks
    | [] => newtasks
  (newtasks, { s with
    dialing := b.dialing
    lookupBuf := lookupBuf
    lookupRunning := s.lookupRunning || launch
    hist := hist })

/-- `taskDone(t, now)`. -/
def taskDone (s : dialstate) (t : task) (now : Int) : dialstate :=
  match t with
  | .dial t => { s with
      hist := dialHistory.add s.hist t.dest.ID (now + dialHistoryExpiration)
      dialing := Entries.delete t.dest.ID s.dialing }
  | .discover results => { s with lookupRunning := false, lookupBuf := s.lookupBuf ++ results }
  | .waitExpire _ => s

end dialstate

/-! ### What `expire` leaves -/

namespace dialHistory

theorem strictWeak_Less : SliceHeap.StrictWeak Less where
  asymm a b h := by
    simp only [Less, decide_eq_true_eq, decide_eq_false_iff_not] at h ⊢
    exact Int.lt_asymm h
  trans a b c hab hbc := by
    simp only [Less, decide_eq_true_eq] at hab hbc ⊢
    exact Int.lt_trans hab hbc
  not_trans a b c hab hbc := by
    simp only [Less, decide_eq_false_iff_not, Int.not_lt] at hab hbc ⊢
    exact Int.le_trans hbc hab

/-- The entry `heap.Pop` takes from a heap expires no later than any other. -/
theorem Pop_first {h h' : List pastDial} {x : pastDial} (hh : SliceHeap.IsHeap Less h)
    (hp : SliceHeap.Pop Less h = some (x, h')) :
    (x :: h').Perm h ∧ SliceHeap.IsHeap Less h' ∧ ∀ y ∈ h, x.exp ≤ y.exp := by
  have hne : h ≠ [] := fun hnil => by
    rw [← SliceHeap.Pop_eq_none_iff, hp] at hnil
    exact Option.some_ne_none _ hnil
  obtain ⟨x', h'', hp', hperm, hheap, hmax⟩ := SliceHeap.Pop_spec strictWeak_Less hh hne
  rw [hp, Option.some.injEq, Prod.mk.injEq] at hp'
  obtain ⟨rfl, rfl⟩ := hp'
  refine ⟨hperm, hheap, fun y hy => ?_⟩
  have hyx := hmax y hy
  rw [Less, decide_eq_false_iff_not] at hyx
  exact Int.not_lt.mp hyx

variable {now : Int}

theorem expireLoop_heap (rounds : Nat) {h : List pastDial} (hh : SliceHeap.IsHeap Less h) :
    SliceHeap.IsHeap Less (expireLoop now rounds h) := by
  induction rounds generalizing h with
  | zero => exact hh
  | succ rounds ih =>
    rw [expireLoop_succ]
    split
    · exact hh
    · split
      · split
        · next h' _ hp => exact ih (Pop_first hh hp).2.1
        · exact hh
      · exact hh

/-- `expire` keeps every entry that has not expired. -/
theorem mem_expireLoop (rounds : Nat) {h : List pastDial} (hh : SliceHeap.IsHeap Less h)
    {e : pastDial} (he : e ∈ h) (hexp : ¬ e.exp < now) : e ∈ expireLoop now rounds h := by
  induction rounds generalizing h with
  | zero => exact he
  | succ rounds ih =>
    rw [expireLoop_succ]
    split
    · exact he
    · next m t =>
      split
      · next hm =>
        split
        · next x h' hp =>
          -- the popped entry expires no later than the earliest, so before `now`
          obtain ⟨hperm, hheap, hmin⟩ := Pop_first hh hp
          have hx : x.exp < now := Int.lt_of_le_of_lt (hmin m List.mem_cons_self) hm
          rcases List.mem_cons.mp (hperm.symm.subset he) with rfl | he'
          · exact absurd hx hexp
          · exact ih hheap he'
        · exact he
      · exact he

/-- After `expire`, with as many rounds as entries, the earliest entry has not expired. -/
theorem expireLoop_min (rounds : Nat) {h : List pastDial} (hh : SliceHeap.IsHeap Less h)
    (hr : h.length ≤ rounds) {m : pastDial} {t : List pastDial}
    (he : expireLoop now rounds h = m :: t) : ¬ m.exp < now := by
  induction rounds generalizing h with
  | zero =>
    rw [Nat.le_zero, List.length_eq_zero_iff] at hr
    subst hr
    exact absurd he (List.cons_ne_nil m t).symm
  | succ rounds ih =>
    rw [expireLoop_succ] at he
    split at he
    · exact absurd he (List.cons_ne_nil m t).symm
    · next m' t' =>
      split at he
      · split at he
        · next x h' hp =>
          obtain ⟨hperm, hheap, -⟩ := Pop_first hh hp
          have hlen : h'.length ≤ rounds := by
            have := hperm.length_eq
            rw [List.length_cons, List.length_cons] at this
            rw [List.length_cons] at hr
            omega
          exact ih hheap hlen he
        · -- a heap of an entry or more pops
          next _ hp =>
          rw [SliceHeap.Pop_eq_none_iff] at hp
          exact absurd hp (List.cons_ne_nil _ _)
      · next hm =>
        rw [List.cons.injEq] at he
        rw [← he.1]
        exact hm

theorem expire_heap {h : List pastDial} (hh : SliceHeap.IsHeap Less h) :
    SliceHeap.IsHeap Less (expire h now) :=
  expireLoop_heap _ hh

theorem mem_expire {h : List pastDial} (hh : SliceHeap.IsHeap Less h) {e : pastDial}
    (he : e ∈ h) (hexp : ¬ e.exp < now) : e ∈ expire h now :=
  mem_expireLoop _ hh he hexp

theorem expire_min {h : List pastDial} (hh : SliceHeap.IsHeap Less h) {m : pastDial}
    {t : List pastDial} (he : expire h now = m :: t) : ¬ m.exp < now :=
  expireLoop_min _ hh (Nat.le_refl _) he

/-- An ID the history after `expire` does not contain was not dialed lately: every entry of
it has expired. -/
theorem expired_of_not_contains {h : List pastDial} (hh : SliceHeap.IsHeap Less h)
    {id : Bytes} (hc : contains (expire h now) id = false) : ∀ e ∈ h, e.id = id → e.exp < now := by
  intro e he heid
  by_contra hexp
  have hmem := mem_expire hh he hexp
  rw [contains, List.any_eq_false] at hc
  exact hc e hmem (beq_iff_eq.mpr heid)

end dialHistory

/-! ### Dials among tasks -/

/-- Each dial among tasks, as the ID of its destination with its flags. -/
def dialEntries (ts : List task) : List (Bytes × connFlag) :=
  ts.filterMap fun
    | .dial t => some (t.dest.ID, t.flags)
    | _ => none

/-- How many lookups are among tasks. -/
def lookups (ts : List task) : Nat :=
  ts.countP fun
    | .discover _ => true
    | _ => false

/-- How many entries of a dialing map, or of a set of peers, are dynamic dials. -/
def dynCount (m : List (Bytes × connFlag)) : Nat := m.countP fun e => is e.2 dynDialedConn

@[simp] theorem dialEntries_nil : dialEntries [] = [] := rfl

@[simp] theorem dialEntries_append (a b : List task) :
    dialEntries (a ++ b) = dialEntries a ++ dialEntries b :=
  List.filterMap_append

@[simp] theorem dialEntries_dial_cons (t : dialTask) (ts : List task) :
    dialEntries (.dial t :: ts) = (t.dest.ID, t.flags) :: dialEntries ts := rfl

@[simp] theorem dialEntries_discover_cons (rs : List Node) (ts : List task) :
    dialEntries (.discover rs :: ts) = dialEntries ts := rfl

@[simp] theorem dialEntries_waitExpire_cons (d : Int) (ts : List task) :
    dialEntries (.waitExpire d :: ts) = dialEntries ts := rfl

theorem dialEntries_dial (t : dialTask) : dialEntries [.dial t] = [(t.dest.ID, t.flags)] := rfl

@[simp] theorem lookups_nil : lookups [] = 0 := rfl

@[simp] theorem lookups_append (a b : List task) : lookups (a ++ b) = lookups a + lookups b :=
  List.countP_append

@[simp] theorem lookups_dial_cons (t : dialTask) (ts : List task) :
    lookups (.dial t :: ts) = lookups ts := by
  simp [lookups]

@[simp] theorem lookups_discover_cons (rs : List Node) (ts : List task) :
    lookups (.discover rs :: ts) = lookups ts + 1 := by
  simp [lookups]

@[simp] theorem lookups_waitExpire_cons (d : Int) (ts : List task) :
    lookups (.waitExpire d :: ts) = lookups ts := by
  simp [lookups]

@[simp] theorem dynCount_append (a b : List (Bytes × connFlag)) :
    dynCount (a ++ b) = dynCount a + dynCount b :=
  List.countP_append

theorem Perm.dialEntries {a b : List task} (h : a.Perm b) : (dialEntries a).Perm (dialEntries b) :=
  h.filterMap _

theorem Perm.lookups_eq {a b : List task} (h : a.Perm b) : lookups a = lookups b :=
  h.countP_eq _

/-! ### The loops of `newTasks` -/

namespace dialstate

variable {d0 peers : List (Bytes × connFlag)} {hist : List pastDial}

/-- What the loops of `newTasks` keep, from the dialing map `d0` they start with and the
history after `expire`: the new tasks are dials, the map is `d0` with an entry for each, and
each is of an ID no other new dial has and that was not being dialed, connected or dialed
lately. -/
structure Fresh (d0 peers : List (Bytes × connFlag)) (hist : List pastDial) (b : building) :
    Prop where
  dials : ∀ τ ∈ b.newtasks, ∃ t, τ = .dial t
  dialing_eq : b.dialing = d0 ++ dialEntries b.newtasks
  nodup : ((dialEntries b.newtasks).map Prod.fst).Nodup
  fresh : ∀ id ∈ (dialEntries b.newtasks).map Prod.fst,
    id ∉ d0.map Prod.fst ∧ id ∉ peers.map Prod.fst ∧ dialHistory.contains hist id = false

theorem Fresh.start : Fresh d0 peers hist ⟨d0, []⟩ where
  dials := by simp
  dialing_eq := by simp
  nodup := by simp
  fresh := by simp

theorem not_mem_of_isDialing {dialing : List (Bytes × connFlag)} {id : Bytes}
    (h : isDialing dialing peers hist id = false) :
    id ∉ dialing.map Prod.fst ∧ id ∉ peers.map Prod.fst ∧ dialHistory.contains hist id = false := by
  simp only [isDialing, Bool.or_eq_false_iff, Option.isSome_eq_false_iff, Option.isNone_iff_eq_none,
    Entries.lookup_eq_none_iff_not_mem] at h
  exact ⟨h.1.1, h.1.2, h.2⟩

/-- A dial of an ID that is not being dialed keeps the loops' invariant. -/
theorem Fresh.add {b : building} (hb : Fresh d0 peers hist b) {t : dialTask}
    (hid : isDialing b.dialing peers hist t.dest.ID = false) :
    Fresh d0 peers hist ⟨Entries.put t.dest.ID t.flags b.dialing, b.newtasks ++ [.dial t]⟩ := by
  obtain ⟨hdialing, hpeers, hhist⟩ := not_mem_of_isDialing hid
  have hnew : t.dest.ID ∉ (dialEntries b.newtasks).map Prod.fst := fun h =>
    hdialing (by rw [hb.dialing_eq, List.map_append]; exact List.mem_append_right _ h)
  have hd0 : t.dest.ID ∉ d0.map Prod.fst := fun h =>
    hdialing (by rw [hb.dialing_eq, List.map_append]; exact List.mem_append_left _ h)
  refine ⟨?_, ?_, ?_, ?_⟩
  · intro τ hτ
    rcases List.mem_append.mp hτ with h | h
    · exact hb.dials τ h
    · exact ⟨t, List.mem_singleton.mp h⟩
  · rw [Entries.put_of_not_mem _ hdialing, hb.dialing_eq, dialEntries_append, dialEntries_dial,
      List.append_assoc]
  · rw [dialEntries_append, dialEntries_dial, List.map_append, List.nodup_append]
    refine ⟨hb.nodup, List.nodup_singleton _, fun a ha c hc => ?_⟩
    rw [List.map_singleton, List.mem_singleton] at hc
    intro hac
    apply hnew
    rw [show t.dest.ID = a by rw [hac, hc]]
    exact ha
  · intro id hid'
    rw [dialEntries_append, dialEntries_dial, List.map_append, List.mem_append] at hid'
    rcases hid' with h | h
    · exact hb.fresh id h
    · rw [List.map_singleton, List.mem_singleton] at h
      subst h
      exact ⟨hd0, hpeers, hhist⟩

/-- The static loop keeps the invariant, for static tasks keyed by their destination's ID. -/
theorem Fresh.staticLoop {static : List (Bytes × dialTask)}
    (hok : ∀ e ∈ static, e.2.dest.ID = e.1) {b : building} (hb : Fresh d0 peers hist b) :
    Fresh d0 peers hist (static.foldl (staticStep peers hist) b) := by
  induction static generalizing b with
  | nil => exact hb
  | cons e rest ih =>
    rw [List.foldl_cons]
    refine ih (fun e' he' => hok e' (List.mem_cons_of_mem e he')) ?_
    unfold staticStep
    split
    · next hnot =>
      have hid : e.2.dest.ID = e.1 := hok e List.mem_cons_self
      rw [Bool.not_eq_true', ← hid] at hnot
      rw [← hid]
      exact hb.add hnot
    · exact hb

/-- A round of a dynamic loop keeps the invariant. -/
theorem Fresh.addDyn {acc : Int × building} (hb : Fresh d0 peers hist acc.2) (n : Node) :
    Fresh d0 peers hist (dynStep peers hist acc n).2 := by
  unfold dynStep addDial
  split
  · exact hb
  · next hnot => exact hb.add (t := ⟨dynDialedConn, n⟩) (Bool.not_eq_true _ ▸ hnot)

theorem Fresh.foldl_dynStep (l : List Node) {acc : Int × building}
    (hb : Fresh d0 peers hist acc.2) : Fresh d0 peers hist (l.foldl (dynStep peers hist) acc).2 := by
  induction l generalizing acc with
  | nil => exact hb
  | cons n rest ih => exact ih (hb.addDyn n)

theorem Fresh.lookup (l : List Node) {acc : Int × building}
    (hb : Fresh d0 peers hist acc.2) : Fresh d0 peers hist (lookupLoop peers hist l acc).2.2 := by
  induction l generalizing acc with
  | nil => exact hb
  | cons n rest ih =>
    unfold dialstate.lookupLoop
    split
    · exact ih (hb.addDyn n)
    · exact hb

/-! ### The budget of dynamic dials -/

@[simp] theorem dynCount_dial_static (id : Bytes) :
    dynCount [(id, staticDialedConn)] = 0 := by
  simp [dynCount, is, staticDialedConn, dynDialedConn]

@[simp] theorem dynCount_dial_dyn (id : Bytes) :
    dynCount [(id, dynDialedConn)] = 1 := by
  simp [dynCount, is, dynDialedConn]

/-- The static loop makes no dynamic dial, for static tasks with static flags. -/
theorem dynCount_staticLoop {static : List (Bytes × dialTask)}
    (hflags : ∀ e ∈ static, e.2.flags = staticDialedConn) (b : building) :
    dynCount (dialEntries (static.foldl (staticStep peers hist) b).newtasks) =
      dynCount (dialEntries b.newtasks) := by
  induction static generalizing b with
  | nil => rfl
  | cons e rest ih =>
    rw [List.foldl_cons, ih (fun e' he' => hflags e' (List.mem_cons_of_mem e he'))]
    unfold staticStep
    split
    · dsimp only
      rw [dialEntries_append, dialEntries_dial, hflags e List.mem_cons_self, dynCount_append,
        dynCount_dial_static, Nat.add_zero]
    · rfl

/-- A round of a dynamic loop trades a dial needed for a dynamic dial made. -/
theorem dynStep_spent (acc : Int × building) (n : Node) :
    (dynStep peers hist acc n).1 + dynCount (dialEntries (dynStep peers hist acc n).2.newtasks) =
      acc.1 + dynCount (dialEntries acc.2.newtasks) := by
  unfold dynStep addDial
  split
  · rfl
  · dsimp only
    rw [if_pos rfl, dialEntries_append, dialEntries_dial, dynCount_append, dynCount_dial_dyn]
    push_cast
    omega

theorem dynStep_left (acc : Int × building) (n : Node) : acc.1 - 1 ≤ (dynStep peers hist acc n).1 := by
  unfold dynStep
  dsimp only
  split <;> omega

theorem foldl_dynStep_spent (l : List Node) (acc : Int × building) :
    (l.foldl (dynStep peers hist) acc).1 +
        dynCount (dialEntries (l.foldl (dynStep peers hist) acc).2.newtasks) =
      acc.1 + dynCount (dialEntries acc.2.newtasks) := by
  induction l generalizing acc with
  | nil => rfl
  | cons n rest ih => rw [List.foldl_cons, ih, dynStep_spent]

/-- Each round of a dynamic loop spends at most one dial. -/
theorem foldl_dynStep_left (l : List Node) (acc : Int × building) :
    acc.1 - l.length ≤ (l.foldl (dynStep peers hist) acc).1 := by
  induction l generalizing acc with
  | nil => simp
  | cons n rest ih =>
    have h1 := @dynStep_left peers hist acc n
    have h2 := ih (dynStep peers hist acc n)
    rw [List.foldl_cons, List.length_cons]
    push_cast
    omega

theorem lookupLoop_spent (l : List Node) (acc : Int × building) :
    (lookupLoop peers hist l acc).2.1 + dynCount (dialEntries (lookupLoop peers hist l acc).2.2.newtasks) =
      acc.1 + dynCount (dialEntries acc.2.newtasks) := by
  induction l generalizing acc with
  | nil => rfl
  | cons n rest ih =>
    unfold lookupLoop
    split
    · rw [ih, dynStep_spent]
    · rfl

/-- The lookup loop spends only while dials are needed, so it leaves none owed that were not. -/
theorem lookupLoop_left (l : List Node) (acc : Int × building) :
    min acc.1 0 ≤ (lookupLoop peers hist l acc).2.1 := by
  induction l generalizing acc with
  | nil => exact Int.min_le_left _ _
  | cons n rest ih =>
    unfold lookupLoop
    split
    · next hpos =>
      have h1 := @dynStep_left peers hist acc n
      have h2 := ih (dynStep peers hist acc n)
      omega
    · exact Int.min_le_left _ _

/-! ### What `newTasks` returns -/

/-- A call of `newTasks` taken apart: the dials `b` its loops build, with `left` of the budget
of dynamic dials left, then the tasks `extra`, a lookup if it `launch`es and perhaps a wait. -/
structure Parts (s : dialstate) (peers : List (Bytes × connFlag)) (now : Int)
    (r : List task × dialstate) (b : building) (left : Int) (launch : Bool) (extra : List task) :
    Prop where
  tasks_eq : r.1 = b.newtasks ++ extra
  dialing_eq : r.2.dialing = b.dialing
  hist_eq : r.2.hist = dialHistory.expire s.hist now
  lookupRunning_eq : r.2.lookupRunning = (s.lookupRunning || launch)
  static_eq : r.2.static = s.static
  launch_idle : launch = true → s.lookupRunning = false
  extra_dials : dialEntries extra = []
  extra_lookups : lookups extra = if launch then 1 else 0
  extra_wait : ∀ d, task.waitExpire d ∈ extra →
    ∃ m t, dialHistory.expire s.hist now = m :: t ∧ d = m.exp - now
  fresh : Fresh s.dialing peers (dialHistory.expire s.hist now) b
  spent : left + dynCount (dialEntries b.newtasks) =
    s.maxDynDials - dynCount peers - dynCount s.dialing
  left_ge : min (s.maxDynDials - dynCount peers - dynCount s.dialing) 0 ≤ left

/-- The random dials: at most half the budget, from the nodes the table wrote. -/
theorem randomDials (need : Int) {b : building} (hb : Fresh d0 peers hist b)
    (hb0 : dynCount (dialEntries b.newtasks) = 0) (read : List Node) :
    let acc := if 0 < need.tdiv 2 then
        (read.take (need.tdiv 2).toNat).foldl (dynStep peers hist) (need, b)
      else (need, b)
    Fresh d0 peers hist acc.2 ∧ acc.1 + dynCount (dialEntries acc.2.newtasks) = need ∧
      min need 0 ≤ acc.1 := by
  intro acc
  by_cases hr : 0 < need.tdiv 2
  · have hacc : acc = (read.take (need.tdiv 2).toNat).foldl (dynStep peers hist) (need, b) :=
      if_pos hr
    -- half the budget, so no more than the budget, is spent
    have hneed : 0 ≤ need := by
      by_contra hneg
      -- Go's division truncates: a negative budget halves to a negative or zero count
      have h1 : need.tdiv 2 = -((-need).tdiv 2) := by rw [Int.neg_tdiv, Int.neg_neg]
      have h2 : 0 ≤ (-need).tdiv 2 := Int.tdiv_nonneg (by omega) (by decide)
      omega
    have hhalf : need.tdiv 2 = need / 2 := Int.tdiv_eq_ediv_of_nonneg hneed
    have hlen : ((read.take (need.tdiv 2).toNat).length : Int) ≤ need / 2 := by
      rw [List.length_take, hhalf]
      have := Int.toNat_of_nonneg (Int.ediv_nonneg hneed (by decide : (0 : Int) ≤ 2))
      omega
    have hleft := @foldl_dynStep_left peers hist
      (read.take (need.tdiv 2).toNat) (need, b)
    rw [hacc]
    refine ⟨hb.foldl_dynStep _, ?_, ?_⟩
    · rw [foldl_dynStep_spent, hb0, Nat.cast_zero, Int.add_zero]
    · dsimp only at hleft
      omega
  · have hacc : acc = (need, b) := if_neg hr
    rw [hacc]
    exact ⟨hb, by rw [hb0, Nat.cast_zero, Int.add_zero], Int.min_le_left _ _⟩

/-- `newTasks` taken apart, for static tasks keyed by their destination's ID with static
flags. -/
theorem newTasks_parts {s : dialstate}
    (hok : ∀ e ∈ s.static, e.2.dest.ID = e.1 ∧ e.2.flags = staticDialedConn)
    (nRunning : Int) (peers : List (Bytes × connFlag)) (now : Int) (read : List Node) :
    ∃ b left launch extra, Parts s peers now (s.newTasks nRunning peers now read) b left launch extra := by
  unfold newTasks
  dsimp only
  generalize hN : s.maxDynDials - ↑(List.countP (fun p => is p.2 dynDialedConn) peers) -
    ↑(List.countP (fun e => is e.2 dynDialedConn) s.dialing) = N
  generalize hH : dialHistory.expire s.hist now = H
  -- the static loop, then the random dials, then the lookup loop
  have hB := @Fresh.staticLoop s.dialing peers H s.static (fun e he => (hok e he).1) _
    Fresh.start
  have hB0 := @dynCount_staticLoop peers H s.static (fun e he => (hok e he).2) ⟨s.dialing, []⟩
  generalize s.static.foldl (staticStep peers H) ⟨s.dialing, []⟩ = B at hB hB0
  obtain ⟨hAfresh, hAspent, hAleft⟩ := randomDials N hB hB0 read
  generalize (if 0 < N.tdiv 2 then List.foldl (dynStep peers H) (N, B) (List.take (N.tdiv 2).toNat read)
    else (N, B)) = A at hAfresh hAspent hAleft ⊢
  have hR := Fresh.lookup s.lookupBuf hAfresh
  have hRspent := @lookupLoop_spent peers H s.lookupBuf A
  have hRleft := @lookupLoop_left peers H s.lookupBuf A
  generalize lookupLoop peers H s.lookupBuf A = R at hR hRspent hRleft ⊢
  generalize hL : (decide ((R.1.length : Int) < R.2.1) && !s.lookupRunning) = L
  have hN' : s.maxDynDials - dynCount peers - dynCount s.dialing = N := hN
  refine ⟨R.2.2, R.2.1, L, (if L then [.discover []] else []) ++
    (match H with
      | m :: _ =>
        if nRunning = 0 ∧ (if L then R.2.2.newtasks ++ [.discover []] else R.2.2.newtasks) = [] then
          [.waitExpire (m.exp - now)] else []
      | [] => []), ?_⟩
  refine ⟨?_, rfl, hH.symm, rfl, rfl, ?_, ?_, ?_, ?_, hH ▸ hR, ?_, ?_⟩
  · -- the tasks: the dials, then the lookup and the wait
    cases H <;> cases L <;> simp only [Bool.false_eq_true, if_false, if_true] <;> (try split_ifs) <;> simp
  · intro hl
    rw [← hL, Bool.and_eq_true, Bool.not_eq_true'] at hl
    exact hl.2
  · cases H <;> cases L <;> simp only [Bool.false_eq_true, if_false, if_true] <;> (try split_ifs) <;> simp
  · cases H <;> cases L <;> simp only [Bool.false_eq_true, if_false, if_true] <;> (try split_ifs) <;> simp
  · intro d hd
    cases H with
    | nil => cases L <;> simp at hd
    | cons m t =>
      refine ⟨m, t, hH, ?_⟩
      cases L <;> simp only [Bool.false_eq_true, if_false, if_true] at hd <;>
        (try split_ifs at hd) <;> simp at hd <;> exact hd
  · rw [hRspent, hAspent, hN']
  · rw [hN']
    omega

/-- The tasks a call of `newTasks` returns are its dials, then a lookup and a wait at most. -/
theorem Parts.dialEntries_eq {s : dialstate} {peers : List (Bytes × connFlag)} {now : Int}
    {r : List task × dialstate} {b : building} {left : Int} {launch : Bool} {extra : List task}
    (hp : Parts s peers now r b left launch extra) : dialEntries r.1 = dialEntries b.newtasks := by
  rw [hp.tasks_eq, dialEntries_append, hp.extra_dials, List.append_nil]

/-- One call of `newTasks`, for static tasks keyed by their destination's ID with static flags
and a history kept as a heap.  It dials no ID twice, and none that is connected, being dialed,
or in the history and not expired by `now`.  The dynamic connections and dials afterwards are
at most `maxDynDials`, or what they were before if that was more.  A wait it returns is for a
duration that is not negative. -/
theorem newTasks_spec {s : dialstate}
    (hok : ∀ e ∈ s.static, e.2.dest.ID = e.1 ∧ e.2.flags = staticDialedConn)
    (hh : SliceHeap.IsHeap dialHistory.Less s.hist) (nRunning : Int)
    (peers : List (Bytes × connFlag)) (now : Int) (read : List Node) {ts : List task}
    {s' : dialstate} (hr : s.newTasks nRunning peers now read = (ts, s')) :
    ((dialEntries ts).map Prod.fst).Nodup ∧
    (∀ id ∈ (dialEntries ts).map Prod.fst, id ∉ peers.map Prod.fst ∧
      id ∉ s.dialing.map Prod.fst ∧ ∀ e ∈ s.hist, e.id = id → e.exp < now) ∧
    (dynCount peers : Int) + dynCount s'.dialing ≤
      max s.maxDynDials (dynCount peers + dynCount s.dialing) ∧
    ∀ d, task.waitExpire d ∈ ts → 0 ≤ d := by
  obtain ⟨b, left, launch, extra, hp⟩ := newTasks_parts hok nRunning peers now read
  rw [hr] at hp
  have hd : dialEntries ts = dialEntries b.newtasks := hp.dialEntries_eq
  refine ⟨hd ▸ hp.fresh.nodup, fun id hid => ?_, ?_, fun d hwait => ?_⟩
  · obtain ⟨hdialing, hpeers, hhist⟩ := hp.fresh.fresh id (hd ▸ hid)
    exact ⟨hpeers, hdialing, dialHistory.expired_of_not_contains hh hhist⟩
  · -- the dynamic dials made are the budget less what is left, and what is left is not below
    -- the budget when that is negative
    have hspent := hp.spent
    have hleft := hp.left_ge
    have hdialing : s'.dialing = s.dialing ++ dialEntries b.newtasks :=
      hp.dialing_eq.trans hp.fresh.dialing_eq
    rw [hdialing, dynCount_append]
    push_cast
    omega
  · have hts : ts = b.newtasks ++ extra := hp.tasks_eq
    rw [hts] at hwait
    rcases List.mem_append.mp hwait with hin | hin
    · obtain ⟨t, ht⟩ := hp.fresh.dials _ hin
      exact absurd ht (by simp)
    · obtain ⟨m, t, hexp, rfl⟩ := hp.extra_wait d hin
      have := dialHistory.expire_min hh hexp
      omega

end dialstate

/-! ### Runs of the scheduler -/

/-- The task as `Do` hands it to `taskDone`: a lookup with the nodes it found. -/
def task.withResults : task → List Node → task
  | .discover _, rs => .discover rs
  | t, _ => t

/-- One call of the scheduler, on its state and the tasks returned and not yet done: `newTasks`,
whose tasks go out; `taskDone` of a task that is out, which then is not; `addStatic`; and the
visit of the static map in another order, as `range` over a Go map may take any. -/
inductive Step : dialstate × List task → dialstate × List task → Prop
  | newTasks (s : dialstate) (out : List task) (nRunning : Int) (peers : List (Bytes × connFlag))
      (now : Int) (read : List Node) :
      Step (s, out) ((s.newTasks nRunning peers now read).2,
        out ++ (s.newTasks nRunning peers now read).1)
  | taskDone (s : dialstate) (out out' : List task) (t : task) (results : List Node) (now : Int)
      (hout : out.Perm (t :: out')) : Step (s, out) (s.taskDone (t.withResults results) now, out')
  | addStatic (s : dialstate) (out : List task) (n : Node) : Step (s, out) (s.addStatic n, out)
  | reorder (s : dialstate) (out : List task) (l : List (Bytes × dialTask))
      (hl : l.Perm s.static) : Step (s, out) ({ s with static := l }, out)

/-- The states and tasks out that a run reaches from `newDialState`. -/
def Reachable (static : List Node) (maxdyn : Int) (st : dialstate × List task) : Prop :=
  Relation.ReflTransGen Step (dialstate.newDialState static maxdyn, []) st

/-- What every state of a run keeps, with the tasks `out` returned and not yet done: `dialing`
holds one entry for each dial out, with its flags, and no ID twice; at most one lookup is out,
and `lookupRunning` says whether one is; the static tasks are keyed by their destination's ID
and have static flags; and the history is a heap. -/
structure Inv (s : dialstate) (out : List task) : Prop where
  dialing_perm : s.dialing.Perm (dialEntries out)
  dialing_nodup : (s.dialing.map Prod.fst).Nodup
  lookups_le : lookups out ≤ 1
  lookupRunning_iff : s.lookupRunning = true ↔ lookups out = 1
  static_ok : ∀ e ∈ s.static, e.2.dest.ID = e.1 ∧ e.2.flags = staticDialedConn
  hist_heap : SliceHeap.IsHeap dialHistory.Less s.hist

theorem lookups_eq_zero_of_dials {ts : List task} (h : ∀ τ ∈ ts, ∃ t, τ = .dial t) :
    lookups ts = 0 := by
  induction ts with
  | nil => rfl
  | cons τ rest ih =>
    obtain ⟨t, rfl⟩ := h τ List.mem_cons_self
    rw [lookups_dial_cons]
    exact ih fun τ' hτ' => h τ' (List.mem_cons_of_mem _ hτ')

namespace Inv

variable {s : dialstate} {out : List task}

theorem addStatic (hs : Inv s out) (n : Node) : Inv (s.addStatic n) out where
  dialing_perm := hs.dialing_perm
  dialing_nodup := hs.dialing_nodup
  lookups_le := hs.lookups_le
  lookupRunning_iff := hs.lookupRunning_iff
  static_ok e he := by
    rcases Entries.mem_put he with he | rfl
    · exact hs.static_ok e he
    · exact ⟨rfl, rfl⟩
  hist_heap := hs.hist_heap

theorem reorder (hs : Inv s out) {l : List (Bytes × dialTask)} (hl : l.Perm s.static) :
    Inv { s with static := l } out where
  dialing_perm := hs.dialing_perm
  dialing_nodup := hs.dialing_nodup
  lookups_le := hs.lookups_le
  lookupRunning_iff := hs.lookupRunning_iff
  static_ok e he := hs.static_ok e (hl.subset he)
  hist_heap := hs.hist_heap

theorem newDialState (static : List Node) (maxdyn : Int) :
    Inv (dialstate.newDialState static maxdyn) [] := by
  -- `newDialState` is `addStatic` of each static node on an empty state
  have h0 : Inv ⟨maxdyn, false, [], [], [], []⟩ [] :=
    ⟨List.Perm.nil, List.nodup_nil, Nat.zero_le _, by simp, by simp,
      fun _ _ hc _ => absurd hc (Nat.not_lt_zero _)⟩
  unfold dialstate.newDialState
  generalize (⟨maxdyn, false, [], [], [], []⟩ : dialstate) = s0 at h0
  induction static generalizing s0 with
  | nil => exact h0
  | cons n rest ih => exact ih _ (h0.addStatic n)

/-- A call of `newTasks` keeps the invariant, with its tasks out. -/
theorem newTasks (hs : Inv s out) (nRunning : Int) (peers : List (Bytes × connFlag)) (now : Int)
    (read : List Node) :
    Inv (s.newTasks nRunning peers now read).2 (out ++ (s.newTasks nRunning peers now read).1) := by
  obtain ⟨b, left, launch, extra, hp⟩ := dialstate.newTasks_parts hs.static_ok nRunning peers now read
  have hdialing := hp.dialing_eq.trans hp.fresh.dialing_eq
  have hlookups : lookups (out ++ (s.newTasks nRunning peers now read).1) =
      lookups out + if launch then 1 else 0 := by
    rw [lookups_append, hp.tasks_eq, lookups_append, lookups_eq_zero_of_dials hp.fresh.dials,
      hp.extra_lookups, Nat.zero_add]
  refine ⟨?_, ?_, ?_, ?_, ?_, ?_⟩
  · rw [hdialing, dialEntries_append, hp.dialEntries_eq]
    exact hs.dialing_perm.append_right _
  · -- the new IDs are distinct and none was being dialed
    rw [hdialing, List.map_append, List.nodup_append]
    refine ⟨hs.dialing_nodup, hp.fresh.nodup, fun a ha c hc hac => ?_⟩
    exact (hp.fresh.fresh c hc).1 (hac ▸ ha)
  · rw [hlookups]
    have := hs.lookups_le
    cases launch
    · simpa using this
    · have hidle := hp.launch_idle rfl
      have : lookups out ≠ 1 := fun h => by simp [hs.lookupRunning_iff.mpr h] at hidle
      simp only [if_true]
      omega
  · rw [hlookups, hp.lookupRunning_eq]
    cases launch
    · simpa using hs.lookupRunning_iff
    · have hidle := hp.launch_idle rfl
      have : lookups out ≠ 1 := fun h => by simp [hs.lookupRunning_iff.mpr h] at hidle
      have := hs.lookups_le
      simp only [Bool.or_true, if_true, true_iff]
      omega
  · rw [hp.static_eq]
    exact hs.static_ok
  · rw [hp.hist_eq]
    exact dialHistory.expire_heap hs.hist_heap

/-- `taskDone` of a task that is out keeps the invariant, with the task no longer out. -/
theorem taskDone (hs : Inv s out) {out' : List task} {t : task} (hout : out.Perm (t :: out'))
    (results : List Node) (now : Int) : Inv (s.taskDone (t.withResults results) now) out' := by
  have hperm := hs.dialing_perm.trans (Perm.dialEntries hout)
  have hlk := Perm.lookups_eq hout
  cases t with
  | dial t =>
    rw [dialEntries_dial_cons] at hperm
    rw [lookups_dial_cons] at hlk
    -- the dial's entry is in `dialing`, and deleting its ID takes that entry out
    have hmem : (t.dest.ID, t.flags) ∈ s.dialing := hperm.symm.subset List.mem_cons_self
    have hdel := Entries.perm_cons_delete hs.dialing_nodup hmem
    refine ⟨(List.perm_cons _).mp (hdel.symm.trans hperm), Entries.nodup_delete hs.dialing_nodup,
      hlk ▸ hs.lookups_le, hlk ▸ hs.lookupRunning_iff, hs.static_ok, ?_⟩
    exact SliceHeap.Push_heap dialHistory.strictWeak_Less hs.hist_heap _
  | discover r0 =>
    rw [dialEntries_discover_cons] at hperm
    rw [lookups_discover_cons] at hlk
    have hle := hs.lookups_le
    refine ⟨hperm, hs.dialing_nodup, by omega, ?_, hs.static_ok, hs.hist_heap⟩
    dsimp only [task.withResults, dialstate.taskDone]
    simp only [Bool.false_eq_true, false_iff]
    omega
  | waitExpire d =>
    rw [dialEntries_waitExpire_cons] at hperm
    rw [lookups_waitExpire_cons] at hlk
    exact ⟨hperm, hs.dialing_nodup, hlk ▸ hs.lookups_le, hlk ▸ hs.lookupRunning_iff,
      hs.static_ok, hs.hist_heap⟩

theorem step {st st' : dialstate × List task} (hs : Inv st.1 st.2) (hstep : Step st st') :
    Inv st'.1 st'.2 := by
  cases hstep with
  | newTasks s out nRunning peers now read => exact hs.newTasks nRunning peers now read
  | taskDone s out out' t results now hout => exact hs.taskDone hout results now
  | addStatic s out n => exact hs.addStatic n
  | reorder s out l hl => exact hs.reorder hl

end Inv

/-- Every state a run reaches keeps the invariant. -/
theorem Reachable.inv {static : List Node} {maxdyn : Int} {st : dialstate × List task}
    (hr : Reachable static maxdyn st) : Inv st.1 st.2 := by
  -- induction on the run, one call at a time
  induction hr with
  | refl => exact Inv.newDialState static maxdyn
  | tail _ hstep ih => exact ih.step hstep

/-- The dial scheduler over any run of `newTasks`, `taskDone` of tasks it returned, and
`addStatic`, from `newDialState`.  `dialing` holds exactly the dials returned and not yet done,
each ID once with its flags.  At most one lookup is out, and `lookupRunning` holds exactly when
one is.  Each call of `newTasks` dials no ID twice, and none that is connected, being dialed or
in the history and not expired by `now`.  After it, the dynamically dialed peers and the
dynamic dials in progress are at most `maxDynDials`, or what they were before if that was
more.  A wait it returns is for a duration that is not negative. -/
theorem dialstate_invariants {static : List Node} {maxdyn : Int} {s : dialstate}
    {out : List task} (hr : Reachable static maxdyn (s, out)) :
    (s.dialing.Perm (dialEntries out) ∧ (s.dialing.map Prod.fst).Nodup) ∧
    (lookups out ≤ 1 ∧ (s.lookupRunning = true ↔ lookups out = 1)) ∧
    ∀ (nRunning : Int) (peers : List (Bytes × connFlag)) (now : Int) (read : List Node)
      (ts : List task) (s' : dialstate), s.newTasks nRunning peers now read = (ts, s') →
      ((dialEntries ts).map Prod.fst).Nodup ∧
      (∀ id ∈ (dialEntries ts).map Prod.fst, id ∉ peers.map Prod.fst ∧
        id ∉ s.dialing.map Prod.fst ∧ ∀ e ∈ s.hist, e.id = id → e.exp < now) ∧
      (dynCount peers : Int) + dynCount s'.dialing ≤
        max s.maxDynDials (dynCount peers + dynCount s.dialing) ∧
      ∀ d, task.waitExpire d ∈ ts → 0 ≤ d := by
  have hs := hr.inv
  refine ⟨⟨hs.dialing_perm, hs.dialing_nodup⟩, ⟨hs.lookups_le, hs.lookupRunning_iff⟩, ?_⟩
  intro nRunning peers now read ts s' hcall
  exact dialstate.newTasks_spec hs.static_ok hs.hist_heap nRunning peers now read hcall

theorem dialstate_invariants_first_call :
    let s := (dialstate.newDialState [] 4).newTasks 0 [] 0 [⟨[], [1], []⟩]
    (s.2.dialing.Perm (dialEntries ([] ++ s.1)) ∧ (s.2.dialing.map Prod.fst).Nodup) ∧
      (lookups ([] ++ s.1) ≤ 1 ∧ (s.2.lookupRunning = true ↔ lookups ([] ++ s.1) = 1)) :=
  let h := @dialstate_invariants [] 4 _ _ (.tail .refl (.newTasks _ [] 0 [] 0 [⟨[], [1], []⟩]))
  ⟨h.1, h.2.1⟩

end P2p
end Ethcore
