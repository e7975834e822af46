import Ethcore.Event.Feed

/-!
# The subscriptions and the deliveries of a feed

Over every interleaving of `Subscribe`, `Send` and `Unsubscribe` on one feed (`Reachable`):

- the cases are conserved (`Cases`): `sendCases` starts with the receive from `removeSub` and
  holds no other, and each subscription has exactly one case, in the inbox or in `sendCases`,
  until its `Unsubscribe` deletes it; an `Unsubscribe` past the inbox has its case in
  `sendCases`, so the deletes of `remove` and of `Send` always find their index and never
  panic;
- a `Send` in its loop (`Looping`) has delivered its value once to each case past `cases`, and
  to no other case except those an `Unsubscribe` took out while it ran; `nsent` counts its
  deliveries.

Both rest on the send lock (`Locks`): only its holder touches `sendCases`.
-/

namespace Ethcore
namespace Event

open InPlace

/-! ### Who is removing what, and who delivered what -/

namespace Pc

section

variable {Chan Ty Val : Type} [DecidableEq Chan]

/-- The thread is an `Unsubscribe` of a subscription to `ch` that has not deleted its case. -/
def removing (ch : Chan) : Pc Chan Ty Val → Bool
  | .remove c | .removeFind c | .removeSelect c | .removeDelete c => decide (c = ch)
  | _ => false

/-- ... and it found no case on `ch` in the inbox: its case is in `sendCases`. -/
def removingSent (ch : Chan) : Pc Chan Ty Val → Bool
  | .removeSelect c | .removeDelete c => decide (c = ch)
  | _ => false

theorem removing_of_removingSent {ch : Chan} {pc : Pc Chan Ty Val}
    (h : pc.removingSent ch = true) : pc.removing ch = true := by
  cases pc <;> simp_all [removingSent, removing]

end

/-- A `Send` in its delivery loop, or one that returned from it. -/
def looped {Chan Ty Val : Type} : Pc Chan Ty Val → Bool
  | .sending .. | .returned (.sent _) => true
  | _ => false

end Pc

namespace ChanOp

variable {Chan Val : Type}

/-- The channel of a delivery by the `Send` at `t`. -/
def deliveredBy (t : Nat) : ChanOp Chan Val → Option Chan
  | .delivered s ch _ => if s = t then some ch else none
  | .removed .. => none

/-- The channel of a receive from `removeSub` by the `Send` at `t`. -/
def removedBy (t : Nat) : ChanOp Chan Val → Option Chan
  | .delivered .. => none
  | .removed s ch => if s = t then some ch else none

end ChanOp

section Log

variable {Chan Val : Type}

/-- The channels the `Send` at `t` delivered to, with their multiplicity. -/
def deliveries (log : List (ChanOp Chan Val)) (t : Nat) : Multiset Chan :=
  (log.filterMap (ChanOp.deliveredBy t) : List Chan)

/-- The channels the `Send` at `t` received from `removeSub`. -/
def removals (log : List (ChanOp Chan Val)) (t : Nat) : Multiset Chan :=
  (log.filterMap (ChanOp.removedBy t) : List Chan)

@[simp] theorem deliveries_append_delivered (log : List (ChanOp Chan Val)) (s : Nat) (ch : Chan)
    (v : Val) (t : Nat) :
    deliveries (log ++ [.delivered s ch v]) t =
      if s = t then deliveries log t + {ch} else deliveries log t := by
  unfold deliveries
  rw [List.filterMap_append, ← Multiset.coe_add]
  by_cases hs : s = t <;> simp [ChanOp.deliveredBy, hs]

@[simp] theorem deliveries_append_removed (log : List (ChanOp Chan Val)) (s : Nat) (ch : Chan)
    (t : Nat) : deliveries (log ++ [.removed s ch]) t = deliveries log t := by
  simp only [deliveries, List.filterMap_append, List.filterMap_cons, ChanOp.deliveredBy,
    List.filterMap_nil, List.append_nil]

@[simp] theorem removals_append_delivered (log : List (ChanOp Chan Val)) (s : Nat) (ch : Chan)
    (v : Val) (t : Nat) : removals (log ++ [.delivered s ch v]) t = removals log t := by
  simp only [removals, List.filterMap_append, List.filterMap_cons, ChanOp.removedBy,
    List.filterMap_nil, List.append_nil]

@[simp] theorem removals_append_removed (log : List (ChanOp Chan Val)) (s : Nat) (ch : Chan)
    (t : Nat) :
    removals (log ++ [.removed s ch]) t =
      if s = t then removals log t + {ch} else removals log t := by
  unfold removals
  rw [List.filterMap_append, ← Multiset.coe_add]
  by_cases hs : s = t <;> simp [ChanOp.removedBy, hs]

/-- A logged delivery of the `Send` at `t` is one of its deliveries. -/
theorem mem_deliveries {log : List (ChanOp Chan Val)} {t : Nat} {ch : Chan} {v : Val}
    (h : ChanOp.delivered t ch v ∈ log) : ch ∈ deliveries log t := by
  unfold deliveries
  rw [Multiset.mem_coe, List.mem_filterMap]
  exact ⟨_, h, by simp [ChanOp.deliveredBy]⟩

end Log

/-! ### The cases are conserved -/

@[simp] theorem SelectCase.send_beq_send {Chan : Type} [DecidableEq Chan] (ch ch' : Chan) :
    (SelectCase.send ch == SelectCase.send ch') = decide (ch = ch') := by
  by_cases h : ch = ch' <;> simp [h]

section Cases

variable {Chan Ty Val : Type} [DecidableEq Chan]

/-- The cases of the feed (module doc). -/
structure Cases (w : World Chan Ty Val) : Prop where
  empty : w.feed.once = false → w.feed.sendCases = []
  head : w.feed.once = true →
    w.feed.sendCases[0]? = some .removeSub ∧ w.feed.sendCases.count .removeSub = 1
  inbox : .removeSub ∉ w.feed.inbox
  /-- Each subscription has one case until its `Unsubscribe` deletes it. -/
  count : ∀ ch, (w.feed.inbox ++ w.feed.sendCases).count (.send ch) =
    w.subs.count ch + w.threads.countP (Pc.removing ch)
  /-- An `Unsubscribe` past the inbox has its case in `sendCases`. -/
  sent : ∀ ch, w.threads.countP (Pc.removingSent ch) ≤ w.feed.sendCases.count (.send ch)
  /-- No delete has panicked. -/
  no_bounds : ∀ pc ∈ w.threads, ∀ mu sendLock,
    pc ≠ .panicked .sliceBoundsOutOfRange mu sendLock

theorem Cases.zero : Cases (World.zero : World Chan Ty Val) where
  empty _ := rfl
  head h := by cases h
  inbox := by simp [World.zero, Feed.zero]
  count _ := by simp [World.zero, Feed.zero]
  sent _ := by simp [World.zero, Feed.zero]
  no_bounds _ h := by simp [World.zero] at h

omit [DecidableEq Chan] in
/-- Setting a thread to anything but a bounds panic keeps the threads free of them. -/
theorem no_bounds_set {ts : List (Pc Chan Ty Val)}
    (hts : ∀ pc ∈ ts, ∀ mu sendLock, pc ≠ .panicked .sliceBoundsOutOfRange mu sendLock) (t : Nat)
    {pc : Pc Chan Ty Val} (hpc : ∀ mu sendLock, pc ≠ .panicked .sliceBoundsOutOfRange mu sendLock) :
    ∀ pc' ∈ ts.set t pc, ∀ mu sendLock, pc' ≠ .panicked .sliceBoundsOutOfRange mu sendLock := by
  intro pc' hmem
  rcases List.mem_or_eq_of_mem_set hmem with hmem | rfl
  · exact hts pc' hmem
  · exact hpc

/-- An `Unsubscribe` past the inbox finds its case in `sendCases`. -/
theorem Cases.mem_of_removingSent {w : World Chan Ty Val} (hc : Cases w) {t : Nat}
    {pc : Pc Chan Ty Val} (h : w.threads[t]? = some pc) {ch : Chan}
    (hpc : pc.removingSent ch = true) : .send ch ∈ w.feed.sendCases := by
  have hpos : 0 < w.threads.countP (Pc.removingSent ch) :=
    List.countP_pos_iff.mpr ⟨_, List.mem_of_getElem? h, hpc⟩
  exact List.count_pos_iff.mp (Nat.lt_of_lt_of_le hpos (hc.sent ch))

/-- A step of one thread that keeps the cases (up to their order past `sendCases[0]`) and the
subscriptions keeps `Cases` when the thread stays in its classes. -/
theorem Cases.move {w : World Chan Ty Val} (hc : Cases w) {t : Nat} {old : Pc Chan Ty Val}
    (h : w.threads[t]? = some old) (pc : Pc Chan Ty Val) (f : Feed Chan Ty)
    (honce : f.once = w.feed.once) (hperm : f.sendCases.Perm w.feed.sendCases)
    (hhead : f.sendCases[0]? = w.feed.sendCases[0]?)
    (hinbox : f.inbox = w.feed.inbox) (hrem : ∀ ch, pc.removing ch = old.removing ch)
    (hsent : ∀ ch, pc.removingSent ch = old.removingSent ch)
    (hpc : ∀ mu sendLock, pc ≠ .panicked .sliceBoundsOutOfRange mu sendLock) :
    Cases (w.move t pc f) where
  empty h' := by
    rw [World.move_feed, honce] at h'
    exact List.Perm.eq_nil (hc.empty h' ▸ hperm)
  head h' := by
    rw [World.move_feed, honce] at h'
    rw [World.move_feed, hhead, hperm.count_eq]
    exact hc.head h'
  inbox := by simpa [hinbox] using hc.inbox
  count ch := by
    have h1 := World.countP_move (Pc.removing ch) h pc f
    have := hc.count ch
    rw [hrem ch] at h1
    simp only [World.move_feed, World.move_subs, hinbox, List.count_append, hperm.count_eq] at this ⊢
    omega
  sent ch := by
    have h1 := World.countP_move (Pc.removingSent ch) h pc f
    have := hc.sent ch
    rw [hsent ch] at h1
    simp only [World.move_feed, hperm.count_eq]
    omega
  no_bounds := no_bounds_set hc.no_bounds t hpc

/-- A step of one thread that leaves the feed's cases alone. -/
theorem Cases.move_same {w : World Chan Ty Val} (hc : Cases w) {t : Nat} {old : Pc Chan Ty Val}
    (h : w.threads[t]? = some old) (pc : Pc Chan Ty Val) (f : Feed Chan Ty)
    (honce : f.once = w.feed.once) (hcases : f.sendCases = w.feed.sendCases)
    (hinbox : f.inbox = w.feed.inbox) (hrem : ∀ ch, pc.removing ch = old.removing ch)
    (hsent : ∀ ch, pc.removingSent ch = old.removingSent ch)
    (hpc : ∀ mu sendLock, pc ≠ .panicked .sliceBoundsOutOfRange mu sendLock) :
    Cases (w.move t pc f) :=
  hc.move h pc f honce (hcases ▸ List.Perm.refl _) (by rw [hcases]) hinbox hrem hsent hpc

/-- Erasing a send case keeps the receive from `removeSub` first. -/
theorem erase_send_head {cs : caseList Chan} (h : cs[0]? = some .removeSub) (ch : Chan) :
    (cs.erase (.send ch))[0]? = some .removeSub ∧
      (cs.erase (.send ch)).count .removeSub = cs.count .removeSub := by
  cases cs with
  | nil => cases h
  | cons a rest =>
    obtain rfl : a = .removeSub := by simpa using h
    rw [List.erase_cons_tail (by simp)]
    exact ⟨rfl, by rw [List.count_cons, List.count_cons, List.count_erase_of_ne (by simp)]⟩

/-- A call adds a thread outside every class. -/
theorem Cases.call {w : World Chan Ty Val} (hc : Cases w) (pc : Pc Chan Ty Val)
    (hrem : ∀ ch, pc.removing ch = false) (hsent : ∀ ch, pc.removingSent ch = false)
    (hpc : ∀ mu sendLock, pc ≠ .panicked .sliceBoundsOutOfRange mu sendLock) :
    Cases (w.call pc) where
  empty := hc.empty
  head := hc.head
  inbox := hc.inbox
  count ch := by simpa [hrem ch] using hc.count ch
  sent ch := by simpa [hsent ch] using hc.sent ch
  no_bounds pc' hmem := by
    rcases List.mem_append.mp hmem with hmem | hmem
    · exact hc.no_bounds pc' hmem
    · rw [List.mem_singleton.mp hmem]
      exact hpc

/-- `f.once.Do(f.init)`: before `init` there is no case and no `Unsubscribe` past the inbox;
`init` puts in the receive from `removeSub`. -/
theorem Cases.onceDo {w : World Chan Ty Val} (hc : Cases w) {t : Nat} {old : Pc Chan Ty Val}
    (h : w.threads[t]? = some old) (pc : Pc Chan Ty Val)
    (hrem : ∀ ch, pc.removing ch = old.removing ch)
    (hsent : ∀ ch, pc.removingSent ch = old.removingSent ch)
    (hpc : ∀ mu sendLock, pc ≠ .panicked .sliceBoundsOutOfRange mu sendLock) :
    Cases (w.move t pc w.feed.onceDo) := by
  cases ho : w.feed.once
  · have hempty := hc.empty ho
    obtain ⟨hlock, hcases⟩ := Feed.onceDo_of_once_eq_false (f := w.feed) ho
    refine ⟨fun h' => by simp at h', fun _ => by simp [hcases], by simpa using hc.inbox,
      fun ch => ?_, fun ch => ?_, no_bounds_set hc.no_bounds t hpc⟩
    · have h1 := World.countP_move (Pc.removing ch) h pc w.feed.onceDo
      have := hc.count ch
      rw [hrem ch] at h1
      simp only [World.move_feed, World.move_subs, Feed.onceDo_inbox, hcases]
      simp only [hempty, List.append_nil] at this
      simp only [List.count_append, List.count_singleton, beq_iff_eq, reduceCtorEq, if_false]
      omega
    · -- no `Unsubscribe` is past the inbox yet
      have h1 := World.countP_move (Pc.removingSent ch) h pc w.feed.onceDo
      have := hc.sent ch
      rw [hsent ch] at h1
      simp only [hempty, List.count_nil] at this
      simp only [World.move_feed, hcases, List.count_singleton, beq_iff_eq, reduceCtorEq,
        if_false]
      omega
  · rw [Feed.onceDo_of_once ho]
    exact hc.move_same h pc w.feed rfl rfl rfl hrem hsent hpc

end Cases

section CasesRun

variable {Chan Ty Val : Type} [DecidableEq Chan] [DecidableEq Ty] {typeOf : Val → Ty}

/-- Every step keeps the cases; the holder of the send lock is the only one to touch
`sendCases`, and it does so after `init`. -/
theorem Cases.step {w w' : World Chan Ty Val} (hl : Locks w) (hc : Cases w)
    (hs : Step typeOf w w') : Cases w' := by
  cases hs with
  | callSubscribe arg => exact hc.call _ (fun _ => rfl) (fun _ => rfl) (by simp)
  | callSend value => exact hc.call _ (fun _ => rfl) (fun _ => rfl) (by simp)
  | @callUnsubscribe ch hmem =>
    -- the subscription leaves `subs`, and its `Unsubscribe` starts
    refine ⟨hc.empty, hc.head, hc.inbox, fun ch' => ?_, fun ch' => ?_, fun pc hmem' => ?_⟩
    · dsimp only [World.call]
      have h1 := count_erase_add hmem ch'
      have := hc.count ch'
      rw [List.countP_append, List.countP_singleton]
      by_cases hch : ch = ch'
      · subst hch
        simp only [beq_self_eq_true, Bool.toNat_true] at h1
        simp only [Pc.removing, decide_true, if_true]
        omega
      · have hne : (ch == ch') = false := by simpa using hch
        simp only [hne, Bool.toNat_false, Nat.add_zero] at h1
        simp only [Pc.removing, hch, decide_false, Bool.false_eq_true, if_false, Nat.add_zero]
        omega
    · dsimp only [World.call]
      simpa [Pc.removingSent] using hc.sent ch'
    · rcases List.mem_append.mp hmem' with hmem' | hmem'
      · exact hc.no_bounds pc hmem'
      · simp at hmem'
        simp [hmem']
  | subscribe h =>
    refine hc.onceDo h _ (fun ch => ?_) (fun ch => ?_) (fun mu s => ?_) <;> unfold subscribeStart <;>
      split <;> (try split) <;> simp [Pc.removing, Pc.removingSent]
  | subscribeLock h hmu =>
    exact hc.move_same h _ _ rfl rfl rfl (fun _ => rfl) (fun _ => rfl) (by simp)
  | @subscribeCheck t ch dir elem pc f h hf =>
    obtain ⟨honce, -, hcases, -, hpc⟩ := Feed.subscribeCheck_spec hf
    split at hpc
    · -- the case goes to the inbox and the subscription to the caller
      rename_i htc
      obtain ⟨rfl, hinbox⟩ := hpc
      simp only [htc, if_true]
      refine ⟨fun h' => ?_, fun h' => ?_, ?_, fun ch' => ?_, fun ch' => ?_,
        no_bounds_set hc.no_bounds t (by simp)⟩ <;> dsimp only [World.move] at *
      · rw [hcases]
        exact hc.empty (honce ▸ h')
      · rw [hcases]
        exact hc.head (honce ▸ h')
      · simpa [hinbox] using hc.inbox
      · have h1 := countP_set_add (Pc.removing ch') h (.returned .subscribed)
        have := hc.count ch'
        simp only [Pc.removing, Bool.toNat_false, Nat.add_zero] at h1
        rw [hinbox, hcases, List.count_append, List.count_append, List.count_singleton,
          List.count_append, List.count_singleton]
        rw [List.count_append] at this
        by_cases hch : ch = ch' <;> simp [hch] <;> omega
      · have h1 := countP_set_add (Pc.removingSent ch') h (.returned .subscribed)
        have := hc.sent ch'
        simp only [Pc.removingSent, Bool.toNat_false, Nat.add_zero] at h1
        rw [hcases]
        omega
    · rename_i htc
      obtain ⟨⟨got, want, rfl⟩, hinbox⟩ := hpc
      simp only [htc, Bool.false_eq_true, if_false]
      exact hc.move_same h _ f honce hcases hinbox (fun _ => rfl) (fun _ => rfl) (by simp)
  | send h =>
    exact hc.onceDo h _ (fun _ => rfl) (fun _ => rfl) (by simp)
  | sendAcquire h hlock =>
    exact hc.move_same h _ _ rfl rfl rfl (fun _ => rfl) (fun _ => rfl) (by simp)
  | sendLockMu h hmu =>
    exact hc.move_same h _ _ rfl rfl rfl (fun _ => rfl) (fun _ => rfl) (by simp)
  | @sendCheck t value pc f h hf =>
    obtain ⟨honce₀, -, -⟩ := hl.holder h rfl
    obtain ⟨honce, hcases, hinbox, hout⟩ := Feed.sendCheck_spec hf
    obtain ⟨hhead, hcount⟩ := hc.head honce₀
    have hpc : (∀ ch, pc.removing ch = false) ∧ (∀ ch, pc.removingSent ch = false) ∧
        ∀ mu s, pc ≠ .panicked .sliceBoundsOutOfRange mu s := by
      rcases hout with ⟨rfl, -⟩ | ⟨got, want, rfl, -⟩ <;> simp [Pc.removing, Pc.removingSent]
    -- the inbox moves behind the cases already there
    have hlen : 0 < w.feed.sendCases.length := by
      rcases hsc : w.feed.sendCases with _ | _
      · simp [hsc] at hhead
      · simp
    refine ⟨fun h' => ?_, fun _ => ⟨?_, ?_⟩, ?_, fun ch => ?_, fun ch => ?_,
      no_bounds_set hc.no_bounds t hpc.2.2⟩ <;> try dsimp only [World.move]
    · dsimp only [World.move] at h'
      rw [honce, honce₀] at h'
      cases h'
    · rw [hcases, List.getElem?_append_left hlen, hhead]
    · have : w.feed.inbox.count .removeSub = 0 := List.count_eq_zero.mpr hc.inbox
      rw [hcases, List.count_append, hcount, this]
    · simp [hinbox]
    · have h1 := countP_set_add (Pc.removing ch) h pc
      have := hc.count ch
      rw [hpc.1 ch] at h1
      simp only [Pc.removing, Bool.toNat_false, Nat.add_zero] at h1
      rw [hinbox, hcases, List.nil_append, List.count_append]
      rw [List.count_append] at this
      omega
    · have h1 := countP_set_add (Pc.removingSent ch) h pc
      have := hc.sent ch
      rw [hpc.2.1 ch] at h1
      simp only [Pc.removingSent, Bool.toNat_false, Nat.add_zero] at h1
      rw [hcases, List.count_append]
      omega
  | @deliver t value n nsent i ch h hi hin hc' =>
    -- `deactivate` exchanges two cases past `sendCases[0]`
    have hi0 : i ≠ 0 := by simp [firstSubSendCase] at hi; omega
    have hn0 : n - 1 ≠ 0 := by simp [firstSubSendCase] at hi; omega
    have := hc.move h (.sending value (w.feed.sendCases.deactivate n i).2 (nsent + 1))
      { w.feed with sendCases := (w.feed.sendCases.deactivate n i).1 } rfl
      (swapAt_perm _ _ _) (getElem?_swapAt_of_ne (Ne.symm hi0) (Ne.symm hn0)) rfl
      (fun _ => rfl) (fun _ => rfl) (by simp)
    exact ⟨this.empty, this.head, this.inbox, this.count, this.sent, this.no_bounds⟩
  | finish h =>
    exact hc.move_same h _ _ rfl rfl rfl (fun _ => rfl) (fun _ => rfl) (by simp)
  | @removeSub t j value n nsent n' ch f h hn hj hf =>
    obtain ⟨honce₀, -, -⟩ := hl.holder h rfl
    obtain ⟨hhead, hcount⟩ := hc.head honce₀
    obtain ⟨i, -, hget, herase, rfl, -⟩ := Feed.removeSubCase_spec hf
    have htj := World.ne_of_removeSub h hj
    have hmem : SelectCase.send ch ∈ w.feed.sendCases := List.mem_of_getElem? hget
    obtain ⟨hhead', hcount'⟩ := erase_send_head hhead ch
    refine ⟨fun h' => ?_, fun _ => ⟨?_, ?_⟩, hc.inbox, fun ch' => ?_, fun ch' => ?_,
      no_bounds_set (no_bounds_set hc.no_bounds t (by simp)) j (by simp)⟩ <;> try dsimp only
    · dsimp only at h'
      rw [honce₀] at h'
      cases h'
    · rw [herase, hhead']
    · rw [herase, hcount', hcount]
    · -- the `remove` returns, and its case goes
      have h1 := World.countP_set_set (Pc.removing ch') h hj htj (.sending value n' nsent)
        (.returned .unsubscribed)
      have h2 := count_erase_add hmem (.send ch')
      have := hc.count ch'
      simp only [Pc.removing, Bool.toNat_false, Nat.add_zero] at h1
      rw [herase, List.count_append]
      rw [List.count_append] at this
      simp only [SelectCase.send_beq_send] at h2
      omega
    · have h1 := World.countP_set_set (Pc.removingSent ch') h hj htj (.sending value n' nsent)
        (.returned .unsubscribed)
      have h2 := count_erase_add hmem (.send ch')
      have := hc.sent ch'
      simp only [Pc.removingSent, Bool.toNat_false, Nat.add_zero] at h1
      rw [herase]
      simp only [SelectCase.send_beq_send] at h2
      omega
  | @removeSubPanic t j value n nsent ch h hn hj hf =>
    -- the `remove` at the `select` has its case in `sendCases`, so the delete finds it
    exact absurd (hc.mem_of_removingSent hj (by simp [Pc.removingSent]))
      (Feed.removeSubCase_eq_none.mp hf)
  | remove h hmu =>
    exact hc.move_same h _ _ rfl rfl rfl (fun _ => rfl) (fun _ => rfl) (by simp)
  | @removeFind t ch pc f h hf =>
    obtain ⟨honce, -, hcases, -, hout⟩ := Feed.removeFind_spec hf
    rcases hout with ⟨hmem, rfl, hinbox⟩ | ⟨hmem, rfl, hinbox⟩
    · -- the case was still in the inbox: deleted there
      refine ⟨fun h' => ?_, fun h' => ?_, ?_, fun ch' => ?_, fun ch' => ?_,
        no_bounds_set hc.no_bounds t (by simp)⟩ <;> dsimp only [World.move] at *
      · rw [hcases]
        exact hc.empty (honce ▸ h')
      · rw [hcases]
        exact hc.head (honce ▸ h')
      · rw [hinbox]
        exact fun h' => hc.inbox (List.mem_of_mem_erase h')
      · have h1 := countP_set_add (Pc.removing ch') h (.returned .unsubscribed)
        have h2 := count_erase_add hmem (.send ch')
        have := hc.count ch'
        simp only [Pc.removing, Bool.toNat_false, Nat.add_zero] at h1
        rw [hinbox, hcases, List.count_append]
        rw [List.count_append] at this
        simp only [SelectCase.send_beq_send] at h2
        omega
      · have h1 := countP_set_add (Pc.removingSent ch') h (.returned .unsubscribed)
        have := hc.sent ch'
        simp only [Pc.removingSent, Bool.toNat_false, Nat.add_zero] at h1
        rw [hcases]
        omega
    · -- not in the inbox: its case is in `sendCases`, where the `select` will find it
      have hzero : w.feed.inbox.count (.send ch) = 0 := List.count_eq_zero.mpr hmem
      refine ⟨fun h' => ?_, fun h' => ?_, ?_, fun ch' => ?_, fun ch' => ?_,
        no_bounds_set hc.no_bounds t (by simp)⟩ <;> dsimp only [World.move] at *
      · rw [hcases]
        exact hc.empty (honce ▸ h')
      · rw [hcases]
        exact hc.head (honce ▸ h')
      · rw [hinbox]
        exact hc.inbox
      · have h1 := countP_set_add (Pc.removing ch') h (.removeSelect ch)
        have := hc.count ch'
        simp only [Pc.removing] at h1
        rw [hinbox, hcases]
        omega
      · have h1 := countP_set_add (Pc.removingSent ch') h (.removeSelect ch)
        have h2 := countP_set_add (Pc.removing ch') h (.removeSelect ch)
        have hle : (w.threads.set t (.removeSelect ch)).countP (Pc.removingSent ch') ≤
            (w.threads.set t (.removeSelect ch)).countP (Pc.removing ch') :=
          List.countP_mono_left fun pc _ => Pc.removing_of_removingSent
        have hcount := hc.count ch'
        have hsent := hc.sent ch'
        simp only [Pc.removing, Pc.removingSent, Bool.toNat_false, Nat.add_zero] at h1 h2
        rw [hcases]
        rw [List.count_append] at hcount
        by_cases hch : ch = ch'
        · subst hch
          simp only [decide_true, Bool.toNat_true] at h1 h2
          omega
        · simp only [hch, decide_false, Bool.toNat_false, Nat.add_zero] at h1 h2
          omega
  | removeTakeLock h hlock =>
    exact hc.move_same h _ _ rfl rfl rfl (fun _ => rfl) (fun _ => rfl) (by simp)
  | @removeDelete t ch pc f h hf =>
    rcases Feed.removeDelete_spec hf with ⟨hmem, rfl, rfl⟩ | ⟨hmem, -, -⟩
    · obtain ⟨honce₀, -, -⟩ := hl.holder h rfl
      obtain ⟨hhead, hcount⟩ := hc.head honce₀
      obtain ⟨hhead', hcount'⟩ := erase_send_head hhead ch
      refine ⟨fun h' => ?_, fun _ => ⟨hhead', hcount' ▸ hcount⟩, hc.inbox, fun ch' => ?_,
        fun ch' => ?_, no_bounds_set hc.no_bounds t (by simp)⟩ <;> try dsimp only [World.move]
      · dsimp only [World.move] at h'
        rw [honce₀] at h'
        cases h'
      · have h1 := countP_set_add (Pc.removing ch') h (.returned .unsubscribed)
        have h2 := count_erase_add hmem (.send ch')
        have := hc.count ch'
        simp only [Pc.removing, Bool.toNat_false, Nat.add_zero] at h1
        rw [List.count_append]
        rw [List.count_append] at this
        simp only [SelectCase.send_beq_send] at h2
        omega
      · have h1 := countP_set_add (Pc.removingSent ch') h (.returned .unsubscribed)
        have h2 := count_erase_add hmem (.send ch')
        have := hc.sent ch'
        simp only [Pc.removingSent, Bool.toNat_false, Nat.add_zero] at h1
        simp only [SelectCase.send_beq_send] at h2
        omega
    · -- the thread at the delete has its case in `sendCases`
      exact absurd (hc.mem_of_removingSent h (by simp [Pc.removingSent])) hmem

end CasesRun

/-! ### What a `Send` delivered -/

namespace caseList

variable {Chan : Type}

@[simp] theorem chans_nil : chans ([] : caseList Chan) = 0 := rfl

@[simp] theorem chans_cons_removeSub (cs : caseList Chan) : chans (.removeSub :: cs) = chans cs :=
  rfl

@[simp] theorem chans_cons_send (ch : Chan) (cs : caseList Chan) :
    chans (.send ch :: cs) = ch ::ₘ chans cs := rfl

theorem chans_perm {cs cs' : caseList Chan} (h : cs.Perm cs') : chans cs = chans cs' :=
  Multiset.coe_eq_coe.mpr (h.filterMap _)

/-- Taking out a case on `ch` takes `ch` out of the channels. -/
theorem chans_eraseIdx_add {cs : caseList Chan} {i : Nat} {ch : Chan}
    (h : cs[i]? = some (.send ch)) : chans (cs.eraseIdx i) + {ch} = chans cs := by
  obtain ⟨hi, hget⟩ := List.getElem?_eq_some_iff.mp h
  rw [← chans_perm (List.getElem_cons_eraseIdx_perm hi), hget, chans_cons_send,
    ← Multiset.singleton_add, add_comm]

/-- Past a receive from `removeSub` at the head, the channels are those of the whole list. -/
theorem chans_drop_head {cs : caseList Chan} (h : cs[0]? = some .removeSub) :
    chans (cs.drop firstSubSendCase) = chans cs := by
  cases cs with
  | nil => cases h
  | cons c cs =>
    obtain rfl : c = .removeSub := by simpa using h
    rfl

/-- `deactivate` past the head keeps the channels past the head. -/
theorem chans_drop_deactivate {cs : caseList Chan} {n i : Nat} (hi : firstSubSendCase ≤ i)
    (hin : i < n) :
    chans ((cs.deactivate n i).1.drop firstSubSendCase) = chans (cs.drop firstSubSendCase) := by
  simp only [deactivate, firstSubSendCase] at hi ⊢
  rw [drop_swapAt hi (by omega)]
  exact chans_perm (swapAt_perm _ _ _)

/-- Taking out a case on `ch` past the head takes `ch` out of the channels past the head. -/
theorem chans_drop_eraseIdx_add {cs : caseList Chan} {i : Nat} {ch : Chan}
    (hi : firstSubSendCase ≤ i) (h : cs[i]? = some (.send ch)) :
    chans ((cs.eraseIdx i).drop firstSubSendCase) + {ch} = chans (cs.drop firstSubSendCase) := by
  rw [drop_eraseIdx_of_le hi]
  apply chans_eraseIdx_add
  rw [List.getElem?_drop, Nat.add_sub_cancel' hi]
  exact h

theorem count_chans [DecidableEq Chan] (cs : caseList Chan) (ch : Chan) :
    (chans cs).count ch = cs.count (.send ch) := by
  induction cs with
  | nil => rfl
  | cons c cs ih =>
    cases c with
    | removeSub => simp [ih]
    | send c =>
      by_cases h : ch = c
      · subst h
        simp [ih]
      · simp [ih, h, Ne.symm h]

end caseList

/-- The thread that made the operation. -/
def ChanOp.sender {Chan Val : Type} : ChanOp Chan Val → Nat
  | .delivered s .. | .removed s .. => s

section Log

variable {Chan Val : Type}

theorem deliveries_append_of_ne (log : List (ChanOp Chan Val)) (op : ChanOp Chan Val) {t : Nat}
    (h : op.sender ≠ t) : deliveries (log ++ [op]) t = deliveries log t := by
  cases op with
  | delivered s ch v =>
    simp only [ChanOp.sender] at h
    simp [h]
  | removed s ch => simp

theorem removals_append_of_ne (log : List (ChanOp Chan Val)) (op : ChanOp Chan Val) {t : Nat}
    (h : op.sender ≠ t) : removals (log ++ [op]) t = removals log t := by
  cases op with
  | delivered s ch v => simp
  | removed s ch =>
    simp only [ChanOp.sender] at h
    simp [h]

end Log

section Looping

variable {Chan Val : Type} {cs : caseList Chan} {log : List (ChanOp Chan Val)} {t n nsent : Nat}

/-- The `Send` at `t` in its loop, with `cases` the first `n` cases of `cs` and `nsent` sends
made (module doc). -/
structure Looping (cs : caseList Chan) (log : List (ChanOp Chan Val)) (t n nsent : Nat) :
    Prop where
  one_le : firstSubSendCase ≤ n
  le_length : n ≤ cs.length
  /-- Each case past `cases` was delivered to. -/
  delivered : caseList.chans (cs.drop n) ≤ deliveries log t
  /-- Every other delivery went to a channel whose `Unsubscribe` took its case out. -/
  bounded : deliveries log t ≤ caseList.chans (cs.drop n) + removals log t
  nsent : nsent = Multiset.card (deliveries log t)

/-- `cases := f.sendCases`, with nothing sent yet. -/
theorem Looping.start (hlen : firstSubSendCase ≤ cs.length) (hd : deliveries log t = 0) :
    Looping cs log t cs.length 0 where
  one_le := hlen
  le_length := le_refl _
  delivered := by simp [hd]
  bounded := by simp [hd]
  nsent := by simp [hd]

/-- The channel of active case `i` receives: `deactivate` moves the case past `cases`. -/
theorem Looping.deliver (hl : Looping cs log t n nsent) {i : Nat} {ch : Chan}
    (hi : firstSubSendCase ≤ i) (hin : i < n) (hc : cs[i]? = some (.send ch)) (value : Val) :
    Looping (cs.deactivate n i).1 (log ++ [.delivered t ch value]) t (cs.deactivate n i).2
      (nsent + 1) := by
  have hil : i < cs.length := Nat.lt_of_lt_of_le hin hl.le_length
  have hcs : cs[i] = .send ch := by simpa [List.getElem?_eq_getElem hil] using hc
  have hdrop : (cs.deactivate n i).1.drop (cs.deactivate n i).2 = .send ch :: cs.drop n := by
    simp only [caseList.deactivate]
    rw [drop_swapAt_pred hin hl.le_length, hcs]
  have hD : deliveries (log ++ [.delivered t ch value]) t = ch ::ₘ deliveries log t := by
    simp [← Multiset.singleton_add, add_comm]
  have hR : removals (log ++ [.delivered t ch value]) t = removals log t := by simp
  refine ⟨?_, ?_, ?_, ?_, ?_⟩
  · simp only [caseList.deactivate, firstSubSendCase] at hi ⊢
    omega
  · simp only [caseList.deactivate, length_swapAt]
    have := hl.le_length
    omega
  · rw [hdrop, hD, caseList.chans_cons_send]
    exact Multiset.cons_le_cons ch hl.delivered
  · rw [hdrop, hD, hR, caseList.chans_cons_send, Multiset.cons_add]
    exact Multiset.cons_le_cons ch hl.bounded
  · rw [hD, Multiset.card_cons, hl.nsent]

/-- `Send` received `ch` from `removeSub` and deleted its case at `i`. -/
theorem Looping.removeSub (hl : Looping cs log t n nsent) (hn : n ≠ firstSubSendCase) {i : Nat}
    {ch : Chan} (hget : cs[i]? = some (.send ch)) :
    Looping (cs.eraseIdx i) (log ++ [.removed t ch]) t (if i < n then n - 1 else n) nsent := by
  have hil : i < cs.length := (List.getElem?_eq_some_iff.mp hget).1
  have hlen : (cs.eraseIdx i).length = cs.length - 1 := List.length_eraseIdx_of_lt hil
  have hD : deliveries (log ++ [.removed t ch]) t = deliveries log t := by simp
  have hR : removals (log ++ [.removed t ch]) t = removals log t + {ch} := by simp
  have hone := hl.one_le
  have hle := hl.le_length
  simp only [firstSubSendCase] at hn hone
  split
  · -- the case was active: `cases` loses it, and the inactive part stays
    rename_i hin
    have hdrop : (cs.eraseIdx i).drop (n - 1) = cs.drop n := drop_eraseIdx_of_lt hin
    refine ⟨by simp only [firstSubSendCase]; omega, by omega, ?_, ?_, ?_⟩
    · rw [hdrop, hD]
      exact hl.delivered
    · rw [hdrop, hD, hR, ← add_assoc]
      exact le_add_right hl.bounded
    · rw [hD]
      exact hl.nsent
  · -- the case was inactive: it was delivered to, and now it is one of the removals
    rename_i hin
    have hget' : (cs.drop n)[i - n]? = some (.send ch) := by
      rw [List.getElem?_drop, Nat.add_sub_cancel' (by omega)]
      exact hget
    have hchans := caseList.chans_eraseIdx_add hget'
    rw [← drop_eraseIdx_of_le (by omega)] at hchans
    refine ⟨hl.one_le, by omega, ?_, ?_, ?_⟩
    · rw [hD]
      exact le_trans (by rw [← hchans]; exact le_add_right le_rfl) hl.delivered
    · rw [hD, hR, ← add_assoc, add_right_comm, hchans]
      exact hl.bounded
    · rw [hD]
      exact hl.nsent

/-- An operation of another thread leaves the loop as it was. -/
theorem Looping.append_of_ne (hl : Looping cs log t n nsent) {op : ChanOp Chan Val}
    (h : op.sender ≠ t) : Looping cs (log ++ [op]) t n nsent := by
  have hD := deliveries_append_of_ne log op h
  have hR := removals_append_of_ne log op h
  exact ⟨hl.one_le, hl.le_length, hD ▸ hl.delivered, hD ▸ hR ▸ hl.bounded, hD ▸ hl.nsent⟩

end Looping

section Threads

variable {Chan Ty Val : Type}

namespace World

/-- After a call, a thread is one that was there or the new one. -/
theorem getElem?_call {w : World Chan Ty Val} {pc p : Pc Chan Ty Val} {u : Nat}
    (hu : (w.call pc).threads[u]? = some p) : w.threads[u]? = some p ∨ p = pc := by
  rw [call_threads, List.getElem?_append] at hu
  split at hu
  · exact .inl hu
  · exact .inr (List.mem_singleton.mp (List.mem_of_getElem? hu))

theorem getElem?_call_of_getElem? {w : World Chan Ty Val} {u : Nat} {p : Pc Chan Ty Val}
    (h : w.threads[u]? = some p) (pc : Pc Chan Ty Val) : (w.call pc).threads[u]? = some p := by
  rw [call_threads, List.getElem?_append_left (List.getElem?_eq_some_iff.mp h).1]
  exact h

/-- What holds of every thread after a call held of every thread before it. -/
theorem all_call {w : World Chan Ty Val} {pc : Pc Chan Ty Val} {q : Pc Chan Ty Val → Bool}
    {u : Nat} (hu : ((w.call pc).threads[u]?).all q = true) : (w.threads[u]?).all q = true := by
  rw [call_threads, List.getElem?_append] at hu
  split at hu
  · exact hu
  · rw [List.getElem?_eq_none (by omega)]
    rfl

end World

/-- A thread that holds the send lock and is not in the loop of `Send` leaves no `Send` in its
loop. -/
theorem Locks.no_sending {w : World Chan Ty Val} (hl : Locks w) {t : Nat} {pc : Pc Chan Ty Val}
    (h : w.threads[t]? = some pc) (hpc : pc.holdsSendLock = true) (hns : pc.looped = false)
    {u : Nat} {value : Val} {n nsent : Nat} (hu : w.threads[u]? = some (.sending value n nsent)) :
    False := by
  obtain rfl := (hl.holder h hpc).2.2 u _ hu rfl
  rw [h] at hu
  cases hu
  simp [Pc.looped] at hns

theorem subscribeStart_looped (arg : SubArg Chan Ty) :
    (subscribeStart arg : Pc Chan Ty Val).looped = false := by
  unfold subscribeStart
  split
  · split <;> rfl
  · rfl

end Threads

section Sends

variable {Chan Ty Val : Type}

/-- The deliveries of every `Send` (module doc). -/
structure Sends (w : World Chan Ty Val) : Prop where
  looping : ∀ t value n nsent, w.threads[t]? = some (.sending value n nsent) →
    Looping w.feed.sendCases w.log t n nsent
  /-- A `Send` returns the number of its deliveries. -/
  returned : ∀ t nsent, w.threads[t]? = some (.returned (.sent nsent)) →
    nsent = Multiset.card (deliveries w.log t)
  /-- A thread that did not get to the loop of `Send` delivered nothing. -/
  quiet : ∀ t, (w.threads[t]?).all (fun pc => !pc.looped) = true →
    deliveries w.log t = 0 ∧ removals w.log t = 0

theorem Sends.zero : Sends (World.zero : World Chan Ty Val) where
  looping _ _ _ _ h := by simp [World.zero] at h
  returned _ _ h := by simp [World.zero] at h
  quiet _ _ := ⟨rfl, rfl⟩

/-- A step of one thread outside the loop of `Send` that leaves `sendCases` alone while a `Send`
is in its loop. -/
theorem Sends.move {w : World Chan Ty Val} (hs : Sends w) {t : Nat} {old : Pc Chan Ty Val}
    (h : w.threads[t]? = some old) (pc : Pc Chan Ty Val) (f : Feed Chan Ty)
    (hold : old.looped = false) (hpc : pc.looped = false)
    (hcases : ∀ (u : Nat) (value : Val) (n nsent : Nat),
      w.threads[u]? = some (.sending value n nsent) →
      f.sendCases = w.feed.sendCases) :
    Sends (w.move t pc f) where
  looping u value n nsent hu := by
    rw [World.move_threads, getElem?_set_of_getElem? h] at hu
    split at hu
    · cases hu
      cases hpc
    · rw [World.move_feed, World.move_log, hcases u value n nsent hu]
      exact hs.looping u value n nsent hu
  returned u nsent hu := by
    rw [World.move_threads, getElem?_set_of_getElem? h] at hu
    split at hu
    · cases hu
      cases hpc
    · exact hs.returned u nsent hu
  quiet u hu := by
    rw [World.move_threads, getElem?_set_of_getElem? h] at hu
    split at hu
    · rename_i htu
      subst htu
      exact hs.quiet t (by simp [h, hold])
    · exact hs.quiet u hu

/-- A call adds a thread outside the loop of `Send`. -/
theorem Sends.call {w : World Chan Ty Val} (hs : Sends w) (pc : Pc Chan Ty Val)
    (hpc : pc.looped = false) : Sends (w.call pc) where
  looping u value n nsent hu := by
    rcases World.getElem?_call hu with hu | rfl
    · exact hs.looping u value n nsent hu
    · cases hpc
  returned u nsent hu := by
    rcases World.getElem?_call hu with hu | rfl
    · exact hs.returned u nsent hu
    · cases hpc
  quiet u hu := hs.quiet u (World.all_call hu)

/-- The type check passed and the loop starts, with no other `Send` in its loop. -/
theorem Sends.begin {w : World Chan Ty Val} (hs : Sends w) {t : Nat} {old : Pc Chan Ty Val}
    (h : w.threads[t]? = some old) (hold : old.looped = false)
    (hnone : ∀ (u : Nat) (value : Val) (n nsent : Nat),
      w.threads[u]? = some (.sending value n nsent) → False)
    (value : Val) (f : Feed Chan Ty) (hlen : firstSubSendCase ≤ f.sendCases.length) :
    Sends (w.move t (.sending value f.sendCases.length 0) f) where
  looping u v n nsent hu := by
    rw [World.move_threads, getElem?_set_of_getElem? h] at hu
    split at hu
    · rename_i htu
      subst htu
      cases hu
      exact Looping.start hlen (hs.quiet t (by simp [h, hold])).1
    · exact (hnone u v n nsent hu).elim
  returned u nsent hu := by
    rw [World.move_threads, getElem?_set_of_getElem? h] at hu
    split at hu
    · cases hu
    · exact hs.returned u nsent hu
  quiet u hu := by
    rw [World.move_threads, getElem?_set_of_getElem? h] at hu
    split at hu
    · simp [Pc.looped] at hu
    · exact hs.quiet u hu

section Loop

variable {w : World Chan Ty Val} {t : Nat} {value : Val} {n nsent : Nat}

/-- A delivery by the only `Send` in its loop. -/
theorem Sends.deliver (hs : Sends w) (h : w.threads[t]? = some (.sending value n nsent))
    (hone : ∀ u v n' ns, w.threads[u]? = some (.sending v n' ns) → u = t) {i : Nat} {ch : Chan}
    (hi : firstSubSendCase ≤ i) (hin : i < n) (hc : w.feed.sendCases[i]? = some (.send ch)) :
    Sends { w.move t (.sending value (w.feed.sendCases.deactivate n i).2 (nsent + 1))
        { w.feed with sendCases := (w.feed.sendCases.deactivate n i).1 } with
      log := w.log ++ [.delivered t ch value] } where
  looping u v n' ns hu := by
    dsimp only [World.move] at hu ⊢
    rw [getElem?_set_of_getElem? h] at hu
    split at hu
    · rename_i htu
      subst htu
      cases hu
      exact (hs.looping t value n nsent h).deliver hi hin hc value
    · exact absurd (hone u v n' ns hu).symm ‹_›
  returned u ns hu := by
    dsimp only [World.move] at hu ⊢
    rw [getElem?_set_of_getElem? h] at hu
    split at hu
    · cases hu
    · rw [deliveries_append_of_ne _ (.delivered t ch value) ‹_›]
      exact hs.returned u ns hu
  quiet u hu := by
    dsimp only [World.move] at hu ⊢
    rw [getElem?_set_of_getElem? h] at hu
    split at hu
    · simp [Pc.looped] at hu
    · rw [deliveries_append_of_ne _ (.delivered t ch value) ‹_›,
        removals_append_of_ne _ (.delivered t ch value) ‹_›]
      exact hs.quiet u hu

/-- The loop ends: the `Send` returns its count. -/
theorem Sends.finish (hs : Sends w) (h : w.threads[t]? = some (.sending value n nsent))
    (hone : ∀ u v n' ns, w.threads[u]? = some (.sending v n' ns) → u = t) (f : Feed Chan Ty) :
    Sends (w.move t (.returned (.sent nsent)) f) where
  looping u v n' ns hu := by
    rw [World.move_threads, getElem?_set_of_getElem? h] at hu
    split at hu
    · cases hu
    · exact absurd (hone u v n' ns hu).symm ‹_›
  returned u ns hu := by
    rw [World.move_threads, getElem?_set_of_getElem? h] at hu
    split at hu
    · rename_i htu
      subst htu
      cases hu
      exact (hs.looping t value n nsent h).nsent
    · exact hs.returned u ns hu
  quiet u hu := by
    rw [World.move_threads, getElem?_set_of_getElem? h] at hu
    split at hu
    · simp [Pc.looped] at hu
    · exact hs.quiet u hu

/-- The `Send` and an `Unsubscribe` meet on `removeSub`: the case goes, and the `Unsubscribe`
returns. -/
theorem Sends.removeSub [DecidableEq Chan] (hs : Sends w)
    (h : w.threads[t]? = some (.sending value n nsent)) (hn : n ≠ firstSubSendCase) {j : Nat}
    {ch : Chan} (hj : w.threads[j]? = some (.removeSelect ch))
    (hone : ∀ u v n' ns, w.threads[u]? = some (.sending v n' ns) → u = t) {f : Feed Chan Ty}
    {n' : Nat} (hf : w.feed.removeSubCase n ch = some (f, n')) :
    Sends { w with feed := f
                   threads := (w.threads.set t (.sending value n' nsent)).set j
                     (.returned .unsubscribed)
                   log := w.log ++ [.removed t ch] } := by
  obtain ⟨i, -, hget, -, rfl, rfl⟩ := Feed.removeSubCase_spec hf
  have htj := World.ne_of_removeSub h hj
  have hj' : (w.threads.set t (.sending value (if i < n then n - 1 else n) nsent))[j]? =
      some (.removeSelect ch) := by
    rw [getElem?_set_of_getElem? h, if_neg htj, hj]
  refine ⟨fun u v n'' ns hu => ?_, fun u ns hu => ?_, fun u hu => ?_⟩ <;>
    dsimp only at hu ⊢ <;> rw [getElem?_set_of_getElem? hj', getElem?_set_of_getElem? h] at hu
  · split at hu
    · cases hu
    · split at hu
      · rename_i htu
        subst htu
        cases hu
        exact (hs.looping t value n nsent h).removeSub hn hget
      · exact absurd (hone u v n'' ns hu).symm ‹_›
  · split at hu
    · cases hu
    · split at hu
      · cases hu
      · rw [deliveries_append_removed]
        exact hs.returned u ns hu
  · split at hu
    · -- the `Unsubscribe` returns, having delivered nothing
      rename_i hju
      subst hju
      rw [deliveries_append_removed, removals_append_of_ne _ (.removed t ch) htj]
      exact hs.quiet j (by simp [hj, Pc.looped])
    · split at hu
      · simp [Pc.looped] at hu
      · rw [deliveries_append_removed, removals_append_of_ne _ (.removed t ch) ‹_›]
        exact hs.quiet u hu

end Loop

end Sends

section SendsRun

variable {Chan Ty Val : Type} [DecidableEq Chan] [DecidableEq Ty] {typeOf : Val → Ty}

/-- Every step keeps the deliveries of every `Send`: only the holder of the send lock touches
`sendCases`, and only a `Send` in its loop logs. -/
theorem Sends.step {w w' : World Chan Ty Val} (hl : Locks w) (hc : Cases w) (hs : Sends w)
    (hstep : Step typeOf w w') : Sends w' := by
  -- while a `Send` is in its loop, `init` has run
  have honce : ∀ (u : Nat) (value : Val) (n nsent : Nat),
      w.threads[u]? = some (.sending value n nsent) → w.feed.onceDo.sendCases = w.feed.sendCases :=
    fun u _ _ _ hu => by rw [Feed.onceDo_of_once (hl.holder hu rfl).1]
  cases hstep with
  | callSubscribe arg => exact hs.call _ rfl
  | callSend value => exact hs.call _ rfl
  | @callUnsubscribe ch hmem =>
    have := hs.call (.remove ch) rfl
    exact ⟨this.looping, this.returned, this.quiet⟩
  | subscribe h => exact hs.move h _ _ rfl (subscribeStart_looped _) honce
  | subscribeLock h hmu => exact hs.move h _ _ rfl rfl fun _ _ _ _ _ => rfl
  | @subscribeCheck t ch dir elem pc f h hf =>
    obtain ⟨-, -, hcases, -, hpc⟩ := Feed.subscribeCheck_spec hf
    have hpc' : pc.looped = false := by
      split at hpc
      · rw [hpc.1]
        rfl
      · obtain ⟨⟨got, want, rfl⟩, -⟩ := hpc
        rfl
    have := hs.move h pc f rfl hpc' fun _ _ _ _ _ => hcases
    exact ⟨this.looping, this.returned, this.quiet⟩
  | send h => exact hs.move h _ _ rfl rfl honce
  | sendAcquire h hlock => exact hs.move h _ _ rfl rfl fun _ _ _ _ _ => rfl
  | sendLockMu h hmu => exact hs.move h _ _ rfl rfl fun _ _ _ _ _ => rfl
  | @sendCheck t value pc f h hf =>
    obtain ⟨honce₀, -, -⟩ := hl.holder h rfl
    obtain ⟨-, hcases, -, hout⟩ := Feed.sendCheck_spec hf
    -- the holder of the send lock is at its type check: no `Send` is in its loop
    have hnone : ∀ (u : Nat) (v : Val) (n nsent : Nat),
        w.threads[u]? = some (.sending v n nsent) → False :=
      fun _ _ _ _ hu => hl.no_sending h rfl rfl hu
    rcases hout with ⟨rfl, -, -⟩ | ⟨got, want, rfl, -, -⟩
    · have hlen : firstSubSendCase ≤ f.sendCases.length := by
        obtain ⟨hhead, -⟩ := hc.head honce₀
        rw [hcases, List.length_append]
        have := (List.getElem?_eq_some_iff.mp hhead).1
        simp only [firstSubSendCase]
        omega
      rw [← hcases]
      exact hs.begin h rfl hnone value f hlen
    · exact hs.move h _ f rfl rfl fun u v n nsent hu => (hnone u v n nsent hu).elim
  | @deliver t value n nsent i ch h hi hin hc' =>
    exact hs.deliver h (fun u _ _ _ hu => (hl.holder h rfl).2.2 u _ hu rfl) hi hin hc'
  | finish h =>
    exact hs.finish h (fun u _ _ _ hu => (hl.holder h rfl).2.2 u _ hu rfl) _
  | removeSub h hn hj hf =>
    exact hs.removeSub h hn hj (fun u _ _ _ hu => (hl.holder h rfl).2.2 u _ hu rfl) hf
  | removeSubPanic h hn hj hf =>
    exact absurd (hc.mem_of_removingSent hj (by simp [Pc.removingSent]))
      (Feed.removeSubCase_eq_none.mp hf)
  | remove h hmu => exact hs.move h _ _ rfl rfl fun _ _ _ _ _ => rfl
  | removeFind h hf =>
    obtain ⟨-, -, hcases, -, hout⟩ := Feed.removeFind_spec hf
    rcases hout with ⟨-, rfl, -⟩ | ⟨-, rfl, -⟩
    · exact hs.move h _ _ rfl rfl fun _ _ _ _ _ => hcases
    · exact hs.move h _ _ rfl rfl fun _ _ _ _ _ => hcases
  | removeTakeLock h hlock => exact hs.move h _ _ rfl rfl fun _ _ _ _ _ => rfl
  | removeDelete h hf =>
    -- the `Unsubscribe` holds the send lock: no `Send` is in its loop
    rcases Feed.removeDelete_spec hf with ⟨-, rfl, rfl⟩ | ⟨-, rfl, rfl⟩
    · exact hs.move h _ _ rfl rfl fun _ _ _ _ hu => (hl.no_sending h rfl rfl hu).elim
    · exact hs.move h _ _ rfl rfl fun _ _ _ _ _ => rfl

/-- In every world a run reaches: the locks, the cases and the deliveries of every `Send`. -/
theorem Reachable.sends {w : World Chan Ty Val} (hr : Reachable typeOf w) :
    Locks w ∧ Cases w ∧ Sends w := by
  induction hr with
  | refl => exact ⟨Locks.zero, Cases.zero, Sends.zero⟩
  | tail _ hs ih => exact ⟨ih.1.step hs, ih.2.1.step ih.1 hs, ih.2.2.step ih.1 ih.2.1 hs⟩

end SendsRun

/-! ### A `Send` from its type check to its return -/

section Tracked

variable {Chan Ty Val : Type} {S : Multiset Chan} {t : Nat}

/-- The `Send` at `t`, which started its loop with the channels `S` past `sendCases[0]`: in its
loop, with those still in `sendCases` or received from `removeSub`; or returned, having
delivered to each of them at most once, and to each that it did not receive. -/
def Tracked (S : Multiset Chan) (t : Nat) (w : World Chan Ty Val) : Prop :=
  (∃ value n nsent, w.threads[t]? = some (.sending value n nsent) ∧
      caseList.chans (w.feed.sendCases.drop firstSubSendCase) + removals w.log t = S) ∨
    ∃ nsent, w.threads[t]? = some (.returned (.sent nsent)) ∧
      deliveries w.log t ≤ S ∧ S ≤ deliveries w.log t + removals w.log t

/-- A thread outside the loop of `Send` is not the tracked one. -/
theorem Tracked.ne {w : World Chan Ty Val} (ht : Tracked S t w) {u : Nat} {old : Pc Chan Ty Val}
    (h : w.threads[u]? = some old) (hold : old.looped = false) : u ≠ t := by
  rintro rfl
  rcases ht with ⟨value, n, nsent, h', -⟩ | ⟨nsent, h', -⟩ <;> rw [h] at h' <;> cases h' <;>
    cases hold

/-- A step of another thread, which leaves `sendCases` alone while the `Send` is in its loop. -/
theorem Tracked.move {w : World Chan Ty Val} (ht : Tracked S t w) {u : Nat}
    {old : Pc Chan Ty Val} (h : w.threads[u]? = some old) (hold : old.looped = false)
    (pc : Pc Chan Ty Val) (f : Feed Chan Ty)
    (hcases : ∀ (value : Val) (n nsent : Nat), w.threads[t]? = some (.sending value n nsent) →
      f.sendCases = w.feed.sendCases) :
    Tracked S t (w.move u pc f) := by
  have hget : (w.move u pc f).threads[t]? = w.threads[t]? := by
    rw [World.move_threads, getElem?_set_of_getElem? h, if_neg (ht.ne h hold)]
  rcases ht with ⟨value, n, nsent, hts, hS⟩ | ⟨nsent, htr, hD, hS⟩
  · refine .inl ⟨value, n, nsent, hget.trans hts, ?_⟩
    rw [World.move_feed, World.move_log, hcases value n nsent hts]
    exact hS
  · exact .inr ⟨nsent, hget.trans htr, hD, hS⟩

theorem Tracked.call {w : World Chan Ty Val} (ht : Tracked S t w) (pc : Pc Chan Ty Val) :
    Tracked S t (w.call pc) := by
  rcases ht with ⟨value, n, nsent, hts, hS⟩ | ⟨nsent, htr, hD, hS⟩
  · exact .inl ⟨value, n, nsent, World.getElem?_call_of_getElem? hts pc, hS⟩
  · exact .inr ⟨nsent, World.getElem?_call_of_getElem? htr pc, hD, hS⟩

section Loop

variable {w : World Chan Ty Val} {u : Nat} {value : Val} {n nsent : Nat}

/-- A delivery keeps the channels past the head; it is the tracked `Send`'s own, or that of
another `Send` after the tracked one returned. -/
theorem Tracked.deliver (ht : Tracked S t w) (hl : Locks w)
    (h : w.threads[u]? = some (.sending value n nsent)) {i : Nat} {ch : Chan}
    (hi : firstSubSendCase ≤ i) (hin : i < n) :
    Tracked S t { w.move u (.sending value (w.feed.sendCases.deactivate n i).2 (nsent + 1))
          { w.feed with sendCases := (w.feed.sendCases.deactivate n i).1 } with
        log := w.log ++ [.delivered u ch value] } := by
  rcases ht with ⟨v, m, ns, hts, hS⟩ | ⟨ns, htr, hD, hS⟩
  · -- the tracked `Send` is the only one in its loop
    obtain rfl := (hl.holder hts rfl).2.2 u _ h rfl
    refine .inl ⟨value, (w.feed.sendCases.deactivate n i).2, nsent + 1, ?_, ?_⟩ <;>
      dsimp only [World.move]
    · rw [getElem?_set_of_getElem? h, if_pos rfl]
    · rw [caseList.chans_drop_deactivate hi hin, removals_append_delivered]
      exact hS
  · have hut : u ≠ t := by
      rintro rfl
      rw [htr] at h
      cases h
    refine .inr ⟨ns, ?_, ?_, ?_⟩ <;> dsimp only [World.move]
    · rw [getElem?_set_of_getElem? h, if_neg hut]
      exact htr
    · rw [deliveries_append_of_ne _ (.delivered u ch value) hut]
      exact hD
    · rw [deliveries_append_of_ne _ (.delivered u ch value) hut, removals_append_delivered]
      exact hS

/-- The loop of the tracked `Send` ends with every case past the head delivered to. -/
theorem Tracked.finish (ht : Tracked S t w) (hl : Locks w) (hs : Sends w)
    (h : w.threads[u]? = some (.sending value firstSubSendCase nsent)) (f : Feed Chan Ty) :
    Tracked S t (w.move u (.returned (.sent nsent)) f) := by
  rcases ht with ⟨v, m, ns, hts, hS⟩ | ⟨ns, htr, hD, hS⟩
  · obtain rfl := (hl.holder hts rfl).2.2 u _ h rfl
    have hloop := hs.looping u value _ nsent h
    refine .inr ⟨nsent, ?_, ?_, ?_⟩
    · rw [World.move_threads, getElem?_set_of_getElem? h, if_pos rfl]
    · rw [World.move_log, ← hS]
      exact hloop.bounded
    · rw [World.move_log, ← hS]
      exact add_le_add hloop.delivered le_rfl
  · have hut : u ≠ t := by
      rintro rfl
      rw [htr] at h
      cases h
    refine .inr ⟨ns, ?_, hD, hS⟩
    rw [World.move_threads, getElem?_set_of_getElem? h, if_neg hut]
    exact htr

/-- A receive from `removeSub` moves a channel past the head to the removals. -/
theorem Tracked.removeSub [DecidableEq Chan] (ht : Tracked S t w) (hl : Locks w) (hc : Cases w)
    (h : w.threads[u]? = some (.sending value n nsent)) {j : Nat} {ch : Chan}
    (hj : w.threads[j]? = some (.removeSelect ch)) {f : Feed Chan Ty} {n' : Nat}
    (hf : w.feed.removeSubCase n ch = some (f, n')) :
    Tracked S t { w with feed := f
                         threads := (w.threads.set u (.sending value n' nsent)).set j
                           (.returned .unsubscribed)
                         log := w.log ++ [.removed u ch] } := by
  obtain ⟨i, -, hget, -, rfl, -⟩ := Feed.removeSubCase_spec hf
  have huj := World.ne_of_removeSub h hj
  have hj' : (w.threads.set u (.sending value n' nsent))[j]? = some (.removeSelect ch) := by
    rw [getElem?_set_of_getElem? h, if_neg huj, hj]
  rcases ht with ⟨v, m, ns, hts, hS⟩ | ⟨ns, htr, hD, hS⟩
  · obtain rfl := (hl.holder hts rfl).2.2 u _ h rfl
    -- the deleted case is past the receive from `removeSub` at the head
    obtain ⟨hhead, -⟩ := hc.head (hl.holder h rfl).1
    have hi : firstSubSendCase ≤ i := by
      rcases Nat.eq_zero_or_pos i with rfl | hi
      · rw [hhead] at hget
        cases hget
      · exact hi
    refine .inl ⟨value, n', nsent, ?_, ?_⟩ <;> dsimp only
    · rw [getElem?_set_of_getElem? hj', if_neg huj.symm, getElem?_set_of_getElem? h, if_pos rfl]
    · rw [removals_append_removed, if_pos rfl, add_comm (removals w.log u), ← add_assoc,
        caseList.chans_drop_eraseIdx_add hi hget]
      exact hS
  · have hut : u ≠ t := by
      rintro rfl
      rw [htr] at h
      cases h
    have hjt : j ≠ t := by
      rintro rfl
      rw [htr] at hj
      cases hj
    refine .inr ⟨ns, ?_, ?_, ?_⟩ <;> dsimp only
    · rw [getElem?_set_of_getElem? hj', if_neg hjt, getElem?_set_of_getElem? h, if_neg hut]
      exact htr
    · rw [deliveries_append_removed]
      exact hD
    · rw [deliveries_append_removed, removals_append_of_ne _ (.removed u ch) hut]
      exact hS

end Loop

variable [DecidableEq Chan] [DecidableEq Ty] {typeOf : Val → Ty}

/-- Every step keeps the tracked `Send` tracked. -/
theorem Tracked.step {w w' : World Chan Ty Val} (hl : Locks w) (hc : Cases w) (hs : Sends w)
    (ht : Tracked S t w) (hstep : Step typeOf w w') : Tracked S t w' := by
  -- while the tracked `Send` is in its loop, `init` has run
  have honce : ∀ (value : Val) (n nsent : Nat), w.threads[t]? = some (.sending value n nsent) →
      w.feed.onceDo.sendCases = w.feed.sendCases :=
    fun _ _ _ hts => by rw [Feed.onceDo_of_once (hl.holder hts rfl).1]
  cases hstep with
  | callSubscribe arg => exact ht.call _
  | callSend value => exact ht.call _
  | @callUnsubscribe ch hmem => exact ht.call (.remove ch)
  | subscribe h => exact ht.move h rfl _ _ honce
  | subscribeLock h hmu => exact ht.move h rfl _ _ fun _ _ _ _ => rfl
  | subscribeCheck h hf =>
    obtain ⟨-, -, hcases, -, -⟩ := Feed.subscribeCheck_spec hf
    exact ht.move h rfl _ _ fun _ _ _ _ => hcases
  | send h => exact ht.move h rfl _ _ honce
  | sendAcquire h hlock => exact ht.move h rfl _ _ fun _ _ _ _ => rfl
  | sendLockMu h hmu => exact ht.move h rfl _ _ fun _ _ _ _ => rfl
  | sendCheck h hf =>
    -- the type check holds the send lock: no `Send` is in its loop
    exact ht.move h rfl _ _ fun _ _ _ hts => (hl.no_sending h rfl rfl hts).elim
  | deliver h hi hin hc' => exact ht.deliver hl h hi hin
  | finish h => exact ht.finish hl hs h _
  | removeSub h hn hj hf => exact ht.removeSub hl hc h hj hf
  | removeSubPanic h hn hj hf =>
    exact absurd (hc.mem_of_removingSent hj (by simp [Pc.removingSent]))
      (Feed.removeSubCase_eq_none.mp hf)
  | remove h hmu => exact ht.move h rfl _ _ fun _ _ _ _ => rfl
  | removeFind h hf =>
    obtain ⟨-, -, hcases, -, -⟩ := Feed.removeFind_spec hf
    exact ht.move h rfl _ _ fun _ _ _ _ => hcases
  | removeTakeLock h hlock => exact ht.move h rfl _ _ fun _ _ _ _ => rfl
  | removeDelete h hf =>
    exact ht.move h rfl _ _ fun _ _ _ hts => (hl.no_sending h rfl rfl hts).elim

/-- Along every run from a reachable world, the tracked `Send` stays tracked. -/
theorem Tracked.run {w w' : World Chan Ty Val} (hr : Reachable typeOf w) (ht : Tracked S t w)
    (hrun : Relation.ReflTransGen (Step typeOf) w w') : Tracked S t w' := by
  induction hrun with
  | refl => exact ht
  | tail hrun' hstep ih =>
    have hr' : Reachable typeOf _ := Relation.ReflTransGen.trans hr hrun'
    obtain ⟨hl, hc, hs⟩ := hr'.sends
    exact ih.step hl hc hs hstep

end Tracked

/-! ### A run of calls -/

section Sample

/-- A `Send` of a value of the feed's type, at its type check, after one `Subscribe`. -/
def subscribedSend : World Nat Nat (Nat × Nat) :=
  ⟨⟨true, false, [.removeSub], true, [.send 0], some 0⟩,
    [.returned .subscribed, .sendCheck (0, 7)], [0], []⟩

theorem subscribedSend_reachable : Reachable Prod.fst subscribedSend :=
  .tail (.tail (.tail (.tail (.tail (.tail (.tail (.tail .refl
    (Step.callSubscribe _ (.chan 0 .BothDir 0)))
    (Step.subscribe (t := 0) rfl))
    (Step.subscribeLock (t := 0) rfl rfl))
    (Step.subscribeCheck (t := 0) rfl rfl))
    (Step.callSend _ (0, 7)))
    (Step.send (t := 1) rfl))
    (Step.sendAcquire (t := 1) rfl rfl))
    (Step.sendLockMu (t := 1) rfl rfl)

/-- The `Send` delivered to the one subscription and returned. -/
def sentToOne : World Nat Nat (Nat × Nat) :=
  ⟨⟨true, true, [.removeSub, .send 0], false, [], some 0⟩,
    [.returned .subscribed, .returned (.sent 1)], [0], [.delivered 1 0 (0, 7)]⟩

/-- Two subscriptions; a `Send` in its loop after its first delivery; and the `Unsubscribe` of
the second subscription at its `select`, its case having left the inbox. -/
def removingDuringSend : World Nat Nat (Nat × Nat) :=
  ⟨⟨true, false, [.removeSub, .send 1, .send 0], false, [], some 0⟩,
    [.returned .subscribed, .returned .subscribed, .sending (0, 7) 2 1, .removeSelect 1],
    [0], [.delivered 2 0 (0, 7)]⟩

/-- Two subscriptions returned, their cases in the inbox. -/
def twoSubscribed : World Nat Nat (Nat × Nat) :=
  ⟨⟨true, true, [.removeSub], false, [.send 0, .send 1], some 0⟩,
    [.returned .subscribed, .returned .subscribed], [0, 1], []⟩

theorem twoSubscribed_reachable : Reachable Prod.fst twoSubscribed :=
  .head (Step.callSubscribe _ (.chan 0 .BothDir 0)) <|
  .head (Step.subscribe (t := 0) rfl) <|
  .head (Step.subscribeLock (t := 0) rfl rfl) <|
  .head (Step.subscribeCheck (t := 0) rfl rfl) <|
  .head (Step.callSubscribe _ (.chan 1 .BothDir 0)) <|
  .head (Step.subscribe (t := 1) rfl) <|
  .head (Step.subscribeLock (t := 1) rfl rfl) <|
  .head (Step.subscribeCheck (t := 1) rfl rfl) .refl

theorem removingDuringSend_reachable : Reachable Prod.fst removingDuringSend :=
  .trans twoSubscribed_reachable <|
  .head (Step.callSend _ (0, 7)) <|
  .head (Step.send (t := 2) rfl) <|
  .head (Step.sendAcquire (t := 2) rfl rfl) <|
  .head (Step.sendLockMu (t := 2) rfl rfl) <|
  .head (Step.sendCheck (t := 2) rfl rfl) <|
  .head (Step.deliver (t := 2) (i := 1) rfl (by decide) (by decide) rfl) <|
  .head (@Step.callUnsubscribe _ _ _ _ _ Prod.fst _ 1 (by decide)) <|
  .head (Step.remove (t := 3) rfl rfl) <|
  .head (Step.removeFind (t := 3) rfl rfl) .refl

end Sample

/-! ### Over every run -/

section Safety

variable {Chan Ty Val : Type} [DecidableEq Chan] [DecidableEq Ty] {typeOf : Val → Ty}

/-- The send lock and `f.mu` each have at most one holder; the token of `sendLock` is in its
buffer only when no thread holds it, and `f.mu` is unlocked exactly when no thread holds it. -/
theorem Feed_lock_exclusion {w : World Chan Ty Val} (hr : Reachable typeOf w) :
    (w.threads.countP Pc.holdsSendLock ≤ 1 ∧
        (w.feed.sendLock = true → w.threads.countP Pc.holdsSendLock = 0)) ∧
      w.threads.countP Pc.holdsMu ≤ 1 ∧
        (w.feed.mu = false ↔ w.threads.countP Pc.holdsMu = 0) := by
  obtain ⟨htoken, hmu⟩ := hr.locks
  have hone : w.feed.once.toNat ≤ 1 := Bool.toNat_le _
  have hmu' : w.feed.mu.toNat ≤ 1 := Bool.toNat_le _
  refine ⟨⟨by omega, fun hs => ?_⟩, by omega, ?_⟩
  · rw [hs, Bool.toNat_true] at htoken
    omega
  · cases hm : w.feed.mu
    · rw [hm, Bool.toNat_false] at hmu
      exact ⟨fun _ => hmu.symm, fun _ => rfl⟩
    · rw [hm, Bool.toNat_true] at hmu
      exact ⟨fun h => Bool.noConfusion h, fun h => by omega⟩

theorem Feed_lock_exclusion_subscribedSend :
    (subscribedSend.threads.countP Pc.holdsSendLock ≤ 1 ∧
        (subscribedSend.feed.sendLock = true →
          subscribedSend.threads.countP Pc.holdsSendLock = 0)) ∧
      subscribedSend.threads.countP Pc.holdsMu ≤ 1 ∧
        (subscribedSend.feed.mu = false ↔ subscribedSend.threads.countP Pc.holdsMu = 0) :=
  Feed_lock_exclusion subscribedSend_reachable

/-- After `init`, `sendCases` starts with the one receive from `removeSub`; and each
subscription has exactly one case in the inbox or in `sendCases`: one for each subscription
that `Subscribe` returned and no `Unsubscribe` was called on, and one for each `Unsubscribe`
that has not yet deleted it. -/
theorem Feed_cases_conserved {w : World Chan Ty Val} (hr : Reachable typeOf w) :
    (w.feed.once = true → w.feed.sendCases[0]? = some .removeSub ∧
        (w.feed.inbox ++ w.feed.sendCases).count .removeSub = 1) ∧
      ∀ ch, (w.feed.inbox ++ w.feed.sendCases).count (.send ch) =
        w.subs.count ch + w.threads.countP (Pc.removing ch) := by
  obtain ⟨-, hc, -⟩ := hr.sends
  refine ⟨fun ho => ?_, hc.count⟩
  obtain ⟨hhead, hcount⟩ := hc.head ho
  rw [List.count_append, List.count_eq_zero.mpr hc.inbox, hcount]
  exact ⟨hhead, rfl⟩

theorem Feed_cases_conserved_subscribedSend :
    (subscribedSend.feed.once = true →
        subscribedSend.feed.sendCases[0]? = some .removeSub ∧
          (subscribedSend.feed.inbox ++ subscribedSend.feed.sendCases).count .removeSub = 1) ∧
      ∀ ch, (subscribedSend.feed.inbox ++ subscribedSend.feed.sendCases).count (.send ch) =
        subscribedSend.subs.count ch + subscribedSend.threads.countP (Pc.removing ch) :=
  Feed_cases_conserved subscribedSend_reachable

/-- An `Unsubscribe` that did not find its case in the inbox finds it in `sendCases`: at its
`select`, and holding the send lock, `find` returns an index of `sendCases`, so neither the
delete of `remove` nor that of `Send` on a receive from `removeSub` panics; and no thread ever
panicked with an index out of range. -/
theorem Unsubscribe_finds_case {w : World Chan Ty Val} (hr : Reachable typeOf w) :
    (∀ (t : Nat) (ch : Chan), (w.threads[t]? = some (.removeSelect ch) ∨
        w.threads[t]? = some (.removeDelete ch)) →
      0 ≤ w.feed.sendCases.find ch ∧ w.feed.sendCases.find ch < w.feed.sendCases.length) ∧
      ∀ pc ∈ w.threads, ∀ mu sendLock, pc ≠ .panicked .sliceBoundsOutOfRange mu sendLock := by
  obtain ⟨-, hc, -⟩ := hr.sends
  refine ⟨fun t ch h => ?_, hc.no_bounds⟩
  have hmem : .send ch ∈ w.feed.sendCases := by
    rcases h with h | h <;> exact hc.mem_of_removingSent h (by simp [Pc.removingSent])
  obtain ⟨i, hi, -, hfind, -⟩ := caseList.find_of_mem hmem
  rw [hfind]
  exact ⟨Int.natCast_nonneg i, by exact_mod_cast hi⟩

theorem Unsubscribe_finds_case_removingDuringSend :
    (∀ (t : Nat) (ch : Nat), (removingDuringSend.threads[t]? = some (.removeSelect ch) ∨
        removingDuringSend.threads[t]? = some (.removeDelete ch)) →
      0 ≤ removingDuringSend.feed.sendCases.find ch ∧
        removingDuringSend.feed.sendCases.find ch < removingDuringSend.feed.sendCases.length) ∧
      ∀ pc ∈ removingDuringSend.threads, ∀ mu sendLock,
        pc ≠ .panicked .sliceBoundsOutOfRange mu sendLock :=
  Unsubscribe_finds_case removingDuringSend_reachable

end Safety

/-! ### What a `Send` delivers -/

section Delivered

variable {Chan Ty Val : Type} [DecidableEq Ty] {typeOf : Val → Ty}

/-- When the type check passes, the loop starts over all the cases, the inbox's included. -/
theorem Feed.sendCheck_of_typecheck {f : Feed Chan Ty} {value : Val}
    (h : (f.typecheck (typeOf value)).1 = true) :
    (f.sendCheck typeOf value).1 = .sending value (f.sendCases ++ f.inbox).length 0 := by
  unfold Feed.typecheck at h
  unfold Feed.sendCheck Feed.typecheck
  cases he : f.etype with
  | none => rfl
  | some etype =>
    simp only [he, decide_eq_true_eq] at h
    simp [h]

variable [DecidableEq Chan]

end Delivered

end Event
end Ethcore
