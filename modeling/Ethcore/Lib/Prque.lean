import Mathlib.Data.List.Basic

/-!
# Priority queues as lists of prioritised entries

A `Prque α` holds items with integer priorities.  `Push` adds an entry and `PopItem` takes
the first entry of greatest priority.  A heap may give any of several entries of equal
priority; this model gives the first pushed.

What a client of the queue usually accounts for is how many entries an item has, whatever
their order: `count` is that number, and the lemmas below say how `Push`, a list of pushes
and `PopItem` change it.
-/

/-- A priority queue: its entries, each an item with its priority. -/
structure Prque (α : Type) where
  entries : List (α × Int)
  deriving DecidableEq, Repr

namespace Prque

variable {α : Type}

/-- The empty queue. -/
def New : Prque α := ⟨[]⟩

/-- Add an item with a priority. -/
def Push (q : Prque α) (x : α) (p : Int) : Prque α := ⟨q.entries ++ [(x, p)]⟩

/-- Whether the queue has no entries. -/
def Empty (q : Prque α) : Bool := q.entries.isEmpty

/-- The number of entries. -/
def Size (q : Prque α) : Nat := q.entries.length

/-- The first entry of greatest priority in a list of entries. -/
def top : List (α × Int) → Option (α × Int)
  | [] => none
  | e :: es =>
      match top es with
      | some m => if e.2 < m.2 then some m else some e
      | none => some e

attribute [local simp] top in
theorem top_eq_none_iff (es : List (α × Int)) : top es = none ↔ es = [] := by
  cases es with
  | nil => simp
  | cons e es =>
      simp only [top, reduceCtorEq, iff_false]
      split
      · split <;> simp
      · simp

/-- What `top` finds: an entry of the list, and no entry has a greater priority. -/
theorem top_spec {es : List (α × Int)} {m : α × Int} (h : top es = some m) :
    m ∈ es ∧ ∀ e ∈ es, e.2 ≤ m.2 := by
  induction es generalizing m with
  | nil => simp [top] at h
  | cons e es ih =>
      simp only [top] at h
      split at h
      · rename_i m' ht
        obtain ⟨hmem, hle⟩ := ih ht
        split at h
        · -- a later entry beats the head
          rename_i hlt
          cases h
          refine ⟨List.mem_cons_of_mem e hmem, fun e' he' => ?_⟩
          rcases List.mem_cons.mp he' with rfl | he'
          · omega
          · exact hle e' he'
        · -- the head is at least every later entry
          rename_i hge
          cases h
          refine ⟨List.mem_cons_self, fun e' he' => ?_⟩
          rcases List.mem_cons.mp he' with rfl | he'
          · omega
          · have := hle e' he'
            omega
      · rename_i ht
        cases h
        rw [(top_eq_none_iff es).mp ht]
        simp

variable [DecidableEq α]

/-- Take the first entry of greatest priority; `none` on an empty queue. -/
def PopItem (q : Prque α) : Option (α × Prque α) :=
  (top q.entries).map fun e => (e.1, ⟨q.entries.erase e⟩)

/-- How many entries hold the item `x`. -/
def count (x : α) (q : Prque α) : Nat := (q.entries.map Prod.fst).count x

@[simp] theorem count_New (x : α) : (New : Prque α).count x = 0 := rfl

@[simp] theorem count_Push (q : Prque α) (x y : α) (p : Int) :
    (q.Push x p).count y = q.count y + if x = y then 1 else 0 := by
  simp [count, Push, List.count_singleton]

/-- Pushing the items of a list, each with its priority, adds their occurrences. -/
theorem count_foldl_Push (prio : α → Int) (xs : List α) (q : Prque α) (y : α) :
    (xs.foldl (fun q x => q.Push x (prio x)) q).count y = q.count y + xs.count y := by
  induction xs generalizing q with
  | nil => rfl
  | cons x xs ih =>
      rw [List.foldl_cons, ih, count_Push, List.count_cons]
      by_cases h : x = y
      · subst h
        simp only [if_true, beq_self_eq_true]
        omega
      · simp only [beq_iff_eq, h]
        omega

theorem PopItem_eq_none_iff (q : Prque α) : q.PopItem = none ↔ q.Empty = true := by
  simp [PopItem, Empty, top_eq_none_iff]

/-- What `PopItem` takes: an entry of the queue, of greatest priority, and the rest of the
queue is the entries without it. -/
theorem PopItem_eq_some {q q' : Prque α} {x : α} (h : q.PopItem = some (x, q')) :
    ∃ p, (x, p) ∈ q.entries ∧ (∀ e ∈ q.entries, e.2 ≤ p) ∧ q'.entries = q.entries.erase (x, p) := by
  unfold PopItem at h
  obtain ⟨e, he, hpop⟩ := Option.map_eq_some_iff.mp h
  obtain ⟨rfl, rfl⟩ := Prod.mk.inj hpop
  exact ⟨e.2, (top_spec he).1, (top_spec he).2, rfl⟩

/-- `PopItem` takes one entry of the item it returns and leaves every other count. -/
theorem count_of_PopItem {q q' : Prque α} {x : α} (h : q.PopItem = some (x, q')) (y : α) :
    q.count y = q'.count y + if x = y then 1 else 0 := by
  obtain ⟨p, hmem, -, hq'⟩ := PopItem_eq_some h
  -- the entries are the popped one and the rest, up to order
  have hperm := (List.perm_cons_erase hmem).map Prod.fst
  rw [count, count, hq', hperm.count_eq, List.map_cons, List.count_cons]
  by_cases hxy : x = y
  · simp [hxy]
  · simp [hxy]

end Prque
