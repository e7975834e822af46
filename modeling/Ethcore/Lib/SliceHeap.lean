import Mathlib.Data.List.Perm.Basic

/-!
# Heaps kept in a slice

The binary heap of Go's `container/heap`: the slice itself is the tree, the children of
position `i` are `2i + 1` and `2i + 2`, and the operations go through the slice's `Less(i, j)`
and `Swap(i, j)` only.  `down` sifts a position towards the leaves, `up` towards the root,
`Init` heapifies a slice, `Push` appends and sifts up, and `Pop` swaps the root to the end,
sifts the new root down and takes the last element.

For a `Less` that is a strict weak order (`StrictWeak`) the operations keep the heap order
(`IsHeap`: no element is less than its parent) and permute the slice, and `Pop` returns an
element no other element of the heap is less than (`Pop_spec`).  The two sifts are proved from
the invariants of their loops, `DownInv` and `UpInv`: the order holds at every parent-child
pair but those at the position being sifted, and across that position where the sift needs it.
-/

namespace SliceHeap

variable {α : Type} (less : α → α → Bool)

/-- `h.Less(i, j)`; false where a position is out of the slice. -/
def lessAt (h : List α) (i j : Nat) : Bool :=
  match h[i]?, h[j]? with
  | some a, some b => less a b
  | _, _ => false

/-- `h.Swap(i, j)`; out of the slice it leaves the slice as it is. -/
def swap (h : List α) (i j : Nat) : List α :=
  match h[i]?, h[j]? with
  | some a, some b => (h.set i b).set j a
  | _, _ => h

/-- The parent of a position, `(j - 1) / 2`. -/
def parent (j : Nat) : Nat := (j - 1) / 2

/-- The child of `i` that `down` compares with `i`: the right one, `2i + 2`, if it is below `n`
and less than the left one, else the left one, `2i + 1`. -/
def lesserChild (h : List α) (i n : Nat) : Nat :=
  let j1 := 2 * i + 1
  if j1 + 1 < n ∧ lessAt less h (j1 + 1) j1 = true then j1 + 1 else j1

theorem lt_lesserChild (h : List α) (i n : Nat) : i < lesserChild less h i n := by
  unfold lesserChild
  dsimp only
  split <;> omega

/-- The loop of `down(h, i, n)`: sift position `i` towards the leaves within the first `n`
positions, swapping it with its lesser child while that child is less than it.  Each round moves
`i` past itself, so `n` rounds are enough; `rounds` counts them down. -/
def downLoop : Nat → List α → Nat → Nat → List α
  | 0, h, _, _ => h
  | rounds + 1, h, i, n =>
    if n ≤ 2 * i + 1 then h
    else
      let j := lesserChild less h i n
      if lessAt less h j i = true then downLoop rounds (swap h i j) j n else h

/-- One round of `down`. -/
theorem downLoop_succ (rounds : Nat) (h : List α) (i n : Nat) :
    downLoop less (rounds + 1) h i n =
      if n ≤ 2 * i + 1 then h
      else
        let j := lesserChild less h i n
        if lessAt less h j i = true then downLoop less rounds (swap h i j) j n else h :=
  rfl

/-- `down(h, i, n)`. -/
def down (h : List α) (i n : Nat) : List α := downLoop less n h i n

theorem parent_lt {c : Nat} (hc : 0 < c) : parent c < c := by
  unfold parent
  omega

theorem parent_eq_self_iff {c : Nat} : parent c = c ↔ c = 0 := by
  unfold parent
  omega

/-- The loop of `up(h, j)`: sift position `j` towards the root while it is less than its
parent; the root is its own parent, as `(0 - 1) / 2` is `0` in Go.  Each round moves `j` to its
parent, so `j` rounds are enough. -/
def upLoop : Nat → List α → Nat → List α
  | 0, h, _ => h
  | rounds + 1, h, j =>
    let i := parent j
    if i = j ∨ lessAt less h j i = false then h else upLoop rounds (swap h i j) i

/-- One round of `up`. -/
theorem upLoop_succ (rounds : Nat) (h : List α) (j : Nat) :
    upLoop less (rounds + 1) h j =
      let i := parent j
      if i = j ∨ lessAt less h j i = false then h else upLoop less rounds (swap h i j) i :=
  rfl

/-- `up(h, j)`. -/
def up (h : List α) (j : Nat) : List α := upLoop less j h j

/-- The loop of `Init`: `down` at positions `k - 1` down to `0`. -/
def initLoop (n : Nat) : Nat → List α → List α
  | 0, h => h
  | k + 1, h => initLoop n k (down less h k n)

/-- `heap.Init`: `down` at every position that has a child, from the last one to the root. -/
def Init (h : List α) : List α := initLoop less h.length (h.length / 2) h

/-- `heap.Push`: append, then sift the new last position up. -/
def Push (h : List α) (x : α) : List α := up less (h ++ [x]) h.length

/-- `heap.Pop`: swap the root with the last element, sift the root down over the others,
and take the last element off; on an empty slice `Swap(0, -1)` panics. -/
def Pop (h : List α) : Option (α × List α) :=
  if h = [] then none
  else
    let n := h.length - 1
    let h := down less (swap h 0 n) 0 n
    h.getLast?.map fun x => (x, h.dropLast)

/-- No position below `n` whose parent is at `i0` or past it is less than its parent. -/
def OrderedFrom (h : List α) (i0 n : Nat) : Prop :=
  ∀ c, 0 < c → c < n → i0 ≤ parent c → lessAt less h c (parent c) = false

/-- The heap order: no element is less than its parent. -/
def IsHeap (h : List α) : Prop := OrderedFrom less h 0 h.length

/-- The invariant of `down` from `i0`, at position `i`: below `n`, every pair whose parent is
at `i0` or past it is ordered but those whose parent is `i`, and past `i0` no child of `i` is
less than the parent of `i`. -/
structure DownInv (h : List α) (i0 i n : Nat) : Prop where
  start : i0 ≤ i
  except : ∀ c, 0 < c → c < n → i0 ≤ parent c → parent c ≠ i →
    lessAt less h c (parent c) = false
  across : i0 < i → ∀ c, 0 < c → c < n → parent c = i → lessAt less h c (parent i) = false

/-- The invariant of `up` at position `j`: every pair is ordered but the one of `j` and its
parent, and no child of `j` is less than the parent of `j`. -/
structure UpInv (h : List α) (j : Nat) : Prop where
  except : ∀ c, 0 < c → c < h.length → c ≠ j → lessAt less h c (parent c) = false
  across : 0 < j → ∀ c, 0 < c → c < h.length → parent c = j →
    lessAt less h c (parent j) = false

/-- What the heap needs of `less`: a strict weak order, as `sort.Interface` asks of `Less`. -/
structure StrictWeak : Prop where
  asymm : ∀ a b, less a b = true → less b a = false
  trans : ∀ a b c, less a b = true → less b c = true → less a c = true
  not_trans : ∀ a b c, less a b = false → less b c = false → less a c = false

/-! ### Positions -/

variable {less}

/-- Where `swap i j` moves position `k`'s element from. -/
def transpose (i j k : Nat) : Nat := if k = i then j else if k = j then i else k

@[simp] theorem length_swap (h : List α) (i j : Nat) : (swap h i j).length = h.length := by
  unfold swap
  split <;> simp

theorem getElem?_swap {h : List α} {i j : Nat} (hi : i < h.length) (hj : j < h.length)
    (k : Nat) : (swap h i j)[k]? = h[transpose i j k]? := by
  unfold swap transpose
  rw [List.getElem?_eq_getElem hi, List.getElem?_eq_getElem hj]
  simp only [List.getElem?_set]
  by_cases hkj : k = j
  · subst hkj
    by_cases hki : k = i
    · subst hki; simp [hi]
    · simp [hki, hj]
  · by_cases hki : k = i
    · subst hki; simp [Ne.symm hkj, hi, hj]
    · simp [hki, hkj, Ne.symm hki, Ne.symm hkj]

theorem lessAt_swap {h : List α} {i j : Nat} (hi : i < h.length) (hj : j < h.length)
    (x y : Nat) : lessAt less (swap h i j) x y = lessAt less h (transpose i j x) (transpose i j y) := by
  unfold lessAt
  rw [getElem?_swap hi hj, getElem?_swap hi hj]

theorem swap_perm {h : List α} {i j : Nat} (hi : i < h.length) (hj : j < h.length) :
    (swap h i j).Perm h := by
  unfold swap
  rw [List.getElem?_eq_getElem hi, List.getElem?_eq_getElem hj]
  exact List.set_set_perm hi hj

theorem getElem?_swap_of_le {h : List α} {i j k : Nat} (hi : i < k) (hj : j < k) :
    (swap h i j)[k]? = h[k]? := by
  by_cases hk : k < h.length
  · rw [getElem?_swap (by omega) (by omega), transpose, if_neg (by omega), if_neg (by omega)]
  · rw [List.getElem?_eq_none (by simp; omega), List.getElem?_eq_none (by omega)]

theorem parent_eq_iff {c i : Nat} (hc : 0 < c) : parent c = i ↔ c = 2 * i + 1 ∨ c = 2 * i + 2 := by
  unfold parent
  omega

theorem lessAt_of_length_le {h : List α} {i j : Nat} (hi : h.length ≤ i ∨ h.length ≤ j) :
    lessAt less h i j = false := by
  unfold lessAt
  rcases hi with hi | hi
  · rw [List.getElem?_eq_none hi]
  · rw [List.getElem?_eq_none hi]
    cases h[i]? <;> rfl

theorem lessAt_eq {h : List α} {i j : Nat} {a b : α} (ha : h[i]? = some a) (hb : h[j]? = some b) :
    lessAt less h i j = less a b := by
  unfold lessAt
  rw [ha, hb]

theorem lessAt_eq_true_iff {h : List α} {i j : Nat} :
    lessAt less h i j = true ↔ ∃ a b, h[i]? = some a ∧ h[j]? = some b ∧ less a b = true := by
  unfold lessAt
  cases h[i]? <;> cases h[j]? <;> simp

theorem lesserChild_cases (h : List α) (i n : Nat) :
    lesserChild less h i n = 2 * i + 1 ∨ lesserChild less h i n = 2 * i + 2 := by
  unfold lesserChild
  dsimp only
  split
  · exact .inr rfl
  · exact .inl rfl

theorem lesserChild_lt {h : List α} {i n : Nat} (hn : 2 * i + 1 < n) :
    lesserChild less h i n < n := by
  unfold lesserChild
  dsimp only
  split
  · rename_i hright
    exact hright.1
  · exact hn

theorem parent_lesserChild (h : List α) (i n : Nat) : parent (lesserChild less h i n) = i := by
  rcases lesserChild_cases h i n with hj | hj <;> rw [hj, parent_eq_iff (by omega)] <;> simp

section Order

variable (hless : StrictWeak less)
include hless

theorem lessAt_self (h : List α) (i : Nat) : lessAt less h i i = false := by
  unfold lessAt
  cases h[i]? with
  | none => rfl
  | some a =>
    show less a a = false
    cases ha : less a a
    · rfl
    · simpa [ha] using hless.asymm a a ha

theorem lessAt_asymm {h : List α} {i j : Nat} (hij : lessAt less h i j = true) :
    lessAt less h j i = false := by
  obtain ⟨a, b, ha, hb, hab⟩ := Iff.mp lessAt_eq_true_iff hij
  rw [lessAt_eq hb ha]
  exact hless.asymm a b hab

theorem lessAt_trans {h : List α} {i j k : Nat} (hij : lessAt less h i j = true)
    (hjk : lessAt less h j k = true) : lessAt less h i k = true := by
  obtain ⟨a, b, ha, hb, hab⟩ := Iff.mp lessAt_eq_true_iff hij
  obtain ⟨b', c, hb', hc, hbc⟩ := Iff.mp lessAt_eq_true_iff hjk
  obtain rfl : b = b' := Option.some.inj (hb.symm.trans hb')
  rw [lessAt_eq ha hc]
  exact hless.trans a b c hab hbc

theorem lessAt_not_trans {h : List α} {i j k : Nat} (hj : j < h.length)
    (hij : lessAt less h i j = false) (hjk : lessAt less h j k = false) :
    lessAt less h i k = false := by
  cases hi : h[i]? with
  | none => unfold lessAt; rw [hi]
  | some a =>
    cases hk : h[k]? with
    | none => unfold lessAt; rw [hi, hk]
    | some c =>
      have hb := List.getElem?_eq_getElem hj
      rw [lessAt_eq hi hb] at hij
      rw [lessAt_eq hb hk] at hjk
      rw [lessAt_eq hi hk]
      exact hless.not_trans _ _ _ hij hjk

/-- No child of `i` below `n` is less than the lesser child. -/
theorem lessAt_lesserChild {h : List α} {i n c : Nat} (hc : 0 < c) (hcn : c < n)
    (hpc : parent c = i) : lessAt less h c (lesserChild less h i n) = false := by
  unfold lesserChild
  dsimp only
  split
  · rename_i hright
    rcases (parent_eq_iff hc).mp hpc with rfl | rfl
    · exact lessAt_asymm hless hright.2
    · exact lessAt_self hless h _
  · rename_i hleft
    rcases (parent_eq_iff hc).mp hpc with rfl | rfl
    · exact lessAt_self hless h _
    · simpa [hcn] using hleft

end Order

/-! ### `down` -/

theorem length_downLoop (rounds : Nat) (h : List α) (i n : Nat) :
    (downLoop less rounds h i n).length = h.length := by
  induction rounds generalizing h i with
  | zero => rfl
  | succ rounds ih =>
    rw [downLoop_succ]
    split
    · rfl
    · dsimp only
      split
      · rw [ih, length_swap]
      · rfl

theorem length_down (h : List α) (i n : Nat) : (down less h i n).length = h.length :=
  length_downLoop _ h i n

theorem downLoop_perm (rounds : Nat) {h : List α} {i n : Nat} (hn : n ≤ h.length) :
    (downLoop less rounds h i n).Perm h := by
  induction rounds generalizing h i with
  | zero => exact List.Perm.refl _
  | succ rounds ih =>
    rw [downLoop_succ]
    split
    · exact List.Perm.refl _
    · rename_i hchild
      have hj : lesserChild less h i n < n := lesserChild_lt (Nat.lt_of_not_le hchild)
      dsimp only
      split
      · exact (ih (by rw [length_swap]; exact hn)).trans (swap_perm (by omega) (by omega))
      · exact List.Perm.refl _

theorem down_perm {h : List α} {i n : Nat} (hn : n ≤ h.length) : (down less h i n).Perm h :=
  downLoop_perm _ hn

/-- `down` within the first `n` positions leaves the others alone. -/
theorem getElem?_downLoop_of_le (rounds : Nat) {h : List α} {i n k : Nat} (hk : n ≤ k) :
    (downLoop less rounds h i n)[k]? = h[k]? := by
  induction rounds generalizing h i with
  | zero => rfl
  | succ rounds ih =>
    rw [downLoop_succ]
    split
    · rfl
    · rename_i hchild
      have hj : lesserChild less h i n < n := lesserChild_lt (Nat.lt_of_not_le hchild)
      dsimp only
      split
      · rw [ih, getElem?_swap_of_le (by omega) (by omega)]
      · rfl

theorem getElem?_down_of_le {h : List α} {i n k : Nat} (hk : n ≤ k) :
    (down less h i n)[k]? = h[k]? :=
  getElem?_downLoop_of_le _ hk

/-- Where `down` stops at a position without children, the order holds from `i0` on. -/
theorem DownInv.ordered_of_leaf {h : List α} {i0 i n : Nat} (inv : DownInv less h i0 i n)
    (hleaf : n ≤ 2 * i + 1) : OrderedFrom less h i0 n := by
  intro c hc hcn hi0
  by_cases hpc : parent c = i
  · rw [parent_eq_iff hc] at hpc
    omega
  · exact inv.except c hc hcn hi0 hpc

/-! ### `up`, `Init`, `Push` and `Pop` permute the slice -/

theorem length_upLoop (rounds : Nat) (h : List α) (j : Nat) :
    (upLoop less rounds h j).length = h.length := by
  induction rounds generalizing h j with
  | zero => rfl
  | succ rounds ih =>
    rw [upLoop_succ]
    dsimp only
    split
    · rfl
    · rw [ih, length_swap]

theorem upLoop_perm (rounds : Nat) {h : List α} {j : Nat} (hj : j < h.length) :
    (upLoop less rounds h j).Perm h := by
  induction rounds generalizing h j with
  | zero => exact List.Perm.refl _
  | succ rounds ih =>
    rw [upLoop_succ]
    dsimp only
    split
    · exact List.Perm.refl _
    · rename_i hmove
      have hij : parent j < j :=
        parent_lt (Nat.pos_of_ne_zero fun h0 => hmove (.inl (Iff.mpr parent_eq_self_iff h0)))
      exact (ih (by rw [length_swap]; omega)).trans (swap_perm (by omega) hj)

theorem length_initLoop (n k : Nat) (h : List α) : (initLoop less n k h).length = h.length := by
  induction k generalizing h with
  | zero => rfl
  | succ k ih => rw [initLoop, ih, length_down]

theorem initLoop_perm {n : Nat} (k : Nat) {h : List α} (hn : n ≤ h.length) :
    (initLoop less n k h).Perm h := by
  induction k generalizing h with
  | zero => exact List.Perm.refl _
  | succ k ih => exact (ih (by rw [length_down]; exact hn)).trans (down_perm hn)

theorem Init_perm (h : List α) : (Init less h).Perm h := initLoop_perm _ (Nat.le_refl _)

@[simp] theorem length_Init (h : List α) : (Init less h).length = h.length :=
  length_initLoop _ _ h

theorem Push_perm (h : List α) (x : α) : (Push less h x).Perm (h ++ [x]) :=
  upLoop_perm _ (by simp)

theorem Pop_eq_none_iff {h : List α} : Pop less h = none ↔ h = [] := by
  unfold Pop
  split
  · simp_all
  · rename_i hne
    simp only [hne, iff_false, Option.map_eq_none_iff, List.getLast?_eq_none_iff]
    intro hnil
    have := congrArg List.length hnil
    rw [length_down, length_swap] at this
    exact hne (List.eq_nil_of_length_eq_zero this)

theorem lessAt_append_of_lt {h : List α} (l : List α) {a b : Nat} (ha : a < h.length)
    (hb : b < h.length) : lessAt less (h ++ l) a b = lessAt less h a b := by
  unfold lessAt
  rw [List.getElem?_append_left ha, List.getElem?_append_left hb]

/-- Where `up` stops, at a position not less than its parent, the slice is a heap. -/
theorem UpInv.heap_of_not_lt {h : List α} {j : Nat} (inv : UpInv less h j)
    (hge : lessAt less h j (parent j) = false) : IsHeap less h := by
  intro c hc hcn _
  by_cases hcj : c = j
  · subst hcj
    exact hge
  · exact inv.except c hc hcn hcj

theorem lessAt_dropLast {h : List α} {a b : Nat} (ha : a < h.length - 1) (hb : b < h.length - 1) :
    lessAt less h.dropLast a b = lessAt less h a b := by
  unfold lessAt
  rw [List.getElem?_dropLast, if_pos ha, List.getElem?_dropLast, if_pos hb]

section Sift

variable (hless : StrictWeak less)
include hless

/-- A swap of `down` with the lesser child keeps the invariant, at the lesser child. -/
theorem DownInv.step {h : List α} {i0 i n : Nat} (inv : DownInv less h i0 i n)
    (hn : n ≤ h.length) (hchild : 2 * i + 1 < n)
    (hlt : lessAt less h (lesserChild less h i n) i = true) :
    DownInv less (swap h i (lesserChild less h i n)) i0 (lesserChild less h i n) n := by
  set j := lesserChild less h i n with hj
  have hjn : j < n := lesserChild_lt hchild
  have hij : i < j := lt_lesserChild less h i n
  have hpj : parent j = i := parent_lesserChild h i n
  have hin : i < h.length := by omega
  have hjl : j < h.length := by omega
  refine ⟨by have := inv.start; omega, fun c hc hcn hi0 hcj => ?_, fun _ c hc hcn hpc => ?_⟩
  · rw [lessAt_swap hin hjl]
    by_cases hcj' : c = j
    · -- the swapped pair itself
      subst hcj'
      rw [hpj, transpose, if_neg (by omega), if_pos rfl, transpose, if_pos rfl]
      exact lessAt_asymm hless hlt
    by_cases hci : c = i
    · -- the new value at `i` against the parent of `i`
      subst hci
      have hpi : parent c < c := parent_lt hc
      rw [transpose, if_pos rfl, transpose, if_neg (by omega), if_neg (by omega)]
      exact inv.across (by omega) j (by omega) hjn hpj
    by_cases hpc : parent c = i
    · -- the other child of `i` against the new value at `i`
      rw [transpose, if_neg hci, if_neg hcj', hpc, transpose, if_pos rfl]
      exact lessAt_lesserChild hless hc hcn hpc
    · -- a pair the swap does not touch
      rw [transpose, if_neg hci, if_neg hcj', transpose, if_neg hpc, if_neg hcj]
      exact inv.except c hc hcn hi0 hpc
  · -- the children of the lesser child against the new value at `i`
    have hcp := parent_lt hc
    have hold := inv.except c hc hcn (by have := inv.start; omega) (by omega)
    rw [hpc] at hold
    rw [lessAt_swap hin hjl, hpj, transpose, if_neg (by omega), if_neg (by omega), transpose,
      if_pos rfl]
    exact hold

/-- Where `down` stops at a lesser child that is not less than the position, the order holds
from `i0` on. -/
theorem DownInv.ordered_of_not_lt {h : List α} {i0 i n : Nat} (inv : DownInv less h i0 i n)
    (hn : n ≤ h.length) (hchild : 2 * i + 1 < n)
    (hge : lessAt less h (lesserChild less h i n) i = false) : OrderedFrom less h i0 n := by
  intro c hc hcn hi0
  by_cases hpc : parent c = i
  · rw [hpc]
    have hjl : lesserChild less h i n < h.length := by
      have hjn : lesserChild less h i n < n := lesserChild_lt hchild
      omega
    exact lessAt_not_trans hless hjl (lessAt_lesserChild hless hc hcn hpc) hge
  · exact inv.except c hc hcn hi0 hpc

/-- `down` from its invariant orders every pair whose parent is at `i0` or past it, given
rounds enough to reach the end. -/
theorem downLoop_ordered {rounds : Nat} {h : List α} {i0 i n : Nat} (hn : n ≤ h.length)
    (hr : n ≤ rounds + i) (inv : DownInv less h i0 i n) :
    OrderedFrom less (downLoop less rounds h i n) i0 n := by
  induction rounds generalizing h i with
  | zero => exact inv.ordered_of_leaf (by omega)
  | succ rounds ih =>
    rw [downLoop_succ]
    split
    · rename_i hleaf
      exact inv.ordered_of_leaf hleaf
    · rename_i hchild
      have hij := lt_lesserChild less h i n
      dsimp only
      split
      · rename_i hlt
        exact ih (by rw [length_swap]; exact hn) (by omega)
          (inv.step hless hn (Nat.lt_of_not_le hchild) hlt)
      · rename_i hge
        exact inv.ordered_of_not_lt hless hn (Nat.lt_of_not_le hchild) (by simpa using hge)

theorem down_ordered {h : List α} {i0 i n : Nat} (hn : n ≤ h.length)
    (inv : DownInv less h i0 i n) : OrderedFrom less (down less h i n) i0 n :=
  downLoop_ordered hless hn (by omega) inv

/-! ### `up` keeps the heap -/

/-- A swap of `up` with the parent keeps the invariant, at the parent. -/
theorem UpInv.step {h : List α} {j : Nat} (inv : UpInv less h j) (hj : j < h.length)
    (hj0 : 0 < j) (hlt : lessAt less h j (parent j) = true) :
    UpInv less (swap h (parent j) j) (parent j) := by
  set i := parent j with hi
  have hij : i < j := parent_lt hj0
  have hil : i < h.length := by omega
  constructor
  · intro c hc hcn hci
    rw [length_swap] at hcn
    rw [lessAt_swap hil hj]
    by_cases hcj : c = j
    · -- the swapped pair itself
      subst hcj
      rw [transpose, if_neg (by omega), if_pos rfl, ← hi, transpose, if_pos rfl]
      exact lessAt_asymm hless hlt
    by_cases hpc : parent c = j
    · -- the children of `j` against the old value at `i`
      rw [transpose, if_neg hci, if_neg hcj, hpc, transpose, if_neg (by omega), if_pos rfl]
      exact inv.across hj0 c hc hcn hpc
    by_cases hpci : parent c = i
    · -- the other child of `i` against the new value at `i`
      rw [transpose, if_neg hci, if_neg hcj, hpci, transpose, if_pos rfl]
      have hold : lessAt less h c i = false := by
        have := inv.except c hc hcn hcj
        rwa [hpci] at this
      cases hcj' : lessAt less h c j
      · rfl
      · rw [lessAt_trans hless hcj' hlt] at hold
        exact absurd hold (by simp)
    · -- a pair the swap does not touch
      rw [transpose, if_neg hci, if_neg hcj, transpose, if_neg hpci, if_neg hpc]
      exact inv.except c hc hcn hcj
  · intro hi0 c hc hcn hpc
    rw [length_swap] at hcn
    have hpi : parent i < i := parent_lt hi0
    have hup : lessAt less h i (parent i) = false := inv.except i hi0 hil (by omega)
    rw [lessAt_swap hil hj]
    by_cases hcj : c = j
    · -- the old value at `i`, moved to `j`, against the parent of `i`
      subst hcj
      rw [transpose, if_neg (by omega), if_pos rfl, transpose, if_neg (by omega),
        if_neg (by omega)]
      exact hup
    · -- the other child of `i` against the parent of `i`
      have hci : c ≠ i := by
        have := parent_lt hc
        omega
      rw [transpose, if_neg hci, if_neg hcj, transpose, if_neg (by omega), if_neg (by omega)]
      have hold : lessAt less h c i = false := by
        have := inv.except c hc hcn hcj
        rwa [hpc] at this
      exact lessAt_not_trans hless hil hold hup

/-- `up` from its invariant leaves a heap, given rounds enough to reach the root. -/
theorem upLoop_heap {rounds : Nat} {h : List α} {j : Nat} (hj : j < h.length) (hr : j ≤ rounds)
    (inv : UpInv less h j) : IsHeap less (upLoop less rounds h j) := by
  induction rounds generalizing h j with
  | zero =>
    -- no round left: `j` is the root, its own parent
    obtain rfl : j = 0 := by omega
    exact inv.heap_of_not_lt (lessAt_self hless h 0)
  | succ rounds ih =>
    rw [upLoop_succ]
    dsimp only
    split
    · rename_i hstop
      rcases hstop with hroot | hge
      · apply inv.heap_of_not_lt
        rw [hroot]
        exact lessAt_self hless h j
      · exact inv.heap_of_not_lt hge
    · rename_i hmove
      obtain ⟨hne, hlt⟩ := not_or.mp hmove
      have hj0 : 0 < j := Nat.pos_of_ne_zero fun h0 => hne (Iff.mpr parent_eq_self_iff h0)
      have hpj := parent_lt hj0
      exact ih (by rw [length_swap]; omega) (by omega)
        (inv.step hless hj hj0 (by simpa using hlt))

/-! ### `Init`, `Push` and `Pop` keep the heap -/

theorem initLoop_ordered {n k : Nat} {h : List α} (hn : n ≤ h.length)
    (hord : OrderedFrom less h k n) : OrderedFrom less (initLoop less n k h) 0 n := by
  induction k generalizing h with
  | zero => exact hord
  | succ k ih =>
    apply ih (by rw [length_down]; exact hn)
    -- `down` at `k` starts from the order of the pairs whose parents are past `k`
    apply down_ordered hless hn
    exact ⟨Nat.le_refl _, fun c hc hcn hk hne => hord c hc hcn (by omega),
      fun hlt => absurd hlt (Nat.lt_irrefl k)⟩

theorem Init_heap (h : List α) : IsHeap less (Init less h) := by
  unfold IsHeap
  rw [length_Init]
  apply initLoop_ordered hless (Nat.le_refl _)
  -- no position below the length has its parent past half of it
  intro c hc hcn hk
  unfold parent at hk
  omega

theorem Push_heap {h : List α} (hh : IsHeap less h) (x : α) : IsHeap less (Push less h x) := by
  apply upLoop_heap hless (by simp) (Nat.le_refl _)
  constructor
  · intro c hc hcn hcj
    simp only [List.length_append, List.length_singleton] at hcn
    have hcl : c < h.length := by omega
    rw [lessAt_append_of_lt _ hcl (Nat.lt_trans (parent_lt hc) hcl)]
    exact hh c hc hcl (Nat.zero_le _)
  · intro _ c hc hcn hpc
    rw [parent_eq_iff hc] at hpc
    simp only [List.length_append, List.length_singleton] at hcn
    omega

/-- No element of a heap is less than its root. -/
theorem IsHeap.lessAt_root {h : List α} (hh : IsHeap less h) (k : Nat) :
    lessAt less h k 0 = false := by
  induction k using Nat.strongRecOn with
  | _ k ih =>
    by_cases hk0 : k = 0
    · subst hk0
      exact lessAt_self hless h 0
    by_cases hkl : k < h.length
    · -- through the parent, which is not less than the root either
      have hpk : parent k < k := parent_lt (by omega)
      exact lessAt_not_trans hless (by omega) (hh k (by omega) hkl (Nat.zero_le _))
        (ih (parent k) hpk)
    · exact lessAt_of_length_le (.inl (by omega))

/-- `Pop` of a non-empty heap returns its root, which no element is less than, and leaves a
heap of the other elements. -/
theorem Pop_spec {h : List α} (hh : IsHeap less h) (hne : h ≠ []) :
    ∃ x h', Pop less h = some (x, h') ∧ (x :: h').Perm h ∧ IsHeap less h' ∧
      ∀ y ∈ h, less y x = false := by
  set n := h.length - 1 with hn
  have hlen : n < h.length := by
    have := List.length_pos_iff.mpr hne
    omega
  set h1 := swap h 0 n with hh1
  set h2 := down less h1 0 n with hh2
  have hl2 : h2.length = h.length := by rw [hh2, length_down, hh1, length_swap]
  obtain ⟨x, hx⟩ : ∃ x, h[0]? = some x := ⟨h[0], List.getElem?_eq_getElem (by omega)⟩
  -- the root, swapped to the end, stays there through `down`
  have hget : h2.getLast? = some x := by
    rw [List.getLast?_eq_getElem?, hl2, ← hn, hh2, getElem?_down_of_le (Nat.le_refl _), hh1,
      getElem?_swap (by omega) hlen, transpose]
    by_cases hn0 : n = 0
    · rw [if_pos hn0, hn0, hx]
    · rw [if_neg hn0, if_pos rfl, hx]
  -- before `down`, only the pairs at the root may be out of order
  have inv : DownInv less h1 0 0 n := by
    refine ⟨Nat.le_refl _, fun c hc hcn _ hpc => ?_, fun h0 => absurd h0 (Nat.lt_irrefl 0)⟩
    have hpcc := parent_lt hc
    rw [hh1, lessAt_swap (by omega) hlen, transpose, if_neg (by omega), if_neg (by omega),
      transpose, if_neg hpc, if_neg (by omega)]
    exact hh c hc (by omega) (Nat.zero_le _)
  refine ⟨x, h2.dropLast, ?_, ?_, ?_, fun y hy => ?_⟩
  · unfold Pop
    rw [if_neg hne]
    simp only [← hn, ← hh1, ← hh2, hget, Option.map_some]
  · -- the slice after `down` is the others, then the root
    have hsplit : h2.dropLast ++ [x] = h2 := List.dropLast_append_getLast? x hget
    have hperm : (h2.dropLast ++ [x]).Perm h := by
      rw [hsplit]
      exact (down_perm (by rw [hh1, length_swap]; omega)).trans (swap_perm (by omega) hlen)
    exact (List.perm_append_singleton x _).symm.trans hperm
  · intro c hc hcn _
    rw [List.length_dropLast, hl2, ← hn] at hcn
    rw [lessAt_dropLast (by omega) (by have := parent_lt hc; omega)]
    exact down_ordered hless (by rw [hh1, length_swap]; omega) inv c hc hcn (Nat.zero_le _)
  · obtain ⟨k, hk, rfl⟩ := List.getElem_of_mem hy
    have hroot := hh.lessAt_root hless k
    rwa [lessAt_eq (List.getElem?_eq_getElem hk) hx] at hroot

end Sift

end SliceHeap
