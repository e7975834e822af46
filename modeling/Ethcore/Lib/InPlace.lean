import Mathlib.Data.List.Perm.Basic

/-!
# Lists updated in place

Two ways concurrent code changes a list in place.

The threads of a system, kept as a list of thread states, move one at a time (`List.set`).
The number of threads in a class then changes by what the moving thread left and what it
entered (`countP_set_add`), and two distinct threads in one class make it count at least two
(`two_le_countP`): the counting form of mutual exclusion.

A slice whose first `n` elements are active lives in a backing list that other code reads
whole.  Exchanging element `i` with the last active one and shrinking the active part by one
(`swapAt l i (n - 1)`) moves element `i` to the front of the inactive part
(`drop_swapAt_pred`) and keeps the elements (`swapAt_perm`).  Erasing an element shifts the
ones after it down by one: that leaves the inactive part as it was when the erased element
was active (`drop_eraseIdx_of_lt`) and erases from it otherwise (`drop_eraseIdx_of_le`).
-/

namespace InPlace

variable {α : Type}

section Threads

/-- Moving the thread at `i` from `a` to `b` changes the count of a class by what it left and
what it entered. -/
theorem countP_set_add (p : α → Bool) {l : List α} {i : Nat} {a : α} (h : l[i]? = some a)
    (b : α) :
    (l.set i b).countP p + (p a).toNat = l.countP p + (p b).toNat := by
  obtain ⟨hi, rfl⟩ := List.getElem?_eq_some_iff.mp h
  rw [List.countP_set hi]
  by_cases hp : p l[i]
  · have hpos : 0 < l.countP p := List.countP_pos_iff.mpr ⟨l[i], List.getElem_mem hi, hp⟩
    cases p b <;> simp only [hp, if_true, Bool.false_eq_true, if_false, Bool.toNat_true,
      Bool.toNat_false] <;> omega
  · cases p b <;> simp [hp]

/-- After the thread at `i` moves, the others are where they were. -/
theorem getElem?_set_of_getElem? {l : List α} {i : Nat} {a : α} (h : l[i]? = some a) (b : α)
    (j : Nat) : (l.set i b)[j]? = if i = j then some b else l[j]? := by
  have hi : i < l.length := (List.getElem?_eq_some_iff.mp h).1
  rw [List.getElem?_set]
  simp [hi]

/-- Two distinct threads of one class make it count at least two. -/
theorem two_le_countP (p : α → Bool) {l : List α} {i j : Nat} {a b : α} (hi : l[i]? = some a)
    (hj : l[j]? = some b) (hij : i ≠ j) (ha : p a) (hb : p b) : 2 ≤ l.countP p := by
  induction l generalizing i j with
  | nil => simp at hi
  | cons x l ih =>
    cases i with
    | zero =>
      cases j with
      | zero => exact absurd rfl hij
      | succ j =>
        -- `x` is `a`, and `b` is further on
        have hx : x = a := by simpa using hi
        have hpos : 0 < l.countP p :=
          List.countP_pos_iff.mpr ⟨b, List.mem_of_getElem? hj, hb⟩
        simp only [List.countP_cons, hx, ha, if_true]
        omega
    | succ i =>
      cases j with
      | zero =>
        have hx : x = b := by simpa using hj
        have hpos : 0 < l.countP p :=
          List.countP_pos_iff.mpr ⟨a, List.mem_of_getElem? hi, ha⟩
        simp only [List.countP_cons, hx, hb, if_true]
        omega
      | succ j =>
        have := ih hi hj (fun h => hij (congrArg Nat.succ h))
        rw [List.countP_cons]
        omega

end Threads

section ActivePrefix

/-- The list with the elements at `i` and `j` exchanged, Go's `s[i], s[j] = s[j], s[i]`; out
of range, the list itself. -/
def swapAt (l : List α) (i j : Nat) : List α :=
  match l[i]?, l[j]? with
  | some a, some b => (l.set i b).set j a
  | _, _ => l

@[simp] theorem length_swapAt (l : List α) (i j : Nat) : (swapAt l i j).length = l.length := by
  unfold swapAt
  split <;> simp

theorem getElem?_swapAt_of_ne {l : List α} {i j k : Nat} (hi : k ≠ i) (hj : k ≠ j) :
    (swapAt l i j)[k]? = l[k]? := by
  unfold swapAt
  split
  · rw [List.getElem?_set, if_neg (Ne.symm hj), List.getElem?_set, if_neg (Ne.symm hi)]
  · rfl

/-- The exchange keeps the elements. -/
theorem swapAt_perm (l : List α) (i j : Nat) : (swapAt l i j).Perm l := by
  classical
  unfold swapAt
  split
  · rename_i a b ha hb
    obtain ⟨hil, rfl⟩ := List.getElem?_eq_some_iff.mp ha
    obtain ⟨hjl, rfl⟩ := List.getElem?_eq_some_iff.mp hb
    rw [List.perm_iff_count]
    intro x
    have hjl' : j < (l.set i l[j]).length := by simpa using hjl
    -- after the first write the element at `j` is still `l[j]`
    have hj : (l.set i l[j])[j] = l[j] := by
      rw [List.getElem_set]
      split <;> simp_all
    have hpos : (if (l[i] == x) = true then 1 else 0) ≤ l.count x := by
      split
      · rename_i h
        exact List.count_pos_iff.mpr (by simpa [beq_iff_eq.mp h] using List.getElem_mem hil)
      · exact Nat.zero_le _
    rw [List.count_set hjl', List.count_set hil, hj]
    by_cases hx : (l[i] == x) = true <;> by_cases hy : (l[j] == x) = true <;>
      simp only [hx, hy, if_true, if_false, Bool.false_eq_true] at hpos ⊢ <;> omega
  · exact List.Perm.refl l

/-- Deactivating element `i` of the active part `l.take n` makes it the first inactive one. -/
theorem drop_swapAt_pred {l : List α} {i n : Nat} (hi : i < n) (hn : n ≤ l.length) :
    (swapAt l i (n - 1)).drop (n - 1) = l[i] :: l.drop n := by
  have hil : i < l.length := by omega
  have hnl : n - 1 < l.length := by omega
  have hdrop : l.drop (n - 1) = l[n - 1] :: l.drop n := by
    rw [List.drop_eq_getElem_cons hnl, Nat.sub_add_cancel (by omega : 1 ≤ n)]
  unfold swapAt
  rw [List.getElem?_eq_getElem hil, List.getElem?_eq_getElem hnl]
  simp only
  rw [List.drop_set, if_neg (Nat.lt_irrefl _), Nat.sub_self, List.drop_set]
  by_cases hin : i < n - 1
  · rw [if_pos hin, hdrop]
    rfl
  · -- `i` is the last active element: the exchange is with itself
    have hi' : i = n - 1 := by omega
    subst hi'
    rw [if_neg hin, Nat.sub_self, List.set_set, hdrop]
    rfl

/-- An exchange past the first `k` elements is an exchange in the rest. -/
theorem drop_swapAt {l : List α} {i j k : Nat} (hi : k ≤ i) (hj : k ≤ j) :
    (swapAt l i j).drop k = swapAt (l.drop k) (i - k) (j - k) := by
  have hi' : k + (i - k) = i := Nat.add_sub_cancel' hi
  have hj' : k + (j - k) = j := Nat.add_sub_cancel' hj
  unfold swapAt
  rw [List.getElem?_drop, List.getElem?_drop, hi', hj']
  split
  · rw [List.drop_set, if_neg (by omega), List.drop_set, if_neg (by omega)]
  · rfl

/-- Erasing an active element shifts the inactive part down by one and keeps it. -/
theorem drop_eraseIdx_of_lt {l : List α} {i n : Nat} (hi : i < n) :
    (l.eraseIdx i).drop (n - 1) = l.drop n := by
  induction i generalizing l n with
  | zero =>
    obtain ⟨m, rfl⟩ : ∃ m, n = m + 1 := ⟨n - 1, by omega⟩
    cases l <;> simp
  | succ i ih =>
    obtain ⟨m, rfl⟩ : ∃ m, n = m + 1 + 1 := ⟨n - 2, by omega⟩
    cases l with
    | nil => simp
    | cons x l =>
      have := ih (l := l) (n := m + 1) (by omega)
      simpa using this

/-- Erasing an inactive element erases it from the inactive part. -/
theorem drop_eraseIdx_of_le {l : List α} {i n : Nat} (hn : n ≤ i) :
    (l.eraseIdx i).drop n = (l.drop n).eraseIdx (i - n) := by
  induction n generalizing l i with
  | zero => simp
  | succ n ih =>
    obtain ⟨i, rfl⟩ : ∃ j, i = j + 1 := ⟨i - 1, by omega⟩
    cases l with
    | nil => simp
    | cons x l =>
      have := ih (l := l) (i := i) (by omega)
      simpa using this

/-- Erasing the element at `i` takes one of it out of the count. -/
theorem count_eraseIdx_add [BEq α] {l : List α} {i : Nat} {a : α} (h : l[i]? = some a) (x : α) :
    (l.eraseIdx i).count x + (a == x).toNat = l.count x := by
  obtain ⟨hi, rfl⟩ := List.getElem?_eq_some_iff.mp h
  rw [← (List.getElem_cons_eraseIdx_perm hi).count_eq x, List.count_cons]
  cases l[i] == x <;> rfl

/-- Erasing an element of the list takes one of it out of the count. -/
theorem count_erase_add [BEq α] [LawfulBEq α] {l : List α} {b : α} (h : b ∈ l) (a : α) :
    (l.erase b).count a + (b == a).toNat = l.count a := by
  rw [List.count_erase]
  cases hba : b == a
  · simp
  · have : 0 < l.count a := List.count_pos_iff.mpr (by simpa [beq_iff_eq.mp hba] using h)
    simp only [if_true, Bool.toNat_true]
    omega

end ActivePrefix

end InPlace
