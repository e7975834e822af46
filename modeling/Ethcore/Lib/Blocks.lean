import Mathlib.Data.List.Basic

/-!
# A list kept in blocks of one length

A long array kept as a list of blocks, each `B` long: position `i` of the whole is position
`i % B` of block `i / B`.  Reading (`getElem?_flatten`) and writing (`flatten_modify_set`) a
position through its block is reading and writing the flattened list there.
-/

namespace Blocks

variable {α : Type} {B : Nat}

/-- Every block is `B` long. -/
def Uniform (B : Nat) (bs : List (List α)) : Prop := ∀ b ∈ bs, b.length = B

theorem Uniform.cons {b : List α} {bs : List (List α)} (h : Uniform B (b :: bs)) :
    b.length = B ∧ Uniform B bs :=
  ⟨h b List.mem_cons_self, fun c hc => h c (List.mem_cons_of_mem b hc)⟩

theorem Uniform.append {bs cs : List (List α)} (hb : Uniform B bs) (hc : Uniform B cs) :
    Uniform B (bs ++ cs) := by
  intro b hmem
  rcases List.mem_append.mp hmem with h | h
  · exact hb b h
  · exact hc b h

theorem length_flatten {bs : List (List α)} (h : Uniform B bs) :
    bs.flatten.length = bs.length * B := by
  induction bs with
  | nil => simp
  | cons b bs ih =>
    obtain ⟨hb, hbs⟩ := h.cons
    simp [ih hbs, hb, Nat.succ_mul, Nat.add_comm]

/-- Position `i` of the whole is position `i % B` of block `i / B`. -/
theorem getElem?_flatten {bs : List (List α)} (h : Uniform B bs) (hB : 0 < B) (i : Nat) :
    bs.flatten[i]? = bs[i / B]?.bind (·[i % B]?) := by
  induction bs generalizing i with
  | nil => simp
  | cons b bs ih =>
    obtain ⟨hb, hbs⟩ := h.cons
    rw [List.flatten_cons]
    by_cases hi : i < B
    · -- inside the first block
      rw [List.getElem?_append_left (by omega), Nat.div_eq_of_lt hi, Nat.mod_eq_of_lt hi]
      rfl
    · -- past it: one block fewer, `B` positions fewer
      have hle : B ≤ i := Nat.le_of_not_lt hi
      rw [List.getElem?_append_right (by omega), hb, Nat.div_eq_sub_div hB hle,
        Nat.mod_eq_sub_mod hle, List.getElem?_cons_succ]
      exact ih hbs (i - B)

theorem Uniform.modify_set {bs : List (List α)} (h : Uniform B bs) (k o : Nat) (x : α) :
    Uniform B (bs.modify k (·.set o x)) := by
  intro b hb
  obtain ⟨c, hc, hbc⟩ : ∃ c ∈ bs, b = c.set o x ∨ b = c := by
    induction bs generalizing k with
    | nil => simp at hb
    | cons d ds ih =>
      cases k with
      | zero =>
        rw [List.modify_zero_cons, List.mem_cons] at hb
        rcases hb with rfl | hb
        · exact ⟨d, List.mem_cons_self, .inl rfl⟩
        · exact ⟨b, List.mem_cons_of_mem d hb, .inr rfl⟩
      | succ k =>
        rw [List.modify_succ_cons, List.mem_cons] at hb
        rcases hb with rfl | hb
        · exact ⟨b, List.mem_cons_self, .inr rfl⟩
        · obtain ⟨c, hc, hbc⟩ := ih (fun e he => h e (List.mem_cons_of_mem d he)) k hb
          exact ⟨c, List.mem_cons_of_mem d hc, hbc⟩
  rcases hbc with hbc | hbc
  · rw [hbc, List.length_set]
    exact h c hc
  · rw [hbc]
    exact h c hc

/-- Writing position `i % B` of block `i / B` writes position `i` of the whole. -/
theorem flatten_modify_set {bs : List (List α)} (h : Uniform B bs) (hB : 0 < B) (i : Nat) (x : α) :
    (bs.modify (i / B) (·.set (i % B) x)).flatten = bs.flatten.set i x := by
  induction bs generalizing i with
  | nil => simp
  | cons b bs ih =>
    obtain ⟨hb, hbs⟩ := h.cons
    by_cases hi : i < B
    · -- inside the first block
      rw [Nat.div_eq_of_lt hi, Nat.mod_eq_of_lt hi, List.modify_zero_cons, List.flatten_cons,
        List.flatten_cons, List.set_append_left _ _ (by omega)]
    · -- past it
      have hle : B ≤ i := Nat.le_of_not_lt hi
      rw [Nat.div_eq_sub_div hB hle, Nat.mod_eq_sub_mod hle, List.modify_succ_cons,
        List.flatten_cons, List.flatten_cons, List.set_append_right _ _ (by omega), hb, ih hbs]

end Blocks
