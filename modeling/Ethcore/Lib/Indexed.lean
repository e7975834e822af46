import Mathlib.Logic.Function.Basic

/-!
# Items handed out at most once, indexed by key

A store that hands out work keeps an index from keys to items and knows, for each item, how
many times it is out (queued, or with some worker).  `Indexed key out index` says that no
item is out twice and that every item out is the item the index holds at its key.

Items come in by `add`, once their key is free in the index.  They move between the places
`out` counts, or leave with their keys cleared (`of_done`), and an operation that only moves
or drops items keeps the index as it is (`of_le`).
-/

variable {α K : Type}

/-- No item is out twice, and each item out is indexed at its key. -/
structure Indexed (key : α → K) (out : α → Nat) (index : K → Option α) : Prop where
  atMostOnce : ∀ a, out a ≤ 1
  index_key : ∀ a, 0 < out a → index (key a) = some a

namespace Indexed

variable {key : α → K} {out out' : α → Nat} {index index' : K → Option α}

/-- Nothing out. -/
theorem zero (key : α → K) (index : K → Option α) : Indexed key (fun _ => 0) index where
  atMostOnce _ := Nat.zero_le 1
  index_key _ h := absurd h (Nat.lt_irrefl 0)

variable [DecidableEq α]

/-- Taking the items of `done` out and clearing their keys, while the rest only moves. -/
theorem of_done (done : List α) (h : Indexed key out index)
    (hout : ∀ a, out' a + done.count a ≤ out a)
    (hindex : ∀ k, (∀ a ∈ done, key a ≠ k) → index' k = index k) :
    Indexed key out' index' where
  atMostOnce a := Nat.le_trans (Nat.le_of_add_right_le (hout a)) (h.atMostOnce a)
  index_key a hpos := by
    have ha : 0 < out a := Nat.lt_of_lt_of_le hpos (Nat.le_of_add_right_le (hout a))
    -- an item of `done` at the same key would be `a` itself, which is not done
    have hfree : ∀ b ∈ done, key b ≠ key a := by
      intro b hb hkey
      have hb' : 0 < out b :=
        Nat.lt_of_lt_of_le (List.count_pos_iff.mpr hb) (Nat.le_of_add_left_le (hout b))
      have hba : b = a := by
        have := h.index_key b hb'
        rw [hkey, h.index_key a ha] at this
        exact (Option.some.inj this).symm
      subst hba
      have := hout b
      have := h.atMostOnce b
      have := List.count_pos_iff.mpr hb
      omega
    rw [hindex _ hfree, h.index_key a ha]

/-- Moving items, or dropping them, with the index kept. -/
theorem of_le (h : Indexed key out index) (hout : ∀ a, out' a ≤ out a) :
    Indexed key out' index :=
  h.of_done [] (fun a => by simpa using hout a) fun _ _ => rfl

variable [DecidableEq K]

/-- Adding an item whose key is free in the index, and indexing it there. -/
theorem add (h : Indexed key out index) (b : α) (hfree : index (key b) = none)
    (hout : ∀ a, out' a = out a + if b = a then 1 else 0) :
    Indexed key out' (Function.update index (key b) (some b)) := by
  -- `b` was not out: its key would hold it
  have hb : out b = 0 := by
    by_contra hne
    have := h.index_key b (Nat.pos_of_ne_zero hne)
    rw [hfree] at this
    cases this
  constructor
  · intro a
    rw [hout a]
    by_cases hba : b = a
    · subst hba
      simp [hb]
    · simpa [hba] using h.atMostOnce a
  · intro a hpos
    by_cases hba : b = a
    · subst hba
      exact Function.update_self _ _ _
    · -- another item out keeps its key, which is not `b`'s
      have ha : 0 < out a := by simpa [hout a, hba] using hpos
      have hkey : key a ≠ key b := by
        intro hk
        have := h.index_key a ha
        rw [hk, hfree] at this
        cases this
      rw [Function.update_of_ne hkey, h.index_key a ha]

end Indexed
