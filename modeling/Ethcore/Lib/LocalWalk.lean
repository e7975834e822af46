import Mathlib.Data.List.Nodup

/-!
# Walks whose steps write one key each

A walk over a list of distinct keys, whose step at a key writes that key only and reads
nothing at the other keys, ends with every key of the list written once, as the step alone
would write it from the start, and every other key as it was: the order of the walk does not
matter.

`read s a` is what the step at `a` reads there and `write s a` what it writes there; a step
may rely on `ok a` of what it reads (a precondition at its own key, which the steps at other
keys keep).  `LocalStep.foldl` is the walk of a total step, `LocalStepM.foldlM` that of a
step that may fail, which does not fail while the precondition holds.
-/

variable {σ α ρ τ : Type}

/-- The step at `a` writes `g a (read s a) (write s a)` at `a`, given `ok` there, and leaves
what is read and written at every other key as it was. -/
def LocalStep (read : σ → α → ρ) (write : σ → α → τ) (ok : α → ρ → Prop) (g : α → ρ → τ → τ)
    (step : σ → α → σ) : Prop :=
  ∀ s a, ok a (read s a) →
    write (step s a) a = g a (read s a) (write s a) ∧
      ∀ b, b ≠ a → read (step s a) b = read s b ∧ write (step s a) b = write s b

/-- The same for a step that may fail: it does not where `ok` holds. -/
def LocalStepM (read : σ → α → ρ) (write : σ → α → τ) (ok : α → ρ → Prop) (g : α → ρ → τ → τ)
    (step : σ → α → Option σ) : Prop :=
  ∀ s a, ok a (read s a) → ∃ s', step s a = some s' ∧
    write s' a = g a (read s a) (write s a) ∧
      ∀ b, b ≠ a → read s' b = read s b ∧ write s' b = write s b

variable [DecidableEq α] {read : σ → α → ρ} {write : σ → α → τ} {ok : α → ρ → Prop}
  {g : α → ρ → τ → τ}

/-- A walk of local steps over distinct keys writes each key of the list once, from what it
read at the start. -/
theorem LocalStep.foldl {step : σ → α → σ} (h : LocalStep read write ok g step) :
    ∀ {l : List α}, l.Nodup → ∀ s, (∀ a ∈ l, ok a (read s a)) →
      ∀ b, write (l.foldl step s) b = if b ∈ l then g b (read s b) (write s b) else write s b := by
  intro l
  induction l with
  | nil => simp
  | cons a l ih =>
    intro hnd s hok b
    obtain ⟨hanot, hnd⟩ := List.nodup_cons.mp hnd
    obtain ⟨hwa, hframe⟩ := h s a (hok a List.mem_cons_self)
    -- the keys still to come read after the step at `a` what they read before it
    have hok' : ∀ c ∈ l, ok c (read (step s a) c) := by
      intro c hc
      have hca : c ≠ a := fun hca => hanot (hca ▸ hc)
      rw [(hframe c hca).1]
      exact hok c (List.mem_cons_of_mem a hc)
    rw [List.foldl_cons, ih hnd _ hok' b]
    by_cases hba : b = a
    · subst hba
      simp [hanot, hwa]
    · have hb := hframe b hba
      simp [hba, hb.1, hb.2]

/-- A walk of local steps that may fail does not fail over distinct keys where the
precondition holds, and writes each key of the list once, from what it read at the start. -/
theorem LocalStepM.foldlM {step : σ → α → Option σ} (h : LocalStepM read write ok g step) :
    ∀ {l : List α}, l.Nodup → ∀ s, (∀ a ∈ l, ok a (read s a)) →
      ∃ s', l.foldlM step s = some s' ∧
        ∀ b, write s' b = if b ∈ l then g b (read s b) (write s b) else write s b := by
  intro l
  induction l with
  | nil => intro _ s _; exact ⟨s, rfl, fun b => by simp⟩
  | cons a l ih =>
    intro hnd s hok
    obtain ⟨hanot, hnd⟩ := List.nodup_cons.mp hnd
    obtain ⟨s1, hstep, hwa, hframe⟩ := h s a (hok a List.mem_cons_self)
    have hok' : ∀ c ∈ l, ok c (read s1 c) := by
      intro c hc
      have hca : c ≠ a := fun hca => hanot (hca ▸ hc)
      rw [(hframe c hca).1]
      exact hok c (List.mem_cons_of_mem a hc)
    obtain ⟨s', hrest, hw⟩ := ih hnd s1 hok'
    refine ⟨s', by simp [List.foldlM_cons, hstep, hrest], fun b => ?_⟩
    rw [hw b]
    by_cases hba : b = a
    · subst hba
      simp [hanot, hwa]
    · have hb := hframe b hba
      simp [hba, hb.1, hb.2]
