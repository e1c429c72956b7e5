import Mathlib.Data.Set.Basic

/-!
# Marks that wait for a flush

In every round some items change, and a round may flush all marked items. An item
stays marked over rounds without a flush, and changing it twice marks it once.
-/

namespace WddProc

/-- The marks of an unbounded run of rounds; `marked k` are those round `k` may flush. -/
structure Marking (ι : Type) where
  first : Set ι
  changed : ℕ → Set ι
  flushes : ℕ → Prop
  marked : ℕ → Set ι
  marked_zero : marked 0 = first ∪ changed 0
  marked_succ : ∀ k, marked (k + 1) = {i | i ∈ marked k ∧ ¬ flushes k} ∪ changed (k + 1)

namespace Marking

variable {ι : Type} (m : Marking ι)

/-- No round from `j` on flushed before round `k`. -/
def Quiet (j k : ℕ) : Prop := ∀ l, j ≤ l → l < k → ¬ m.flushes l

theorem quiet_self (k : ℕ) : m.Quiet k k := fun _ hle hlt => absurd hle (Nat.not_le.mpr hlt)

theorem quiet_succ {j k : ℕ} (h : j ≤ k) : m.Quiet j (k + 1) ↔ m.Quiet j k ∧ ¬ m.flushes k := by
  constructor
  · intro hq
    exact ⟨fun l hle hlt => hq l hle (Nat.lt_succ_of_lt hlt),hq k h (Nat.lt_succ_self k)⟩
  · rintro ⟨hq,hk⟩ l hle hlt
    rcases Nat.lt_succ_iff_lt_or_eq.mp hlt with hlt | rfl
    · exact hq l hle hlt
    · exact hk

/-- The marked items of a round are those changed since the last flush, and those of
the first round as long as there was none. -/
theorem mem_marked_iff (k : ℕ) (i : ι) :
    i ∈ m.marked k ↔ i ∈ m.first ∧ m.Quiet 0 k ∨ ∃ j ≤ k, i ∈ m.changed j ∧ m.Quiet j k := by
  induction k with
  | zero =>
    rw [m.marked_zero]
    constructor
    · rintro (hi | hi)
      · exact Or.inl ⟨hi,m.quiet_self 0⟩
      · exact Or.inr ⟨0,Nat.le_refl 0,hi,m.quiet_self 0⟩
    · rintro (⟨hi,-⟩ | ⟨j,hj,hi,-⟩)
      · exact Or.inl hi
      · obtain rfl : j = 0 := Nat.le_zero.mp hj
        exact Or.inr hi
  | succ k ih =>
    rw [m.marked_succ]
    constructor
    · rintro (⟨hi,hk⟩ | hi)
      · rcases ih.mp hi with ⟨hi,hq⟩ | ⟨j,hj,hi,hq⟩
        · exact Or.inl ⟨hi,(m.quiet_succ (Nat.zero_le k)).mpr ⟨hq,hk⟩⟩
        · exact Or.inr ⟨j,Nat.le_succ_of_le hj,hi,(m.quiet_succ hj).mpr ⟨hq,hk⟩⟩
      · exact Or.inr ⟨k + 1,Nat.le_refl _,hi,m.quiet_self _⟩
    · rintro (⟨hi,hq⟩ | ⟨j,hj,hi,hq⟩)
      · obtain ⟨hq,hk⟩ := (m.quiet_succ (Nat.zero_le k)).mp hq
        exact Or.inl ⟨ih.mpr (Or.inl ⟨hi,hq⟩),hk⟩
      · rcases Nat.le_succ_iff.mp hj with hj | rfl
        · obtain ⟨hq,hk⟩ := (m.quiet_succ hj).mp hq
          exact Or.inl ⟨ih.mpr (Or.inr ⟨j,hj,hi,hq⟩),hk⟩
        · exact Or.inr hi

end Marking
end WddProc
