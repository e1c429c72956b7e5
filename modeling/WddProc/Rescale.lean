import Mathlib.Tactic
import Mathlib.Order.Interval.Set.UnorderedInterval

/-!
# Linear rescaling, and rounding to significant bits

The line through two points as one expression, over any numbers, and its laws over an
ordered field; rounding of integers to a number of significant bits, half to even.
-/

namespace WddProc
namespace Rescale

/-- The line that takes `a` to `c` and `b` to `d`. -/
def rescale {K : Type} [Add K] [Sub K] [Mul K] [Div K] (x a b c d : K) : K :=
  (x - a) * (d - c) / (b - a) + c

section Field

variable {K : Type} [Field K]

theorem rescale_left (a b c d : K) : rescale a a b c d = c := by simp [rescale]

theorem rescale_right {a b : K} (h : a ≠ b) (c d : K) : rescale b a b c d = d := by
  have hne : b - a ≠ 0 := sub_ne_zero.mpr h.symm
  rw [rescale,mul_div_cancel_left₀ _ hne,sub_add_cancel]

variable [LinearOrder K] [IsStrictOrderedRing K]

theorem rescale_strictMono {a b c d : K} (hab : a < b) (hcd : c < d) :
    StrictMono fun x => rescale x a b c d := by
  intro x y hxy
  have hmul : (x - a) * (d - c) < (y - a) * (d - c) :=
    mul_lt_mul_of_pos_right (sub_lt_sub_right hxy a) (sub_pos.mpr hcd)
  exact add_lt_add_left (div_lt_div_of_pos_right hmul (sub_pos.mpr hab)) c

theorem ratio_mem {a b x : K} (h : a ≠ b) (hx : x ∈ Set.uIcc a b) :
    0 ≤ (x - a) / (b - a) ∧ (x - a) / (b - a) ≤ 1 := by
  rcases lt_or_gt_of_ne h with hab | hba
  · rw [Set.uIcc_of_le hab.le] at hx
    have hpos : 0 < b - a := sub_pos.mpr hab
    exact ⟨div_nonneg (sub_nonneg.mpr hx.1) hpos.le,
      (div_le_one hpos).mpr (sub_le_sub_right hx.2 a)⟩
  · rw [Set.uIcc_of_ge hba.le] at hx
    have hneg : b - a < 0 := sub_neg.mpr hba
    exact ⟨div_nonneg_of_nonpos (sub_nonpos.mpr hx.2) hneg.le,
      (div_le_one_of_neg hneg).mpr (sub_le_sub_right hx.1 a)⟩

theorem rescale_mem {a b x : K} (h : a ≠ b) (hx : x ∈ Set.uIcc a b) (c d : K) :
    rescale x a b c d ∈ Set.uIcc c d := by
  obtain ⟨h₀,h₁⟩ := ratio_mem h hx
  have hline : rescale x a b c d = c + (x - a) / (b - a) * (d - c) := by
    rw [rescale]
    ring
  rw [hline,Set.mem_uIcc]
  rcases le_total c d with hcd | hdc
  · refine Or.inl ⟨?_,?_⟩
    · nlinarith [mul_nonneg h₀ (sub_nonneg.mpr hcd)]
    · nlinarith [mul_nonneg (sub_nonneg.mpr h₁) (sub_nonneg.mpr hcd)]
  · refine Or.inr ⟨?_,?_⟩
    · nlinarith [mul_nonneg (sub_nonneg.mpr h₁) (sub_nonneg.mpr hdc)]
    · nlinarith [mul_nonneg h₀ (sub_nonneg.mpr hdc)]

end Field

/-- The multiple of `2^e` nearest to `n`, the even one of two, where `e` leaves `k` bits. -/
def roundNat (k n : ℕ) : ℕ :=
  let e := n.log2 + 1 - k
  let q := n / 2 ^ e
  let r := n % 2 ^ e
  (if 2 * r < 2 ^ e ∨ 2 * r = 2 ^ e ∧ q % 2 = 0 then q else q + 1) * 2 ^ e

def roundInt (k : ℕ) (z : ℤ) : ℤ := z.sign * roundNat k z.natAbs

theorem roundNat_of_lt {k n : ℕ} (hk : 0 < k) (h : n < 2 ^ k) : roundNat k n = n := by
  have he : n.log2 + 1 - k = 0 := by
    rcases Nat.eq_zero_or_pos n with rfl | hn
    · rw [Nat.log2_zero]
      omega
    · have hlog := (Nat.log2_lt hn.ne').mpr h
      omega
  simp [roundNat,he,Nat.mod_one]

theorem roundNat_pos {k n : ℕ} (hk : 0 < k) (hn : n ≠ 0) : 0 < roundNat k n := by
  have hle : 2 ^ (n.log2 + 1 - k) ≤ n :=
    calc 2 ^ (n.log2 + 1 - k) ≤ 2 ^ n.log2 := Nat.pow_le_pow_right (by decide) (by omega)
      _ ≤ n := Nat.log2_self_le hn
  have hq : 0 < n / 2 ^ (n.log2 + 1 - k) := Nat.div_pos hle (Nat.two_pow_pos _)
  unfold roundNat
  refine Nat.mul_pos ?_ (Nat.two_pow_pos _)
  split <;> omega

theorem roundInt_eq_zero_iff {k : ℕ} (hk : 0 < k) (z : ℤ) : roundInt k z = 0 ↔ z = 0 := by
  rw [roundInt,mul_eq_zero,Int.sign_eq_zero_iff_zero]
  constructor
  · rintro (h | h)
    · exact h
    · by_contra hz
      have hpos := roundNat_pos hk (Int.natAbs_ne_zero.mpr hz)
      omega
  · exact Or.inl

theorem roundInt_of_lt {k : ℕ} (hk : 0 < k) {z : ℤ} (h : z.natAbs < 2 ^ k) : roundInt k z = z := by
  rw [roundInt,roundNat_of_lt hk h,Int.sign_mul_natAbs]

end Rescale
end WddProc
