import WddProc.WholeFloat

/-!
# Canonical floats in binary64

Unpacking yields numbers with a leading bit at place 52 or with the least exponent. Packing
them loses nothing, so comparisons and absolute values can be read off the parts.
-/

namespace WddProc
namespace CanonicalFloat

open Float.Model Float.Model.UnpackedFloat WholeFloat

/-- The parts of a normal or a subnormal number. -/
def Parts (m : ℕ) (e : ℤ) : Prop := 2^52 ≤ m ∧ m < 2^53 ∧ -1074 ≤ e ∧ e ≤ 971 ∨ m < 2^52 ∧ e = -1074

def Canonical : UnpackedFloat → Prop
  | .finite _ m e _ => Parts m e
  | _ => True

theorem bias_eq : (Format.binary64.exponentBias : ℤ) = 1023 := rfl

theorem canonical_unpack (b : BitVec 64) : Canonical (UnpackedFloat.unpack .binary64 b) := by
  have hmant : (@unpackMantissa .binary64 b).toNat < 2^52 := BitVec.isLt _
  have hexp : (@unpackExponent .binary64 b).toNat < 2^11 := BitVec.isLt _
  unfold UnpackedFloat.unpack
  dsimp only
  split_ifs with h₁ h₂ h₃ h₄
  · trivial
  · trivial
  · trivial
  · exact Or.inr ⟨hmant,by rw [h₃,bias_eq]; rfl⟩
  · have h₂₀₄₇ : (@unpackExponent .binary64 b).toNat ≠ 2047 := fun h => h₁ (BitVec.eq_of_toNat_eq h)
    have h₀ : (@unpackExponent .binary64 b).toNat ≠ 0 := fun h => h₃ (BitVec.eq_of_toNat_eq h)
    have happend : (1#1 ++ @unpackMantissa .binary64 b).toNat =
        2^52 + (@unpackMantissa .binary64 b).toNat := by
      rw [BitVec.toNat_append,← Nat.shiftLeft_add_eq_or_of_lt hmant]
      rfl
    refine Or.inl ⟨?_,?_,?_,?_⟩
    · omega
    · omega
    · rw [bias_eq]
      omega
    · rw [bias_eq]
      omega

theorem unpack_pack_normal (s : Sign) {m : ℕ} {e : ℤ} (hm : 0 < m) (hlo : 2^52 ≤ m) (hhi : m < 2^53)
    (helo : -1074 ≤ e) (hehi : e ≤ 971) :
    UnpackedFloat.unpack .binary64 (UnpackedFloat.pack .binary64 (.finite s m e hm)) = .finite s m e hm := by
  have hlog : m.log2 = 52 := (Nat.log2_eq_iff hm.ne').mpr ⟨hlo,hhi⟩
  have hexp : (BitVec.ofNat 11 (e + 1075).toNat).toNat = (e + 1075).toNat := by
    rw [BitVec.toNat_ofNat,Nat.mod_eq_of_lt (by omega)]
  have hexp₀ : BitVec.ofNat 11 (e + 1075).toNat ≠ 0#11 := by
    intro h
    rw [h,BitVec.toNat_zero] at hexp
    omega
  have hexp₁ : BitVec.ofNat 11 (e + 1075).toNat ≠ -1#11 := by
    intro h
    rw [h] at hexp
    have h₂₀₄₇ : (-1#11).toNat = 2047 := rfl
    omega
  have hbias : e + (Format.binary64.exponentBias : ℤ) + (52 : ℕ) = e + 1075 := by
    rw [bias_eq]
    omega
  have hpack : UnpackedFloat.pack .binary64 (.finite s m e hm) =
      packComponents .binary64 s (BitVec.ofNat 11 (e + 1075).toNat) (BitVec.ofNat 52 m) := by
    simp only [UnpackedFloat.pack,hlog,hbias]
    rw [if_neg (by omega),if_pos (by decide)]
  have hunbias : (((e + 1075).toNat : ℕ) : ℤ) - (Format.binary64.exponentBias + (52 : ℕ)) = e := by
    rw [bias_eq]
    omega
  have hmant := toNat_implicit hlo hhi
  simp only [hpack,UnpackedFloat.unpack,unpackMantissa_packComponents,unpackExponent_packComponents,
    unpackSign_packComponents,Sign.ofBitVec_toBitVec,hexp₁,hexp,if_false]
  rw [if_neg hexp₀]
  simp only [hmant,hunbias]

theorem unpack_pack_subnormal (s : Sign) {m : ℕ} (hm : 0 < m) (hhi : m < 2^52) :
    UnpackedFloat.unpack .binary64 (UnpackedFloat.pack .binary64 (.finite s m (-1074) hm)) =
      .finite s m (-1074) hm := by
  have hlog : m.log2 < 52 := (Nat.log2_lt hm.ne').mpr hhi
  have hmant : (BitVec.ofNat 52 m).toNat = m := by
    rw [BitVec.toNat_ofNat,Nat.mod_eq_of_lt hhi]
  have hmant₀ : BitVec.ofNat 52 m ≠ 0#52 := by
    intro h
    rw [h,BitVec.toNat_zero] at hmant
    omega
  have hpack : UnpackedFloat.pack .binary64 (.finite s m (-1074) hm) =
      packComponents .binary64 s 0#11 (BitVec.ofNat 52 m) := by
    have hbits : Format.binary64.mantissaBits = 53 := rfl
    rw [UnpackedFloat.pack]
    dsimp only
    rw [if_neg (by decide),if_neg (by omega)]
  simp only [hpack,UnpackedFloat.unpack,unpackMantissa_packComponents,unpackExponent_packComponents,
    unpackSign_packComponents,Sign.ofBitVec_toBitVec]
  rw [if_neg (by decide),if_pos trivial,dif_neg hmant₀]
  simp only [hmant]
  rfl

theorem unpack_pack {u : UnpackedFloat} (h : Canonical u) : (pack u).unpack = u := by
  change UnpackedFloat.unpack .binary64 (UnpackedFloat.pack .binary64 u) = u
  cases u with
  | notANumber => rfl
  | infinity s => cases s <;> rfl
  | zero s => cases s <;> rfl
  | finite s m e hm =>
    rcases h with ⟨hlo,hhi,helo,hehi⟩ | ⟨hhi,rfl⟩
    · exact unpack_pack_normal s hm hlo hhi helo hehi
    · exact unpack_pack_subnormal s hm hhi

theorem canonical_abs {u : UnpackedFloat} (h : Canonical u) : Canonical u.abs := by
  cases u <;> exact h

theorem unpack_ofBits (d : UInt64) : (Float.ofBits d).toModel.unpack = UnpackedFloat.unpack .binary64 d.toBitVec :=
  unpack_pack (canonical_unpack _)

theorem unpack_abs (d : UInt64) :
    (Float.ofBits d).abs.toModel.unpack = (UnpackedFloat.unpack .binary64 d.toBitVec).abs := by
  change (pack (Float.ofBits d).toModel.unpack.abs).unpack = _
  rw [unpack_ofBits]
  exact unpack_pack (canonical_abs (canonical_unpack _))

theorem lt_iff (f g : Float) : f < g ↔ f.toModel.unpack.lt g.toModel.unpack = true := by
  change decide (f.toModel < g.toModel) = true ↔ _
  rw [decide_eq_true_iff]
  rfl

theorem exponent_le_of_lt {m n : ℕ} {e k : ℤ} {hm : 0 < m} {hn : 0 < n}
    (h : UnpackedFloat.lt (.finite .positive m e hm) (.finite .positive n k hn) = true) : e ≤ k := by
  by_contra hlt
  have hcompare : compare e k = .gt := compare_gt_iff_gt.mpr (by omega)
  rw [UnpackedFloat.lt,UnpackedFloat.compare,hcompare] at h
  cases h

theorem exponent_le_of_not_lt {m n : ℕ} {e k : ℤ} {hm : 0 < m} {hn : 0 < n}
    (h : ¬ UnpackedFloat.lt (.finite .positive n k hn) (.finite .positive m e hm) = true) : e ≤ k := by
  by_contra hlt
  have hcompare : compare k e = .lt := compare_lt_iff_lt.mpr (by omega)
  rw [UnpackedFloat.lt,UnpackedFloat.compare,hcompare] at h
  exact h rfl

end CanonicalFloat
end WddProc
