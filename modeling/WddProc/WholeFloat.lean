import Mathlib

/-!
# Whole numbers in binary64

`Float` computes through unpacked floats of sign, mantissa and exponent. On whole
numbers below `2^53` conversion, sums, products and truncation are exact.
-/

namespace WddProc
namespace WholeFloat

open Float.Model Float.Model.UnpackedFloat

def unpacked (s : Sign) (n : ℕ) : UnpackedFloat :=
  if h : n = 0 then .zero s
  else .finite s (n * 2 ^ (52 - n.log2)) (-(52 - n.log2 : ℕ))
    (Nat.mul_pos (Nat.pos_of_ne_zero h) (Nat.two_pow_pos _))

def whole (s : Sign) (n : ℕ) : Float := .ofModel (pack (unpacked s n))

/-- Rounding towards zero; what is not finite goes to 0. -/
def trunc (f : Float) : ℤ := f.toModel.unpack.toInt 0 0

@[simp] theorem unpacked_zero (s : Sign) : unpacked s 0 = .zero s := rfl

theorem unpacked_pos (s : Sign) {n : ℕ} (hn : n ≠ 0) :
    unpacked s n = .finite s (n * 2 ^ (52 - n.log2)) (-(52 - n.log2 : ℕ))
      (Nat.mul_pos (Nat.pos_of_ne_zero hn) (Nat.two_pow_pos _)) := dif_neg hn

theorem log2_le {n : ℕ} (hn : n < 2^53) : n.log2 ≤ 52 := by
  rcases Nat.eq_zero_or_pos n with rfl | hpos
  · decide
  · have h := (Nat.log2_lt hpos.ne').mpr hn
    omega

theorem log2_mono {a b : ℕ} (ha : a ≠ 0) (hab : a ≤ b) : a.log2 ≤ b.log2 :=
  (Nat.le_log2 (by omega)).mpr ((Nat.log2_self_le ha).trans hab)

theorem log2_mul_two_pow {n : ℕ} (hn : n ≠ 0) (k : ℕ) : (n * 2 ^ k).log2 = n.log2 + k := by
  rw [Nat.log2_eq_iff (Nat.mul_ne_zero hn (Nat.two_pow_pos k).ne')]
  have hself := (Nat.log2_eq_iff hn).mp rfl
  constructor
  · rw [Nat.pow_add]
    exact Nat.mul_le_mul_right _ hself.1
  · rw [show n.log2 + k + 1 = n.log2 + 1 + k by omega,Nat.pow_add]
    exact Nat.mul_lt_mul_of_pos_right hself.2 (Nat.two_pow_pos k)

theorem log2_mantissa {n : ℕ} (hn : n ≠ 0) (hlt : n < 2^53) :
    (n * 2 ^ (52 - n.log2)).log2 = 52 := by
  have hle := log2_le hlt
  rw [log2_mul_two_pow hn]
  omega

theorem targetExponent_eq {n : ℕ} (hn : n ≠ 0) (hlt : n < 2^53) (j : ℕ) :
    Format.binary64.targetExponent (totalExponent (n * 2 ^ j) (-j)) = -(52 - n.log2 : ℕ) := by
  have hle := log2_le hlt
  simp only [Format.targetExponent,totalExponent,Format.mantissaBits,Format.minExponent,
    log2_mul_two_pow hn]
  norm_num
  omega

theorem shift_exact (n k : ℕ) :
    (ExtendedMantissa.mk (n * 2 ^ k) false false) >>> k = ExtendedMantissa.mk n false false := by
  induction k generalizing n with
  | zero => simp [HShiftRight.hShiftRight,Nat.repeat]
  | succ k ih =>
    have hk : n * 2 ^ (k + 1) = n * 2 * 2 ^ k := by ring
    change ((ExtendedMantissa.mk (n * 2 ^ (k + 1)) false false) >>> k).shiftRightOne = _
    rw [hk,ih (n * 2)]
    simp [ExtendedMantissa.shiftRightOne]

theorem shiftToExponent_whole (n : ℕ) {j k : ℕ} (hkj : k ≤ j) :
    shiftToExponent (n * 2 ^ j) (-j) .exact (-k) = (⟨n * 2 ^ k,false,false⟩,-(k : ℤ)) := by
  have hshift : (-(k : ℤ) - -(j : ℤ)).toNat = j - k := by omega
  have hmant : n * 2 ^ j = n * 2 ^ k * 2 ^ (j - k) := by
    rw [Nat.mul_assoc,← Nat.pow_add,Nat.add_sub_cancel' hkj]
  have hexp : -(j : ℤ) + (j - k : ℕ) = -(k : ℤ) := by omega
  simp only [shiftToExponent,hshift,hexp]
  rw [ExtendedMantissa.ofMantissaAndAccuracy,hmant,shift_exact]

theorem decreaseExponent_whole (n j k : ℕ) :
    decreaseExponent (n * 2 ^ j) (-j) (-k) = (n * 2 ^ (max j k),-((max j k : ℕ) : ℤ)) := by
  have hamount : (-(j : ℤ) - -(k : ℤ)).toNat = max j k - j := by omega
  have hexp : -(j : ℤ) - (max j k - j : ℕ) = -((max j k : ℕ) : ℤ) := by omega
  simp only [decreaseExponent,hamount,hexp,Nat.shiftLeft_eq,Nat.mul_assoc,← Nat.pow_add]
  rw [Nat.add_sub_cancel' (Nat.le_max_left _ _)]

theorem roundWithAccuracy_whole (s : Sign) {n j : ℕ} (hn : n ≠ 0) (hlt : n < 2^53)
    (hj : 52 - n.log2 ≤ j) :
    roundWithAccuracy .binary64 s (n * 2 ^ j) (-j) .exact = unpacked s n := by
  -- the first shift brings the leading bit to place 52, the second one has nothing to do
  have hshift {i : ℕ} (hi : 52 - n.log2 ≤ i) : shiftToTargetExponent .binary64 (n * 2 ^ i) (-i) .exact =
      (⟨n * 2 ^ (52 - n.log2),false,false⟩,(-(52 - n.log2 : ℕ) : ℤ)) := by
    rw [shiftToTargetExponent,targetExponent_eq hn hlt,shiftToExponent_whole n hi]
  have hpos : n * 2 ^ (52 - n.log2) ≠ 0 := Nat.mul_ne_zero hn (Nat.two_pow_pos _).ne'
  simp only [roundWithAccuracy,hshift hj,ExtendedMantissa.roundedMantissa,ExtendedMantissa.accuracy,
    Accuracy.roundToNearestEven,hshift le_rfl]
  rw [dif_neg hpos,unpacked_pos s hn]

theorem round_whole (s : Sign) {n : ℕ} (hn : n ≠ 0) (hlt : n < 2^53) (j : ℕ) :
    UnpackedFloat.round .binary64 s (n * 2 ^ j) (-j) = unpacked s n := by
  simp only [UnpackedFloat.round,targetExponent_eq hn hlt j,decreaseExponent_whole]
  exact roundWithAccuracy_whole s hn hlt (Nat.le_max_right _ _)

theorem toNat_implicit {m : ℕ} (hlo : 2^52 ≤ m) (hhi : m < 2^53) :
    (1#1 ++ BitVec.ofNat 52 m).toNat = m := by
  rw [BitVec.toNat_append,← Nat.shiftLeft_add_eq_or_of_lt (BitVec.isLt _),Nat.shiftLeft_eq]
  simp only [BitVec.toNat_ofNat]
  omega

theorem unpack_pack (s : Sign) {n : ℕ} (hlt : n < 2^53) :
    (pack (unpacked s n)).unpack = unpacked s n := by
  by_cases hn : n = 0
  · subst hn
    cases s <;> rfl
  have hle := log2_le hlt
  have hlog := log2_mantissa hn hlt
  have hpos : n * 2 ^ (52 - n.log2) ≠ 0 := Nat.mul_ne_zero hn (Nat.two_pow_pos _).ne'
  obtain ⟨hlo,hhi⟩ := (Nat.log2_eq_iff hpos).mp hlog
  have hmant := toNat_implicit hlo hhi
  have hexp : (BitVec.ofNat 11 (n.log2 + 1023)).toNat = n.log2 + 1023 := by
    rw [BitVec.toNat_ofNat,Nat.mod_eq_of_lt (by omega)]
  have hexp₀ : BitVec.ofNat 11 (n.log2 + 1023) ≠ 0#11 := by
    intro h
    simp [h] at hexp
  have hexp₁ : BitVec.ofNat 11 (n.log2 + 1023) ≠ -1#11 := by
    intro h
    simp [h] at hexp
    omega
  have hbias : (-((52 - n.log2 : ℕ) : ℤ) + 1023 + 52).toNat = n.log2 + 1023 := by omega
  have hpack : UnpackedFloat.pack .binary64 (unpacked s n) =
      packComponents .binary64 s (BitVec.ofNat 11 (n.log2 + 1023))
        (BitVec.ofNat 52 (n * 2 ^ (52 - n.log2))) := by
    simp only [unpacked_pos s hn,UnpackedFloat.pack,hlog,Format.exponentBias,Format.mantissaBits]
    norm_num [hbias]
    omega
  have hunbias : ((n.log2 + 1023 : ℕ) : ℤ) - (Format.binary64.exponentBias + (52 : ℕ)) =
      -(52 - n.log2 : ℕ) := by
    simp only [Format.exponentBias]
    omega
  simp only [Float.Model.unpack,Float.Model.pack,hpack,UnpackedFloat.unpack,
    unpackMantissa_packComponents,unpackExponent_packComponents,unpackSign_packComponents,
    Sign.ofBitVec_toBitVec,hexp₁,hexp,
    if_false]
  rw [if_neg hexp₀]
  simp only [unpacked_pos s hn,hmant,hunbias]

theorem whole_unpack (s : Sign) {n : ℕ} (hlt : n < 2^53) :
    (whole s n).toModel.unpack = unpacked s n := unpack_pack s hlt

theorem whole_mul (s t : Sign) {a b : ℕ} (ha : a < 2^53) (hb : b < 2^53) (hab : a * b < 2^53) :
    whole s a * whole t b = whole (s * t) (a * b) := by
  have hmul : UnpackedFloat.mul .binary64 (unpacked s a) (unpacked t b) = unpacked (s * t) (a * b) := by
    by_cases ha₀ : a = 0
    · by_cases hb₀ : b = 0 <;> simp [ha₀,hb₀,unpacked_pos,UnpackedFloat.mul]
    by_cases hb₀ : b = 0
    · simp [ha₀,hb₀,unpacked_pos,UnpackedFloat.mul]
    have hprod : a * 2 ^ (52 - a.log2) * (b * 2 ^ (52 - b.log2)) =
        a * b * 2 ^ (52 - a.log2 + (52 - b.log2)) := by ring
    have hexp : (-(52 - a.log2 : ℕ) : ℤ) + -(52 - b.log2 : ℕ) =
        -((52 - a.log2 + (52 - b.log2) : ℕ) : ℤ) := by omega
    have hlog := log2_mono ha₀ (Nat.le_mul_of_pos_right a (Nat.pos_of_ne_zero hb₀))
    rw [unpacked_pos s ha₀,unpacked_pos t hb₀,UnpackedFloat.mul,hprod,hexp]
    exact roundWithAccuracy_whole _ (Nat.mul_ne_zero ha₀ hb₀) hab (by omega)
  change Float.ofModel (pack (UnpackedFloat.mul .binary64 _ _)) = _
  rw [whole_unpack s ha,whole_unpack t hb,hmul]
  rfl

theorem whole_add {a b : ℕ} (hab : a + b < 2^53) :
    whole .positive a + whole .positive b = whole .positive (a + b) := by
  have hadd : UnpackedFloat.add .binary64 (unpacked .positive a) (unpacked .positive b) =
      unpacked .positive (a + b) := by
    by_cases ha₀ : a = 0
    · by_cases hb₀ : b = 0 <;> simp [ha₀,hb₀,unpacked_pos,UnpackedFloat.add]
    by_cases hb₀ : b = 0
    · simp [ha₀,hb₀,unpacked_pos,UnpackedFloat.add]
    -- both mantissas are brought to the smaller exponent
    set j := max (52 - a.log2) (52 - b.log2) with hj
    have hmin : min (-(52 - a.log2 : ℕ) : ℤ) (-(52 - b.log2 : ℕ)) = -(j : ℤ) := by omega
    have hsum : (a * 2 ^ j : ℕ) + (b * 2 ^ j : ℕ) = (((a + b) * 2 ^ j : ℕ) : ℤ) := by
      push_cast
      ring
    have hpos : (0 : ℤ) < ((a + b) * 2 ^ j : ℕ) := by positivity
    rw [unpacked_pos _ ha₀,unpacked_pos _ hb₀,UnpackedFloat.add]
    simp only [hmin,decreaseExponent_whole,Sign.apply]
    rw [max_eq_right (by omega),max_eq_right (by omega),hsum,UnpackedFloat.normalize,compare_gt_iff_gt.mpr hpos]
    simp only [Int.toNat_natCast]
    exact round_whole _ (by omega) hab j
  change Float.ofModel (pack (UnpackedFloat.add .binary64 _ _)) = _
  rw [whole_unpack _ (by omega),whole_unpack _ (by omega),hadd]
  rfl

/-- `(double) z`. -/
def ofInt (z : ℤ) : Float := .ofModel (.ofInt z)

theorem ofInt_natCast {n : ℕ} (hn : n < 2^53) : ofInt n = whole .positive n := by
  have hround : UnpackedFloat.ofInt .binary64 n = unpacked .positive n := by
    rcases Nat.eq_zero_or_pos n with rfl | hpos
    · rfl
    · have hpos' : (0 : ℤ) < n := by omega
      have h := round_whole .positive hpos.ne' hn 0
      rw [UnpackedFloat.ofInt,UnpackedFloat.normalize,compare_gt_iff_gt.mpr hpos']
      simpa using h
  rw [ofInt,Float.Model.ofInt,hround,whole]

theorem trunc_whole (s : Sign) {n : ℕ} (hn : n < 2^53) : trunc (whole s n) = s.apply n := by
  rw [trunc,whole_unpack s hn]
  by_cases hn₀ : n = 0
  · subst hn₀
    cases s <;> rfl
  · have hdec := decreaseExponent_whole n (52 - n.log2) 0
    have hshift := shiftToExponent_whole n (Nat.zero_le (52 - n.log2))
    simp only [Nat.cast_zero,neg_zero,Nat.max_zero] at hdec hshift
    rw [unpacked_pos s hn₀,UnpackedFloat.toInt,roundToInt]
    simp only [hdec,hshift,Nat.pow_zero,Nat.mul_one]

theorem whole_sub_self {n : ℕ} (hn : n < 2^53) :
    whole .positive n - whole .positive n = whole .positive 0 := by
  have hsub : UnpackedFloat.sub .binary64 (unpacked .positive n) (unpacked .positive n) =
      unpacked .positive 0 := by
    by_cases hn₀ : n = 0
    · subst hn₀
      rfl
    · rw [unpacked_pos _ hn₀,UnpackedFloat.sub]
      simp [UnpackedFloat.normalize]
  change Float.ofModel (pack (UnpackedFloat.sub .binary64 _ _)) = _
  rw [whole_unpack _ hn,hsub]
  rfl

theorem le_iff (f g : Float) : f ≤ g ↔ f.toModel.unpack.le g.toModel.unpack = true := by
  change decide (f.toModel ≤ g.toModel) = true ↔ _
  rw [decide_eq_true_iff]
  rfl

theorem whole_le {a b : ℕ} (hab : a ≤ b) (hb : b < 2^53) : whole .positive a ≤ whole .positive b := by
  rw [le_iff,whole_unpack _ (by omega),whole_unpack _ hb]
  by_cases hb₀ : b = 0
  · obtain rfl : a = 0 := by omega
    subst hb₀
    rfl
  by_cases ha₀ : a = 0
  · subst ha₀
    rw [unpacked_pos _ hb₀]
    rfl
  have hlog := log2_mono ha₀ hab
  have hlb := log2_le hb
  rw [unpacked_pos _ ha₀,unpacked_pos _ hb₀,UnpackedFloat.le,UnpackedFloat.compare]
  rcases Nat.lt_or_eq_of_le hlog with hlt | heq
  · have hexp : (-(52 - a.log2 : ℕ) : ℤ) < -(52 - b.log2 : ℕ) := by omega
    rw [compare_lt_iff_lt.mpr hexp]
    rfl
  · have hmant : a * 2 ^ (52 - a.log2) ≤ b * 2 ^ (52 - b.log2) := by
      rw [heq]
      exact Nat.mul_le_mul_right _ hab
    have hexp : (-(52 - a.log2 : ℕ) : ℤ) = -(52 - b.log2 : ℕ) := by rw [heq]
    rw [compare_eq_iff_eq.mpr hexp]
    rcases Nat.lt_or_eq_of_le hmant with hlt | heq
    · rw [compare_lt_iff_lt.mpr hlt]
      rfl
    · rw [compare_eq_iff_eq.mpr heq]
      rfl

theorem negative_le (a b : ℕ) (ha : a < 2^53) (hb : b < 2^53) (ha₀ : a ≠ 0) :
    whole .negative a ≤ whole .positive b := by
  rw [le_iff,whole_unpack _ ha,whole_unpack _ hb,unpacked_pos _ ha₀]
  by_cases hb₀ : b = 0
  · subst hb₀
    rfl
  · rw [unpacked_pos _ hb₀]
    rfl

end WholeFloat
end WddProc
