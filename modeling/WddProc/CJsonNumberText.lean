import WddProc.CanonicalFloat
import WddProc.CJsonNumber
import WddProc.CJsonMinified

/-!
# The texts of numbers

`print_number` writes into a block of 21 or of 64 bytes without looking at its size. Whatever
the bits of the `double`, the text and its NUL fit, and no byte of it is dropped by minifying.
-/

namespace WddProc
namespace PrintNumber

open WholeFloat CanonicalFloat Minify
open Float.Model (UnpackedFloat)

theorem plain_of_digit {b : UInt8} (h : isDigit b = true) : PlainByte b := by
  have hn : 48 ≤ b.toNat ∧ b.toNat ≤ 57 := by simpa [isDigit,UInt8.le_iff_toNat_le] using h
  refine ⟨?_,?_,?_,?_⟩
  · rintro rfl; simp at hn
  · rintro (rfl | rfl | rfl | rfl) <;> simp at hn
  · rintro rfl; simp at hn
  · rintro rfl; simp at hn

theorem plain_natText (n : ℕ) : ∀ b ∈ natText n, PlainByte b :=
  fun b hb => plain_of_digit (natText_isDigit n b hb)

theorem plain_padded (w n : ℕ) : ∀ b ∈ padded w n, PlainByte b := by
  intro b hb
  rcases List.mem_append.mp hb with hb | hb
  · rw [(List.mem_replicate.mp hb).2]
    decide
  · exact plain_natText n b hb

theorem plain_fixed (k m : ℕ) (e : ℤ) : ∀ b ∈ fixed k m e, PlainByte b := by
  unfold fixed
  dsimp only
  rw [List.forall_mem_append]
  refine ⟨plain_natText _,?_⟩
  split
  · simp
  · exact List.forall_mem_cons.mpr ⟨by decide,plain_padded _ _⟩

theorem plain_exponential (m : ℕ) (e : ℤ) : ∀ b ∈ exponential m e, PlainByte b := by
  have hsign : PlainByte (if (scientific m e).2 < 0 then 45 else 43) := by split <;> decide
  unfold exponential
  dsimp only
  rw [List.forall_mem_append,List.forall_mem_cons,List.forall_mem_append,List.forall_mem_cons,
    List.forall_mem_cons]
  exact ⟨plain_natText _,by decide,plain_padded _ _,by decide,hsign,plain_padded _ _⟩

theorem plain_printDouble {text : ℕ → ℤ → Bytes} (h : ∀ m e, ∀ b ∈ text m e, PlainByte b) (d : F64) :
    ∀ b ∈ printDouble text d, PlainByte b := by
  have hsign : ∀ b ∈ (if d &&& 0x8000000000000000 = 0 then [] else [45] : Bytes), PlainByte b := by
    split
    · exact fun b hb => absurd hb List.not_mem_nil
    · exact List.forall_mem_singleton.mpr (by decide)
  unfold printDouble
  rw [List.forall_mem_append]
  refine ⟨hsign,?_⟩
  split
  · exact plain_of_all (by decide)
  · exact plain_of_all (by decide)
  · exact h 0 0
  · exact h _ _

theorem plain_decimal (z : ℤ) : ∀ b ∈ decimal z, PlainByte b := by
  intro b hb
  rcases decimal_mem hb with rfl | hb
  · decide
  · exact plain_of_digit hb

theorem plain_text (valueint : ℤ) (valuedouble : F64) : ∀ b ∈ text valueint valuedouble, PlainByte b := by
  unfold text
  dsimp only
  split_ifs
  · exact plain_decimal valueint
  · exact plain_printDouble (plain_fixed 0) valuedouble
  · exact plain_printDouble plain_exponential valuedouble
  · exact plain_printDouble (plain_fixed 6) valuedouble

theorem plainNumbers_ieee (p : Platform) (lm : Libm) : PlainNumbers (p.ieee lm) := plain_text

theorem roundScaled_le {m k B : ℕ} {e : ℤ} (h : m * 10 ^ k * 2 ^ e.toNat / 2 ^ (-e).toNat < B) :
    roundScaled m e k ≤ B := by
  unfold roundScaled
  dsimp only
  split <;> omega

theorem fixed_length {k m w : ℕ} {e : ℤ} (hw : 0 < w) (h : roundScaled m e k < 10 ^ (w + k)) :
    (fixed k m e).length ≤ w + if k = 0 then 0 else k + 1 := by
  have hdiv : roundScaled m e k / 10 ^ k < 10 ^ w := by
    rw [Nat.div_lt_iff_lt_mul (Nat.pow_pos (by decide)),← pow_add]
    exact h
  have hwhole := (natText_length_le_iff hw).mpr hdiv
  unfold fixed
  dsimp only
  split
  · simpa using hwhole
  · next hk =>
    have hfrac := padded_length (Nat.pos_of_ne_zero hk) (Nat.mod_lt (roundScaled m e k)
      (Nat.pow_pos (n := k) (show 0 < 10 by decide)))
    rw [List.length_append,List.length_cons,hfrac]
    omega

theorem fixed_zero_length {m : ℕ} {e : ℤ} (hm : m < 2^53) (he : e ≤ 147) : (fixed 0 m e).length ≤ 61 := by
  have hvalue : m * 10 ^ 0 * 2 ^ e.toNat / 2 ^ (-e).toNat < 2^200 := by
    refine lt_of_le_of_lt (Nat.div_le_self _ _) ?_
    calc m * 10 ^ 0 * 2 ^ e.toNat ≤ m * 10 ^ 0 * 2 ^ 147 :=
          Nat.mul_le_mul_left _ (Nat.pow_le_pow_right (by decide) (by omega))
      _ < 2^200 := by omega
  exact fixed_length (w := 61) (by decide) (lt_of_le_of_lt (roundScaled_le hvalue) (by decide))

theorem fixed_six_length {m : ℕ} {e : ℤ} (hm : m < 2^53) (he : e ≤ -23) : (fixed 6 m e).length ≤ 17 := by
  have hvalue : m * 10 ^ 6 * 2 ^ e.toNat / 2 ^ (-e).toNat < 2^30 * 10^6 := by
    rw [show e.toNat = 0 by omega,pow_zero,Nat.mul_one,Nat.div_lt_iff_lt_mul (Nat.two_pow_pos _)]
    calc m * 10 ^ 6 < 2^30 * 10^6 * 2^23 := by omega
      _ ≤ 2^30 * 10^6 * 2 ^ (-e).toNat := Nat.mul_le_mul_left _ (Nat.pow_le_pow_right (by decide) (by omega))
  exact fixed_length (w := 10) (by decide) (lt_of_le_of_lt (roundScaled_le hvalue) (by decide))

/-- The search stops at the first place with a digit, or at its bound. -/
theorem leadingZeros_spec (m k f : ℕ) : leadingZeros m k f ≤ f ∧
    (0 < leadingZeros m k f → m * 10 ^ (leadingZeros m k f - 1) < 2 ^ k) := by
  induction f generalizing m with
  | zero => exact ⟨le_refl 0,fun h => absurd h (Nat.lt_irrefl 0)⟩
  | succ f ih =>
    rw [leadingZeros]
    split
    · exact ⟨Nat.zero_le _,fun h => absurd h (Nat.lt_irrefl 0)⟩
    · next hlt =>
      obtain ⟨hle,hz⟩ := ih (m * 10)
      refine ⟨Nat.succ_le_succ hle,fun _ => ?_⟩
      rw [Nat.add_sub_cancel]
      rcases Nat.eq_zero_or_pos (leadingZeros (m * 10) k f) with h₀ | hpos
      · rw [h₀,pow_zero,Nat.mul_one]
        omega
      · have h := hz hpos
        rwa [Nat.mul_assoc,← pow_succ',Nat.sub_add_cancel hpos] at h

def zeros (m : ℕ) (e : ℤ) : ℕ := if m = 0 then 0 else leadingZeros (m * 2 ^ e.toNat) (-e).toNat 400

def firstExponent (m : ℕ) (e : ℤ) : ℤ :=
  if zeros m e = 0 then ((natText (m * 2 ^ e.toNat / 2 ^ (-e).toNat)).length : ℤ) - 1 else -zeros m e

theorem zeros_spec (m : ℕ) (e : ℤ) : zeros m e ≤ 400 ∧
    (0 < zeros m e → m * 2 ^ e.toNat * 10 ^ (zeros m e - 1) < 2 ^ (-e).toNat) := by
  unfold zeros
  split
  · exact ⟨Nat.zero_le _,fun h => absurd h (Nat.lt_irrefl 0)⟩
  · exact leadingZeros_spec _ _ _

theorem scaled_lt (m : ℕ) (e : ℤ) : m * 2 ^ e.toNat * 10 ^ (6 - firstExponent m e).toNat <
    10 ^ 7 * (2 ^ (-e).toNat * 10 ^ (firstExponent m e - 6).toNat) := by
  obtain ⟨-,hzeros⟩ := zeros_spec m e
  unfold firstExponent
  generalize zeros m e = z at hzeros ⊢
  generalize m * 2 ^ e.toNat = V at hzeros ⊢
  have hD : 0 < 2 ^ (-e).toNat := Nat.two_pow_pos _
  generalize 2 ^ (-e).toNat = D at hzeros hD ⊢
  split
  · have hpos : 0 < (natText (V / D)).length := List.length_pos_iff.mpr (natText_ne_nil _)
    have hV : V < 10 ^ (natText (V / D)).length * D := by
      rw [← Nat.div_lt_iff_lt_mul hD]
      exact (natText_length_le_iff hpos).mp (le_refl _)
    generalize (natText (V / D)).length = L at hpos hV ⊢
    by_cases hL : L ≤ 7
    · rw [show (6 - ((L : ℤ) - 1)).toNat = 7 - L by omega,show ((L : ℤ) - 1 - 6).toNat = 0 by omega,
        pow_zero,Nat.mul_one]
      calc V * 10 ^ (7 - L) < 10 ^ L * D * 10 ^ (7 - L) := Nat.mul_lt_mul_of_pos_right hV (by positivity)
        _ = 10 ^ (L + (7 - L)) * D := by rw [pow_add]; ring
        _ = 10 ^ 7 * D := by rw [Nat.add_sub_cancel' hL]
    · rw [show (6 - ((L : ℤ) - 1)).toNat = 0 by omega,show ((L : ℤ) - 1 - 6).toNat = L - 7 by omega,
        pow_zero,Nat.mul_one]
      calc V < 10 ^ L * D := hV
        _ = 10 ^ (7 + (L - 7)) * D := by rw [Nat.add_sub_cancel' (by omega)]
        _ = 10 ^ 7 * (D * 10 ^ (L - 7)) := by rw [pow_add]; ring
  · next hz =>
    have hV := hzeros (Nat.pos_of_ne_zero hz)
    rw [show (6 - -(z : ℤ)).toNat = z - 1 + 7 by omega,show (-(z : ℤ) - 6).toNat = 0 by omega,pow_zero,
      Nat.mul_one]
    calc V * 10 ^ (z - 1 + 7) = 10 ^ 7 * (V * 10 ^ (z - 1)) := by rw [pow_add]; ring
      _ < 10 ^ 7 * D := Nat.mul_lt_mul_of_pos_left hV (by decide)

theorem shifted_lt {m k j : ℕ} (hm : m < 2^53) (hk : 53 + k ≤ 3 * j) : m * 2 ^ k < 10 ^ j := by
  calc m * 2 ^ k < 2^53 * 2 ^ k := Nat.mul_lt_mul_of_pos_right hm (Nat.two_pow_pos k)
    _ = 2 ^ (53 + k) := (pow_add 2 53 k).symm
    _ ≤ 2 ^ (3 * j) := Nat.pow_le_pow_right (by decide) hk
    _ = (2^3) ^ j := pow_mul 2 3 j
    _ ≤ 10 ^ j := Nat.pow_le_pow_left (by decide) j

theorem firstExponent_bound {m : ℕ} {e : ℤ} (hm : m < 2^53) (he : e ≤ 971) :
    -400 ≤ firstExponent m e ∧ firstExponent m e ≤ 341 := by
  obtain ⟨hz,-⟩ := zeros_spec m e
  have hlarge : m * 2 ^ e.toNat / 2 ^ (-e).toNat < 10^342 :=
    lt_of_le_of_lt (Nat.div_le_self _ _) (shifted_lt hm (by omega))
  have hdigits := (natText_length_le_iff (k := 342) (by decide)).mpr hlarge
  have hpos : 0 < (natText (m * 2 ^ e.toNat / 2 ^ (-e).toNat)).length := List.length_pos_iff.mpr (natText_ne_nil _)
  unfold firstExponent
  split <;> omega

theorem scientific_bound {m : ℕ} {e : ℤ} (hm : m < 2^53) (he : e ≤ 971) :
    (scientific m e).1 < 10^7 ∧ (scientific m e).2.natAbs < 10^3 := by
  obtain ⟨hlo,hhi⟩ := firstExponent_bound hm he
  have hlt := scaled_lt m e
  have hscientific : scientific m e =
      let num := m * 2 ^ e.toNat * 10 ^ (6 - firstExponent m e).toNat
      let den := 2 ^ (-e).toNat * 10 ^ (firstExponent m e - 6).toNat
      let n := if 2 * (num % den) < den ∨ 2 * (num % den) = den ∧ num / den % 2 = 0 then num / den
        else num / den + 1
      if n = 10 ^ 7 then (10 ^ 6,firstExponent m e + 1) else (n,firstExponent m e) := rfl
  rw [hscientific]
  generalize m * 2 ^ e.toNat * 10 ^ (6 - firstExponent m e).toNat = num at hlt ⊢
  have hden : 0 < 2 ^ (-e).toNat * 10 ^ (firstExponent m e - 6).toNat := by positivity
  generalize 2 ^ (-e).toNat * 10 ^ (firstExponent m e - 6).toNat = den at hlt hden ⊢
  have hdiv : num / den < 10 ^ 7 := (Nat.div_lt_iff_lt_mul hden).mpr hlt
  have hround : (if 2 * (num % den) < den ∨ 2 * (num % den) = den ∧ num / den % 2 = 0 then num / den
      else num / den + 1) ≤ 10 ^ 7 := by split <;> omega
  dsimp only
  generalize (if 2 * (num % den) < den ∨ 2 * (num % den) = den ∧ num / den % 2 = 0 then num / den
      else num / den + 1) = n at hround ⊢
  split
  · exact ⟨show 10 ^ 6 < 10 ^ 7 by decide,show (firstExponent m e + 1).natAbs < 10 ^ 3 by omega⟩
  · exact ⟨show n < 10 ^ 7 by omega,show (firstExponent m e).natAbs < 10 ^ 3 by omega⟩

theorem exponential_length {m : ℕ} {e : ℤ} (hm : m < 2^53) (he : e ≤ 971) : (exponential m e).length ≤ 13 := by
  obtain ⟨hdigits,hexp⟩ := scientific_bound hm he
  have hfirst : (natText ((scientific m e).1 / 10 ^ 6)).length ≤ 1 :=
    (natText_length_le_iff (by decide)).mpr (by omega)
  have hrest := padded_length (w := 6) (n := (scientific m e).1 % 10 ^ 6) (by decide) (Nat.mod_lt _ (by decide))
  have hexponent := padded_length_le (w := 2) (k := 3) (by decide) (by decide) hexp
  unfold exponential
  simp only [List.length_append,List.length_cons,hrest]
  omega

/-- `cJSON_malloc(21)` or `cJSON_malloc(64)`. -/
def numberBlock (valueint : ℤ) (valuedouble : F64) : ℕ :=
  let d := Float.ofBits valuedouble
  if (ofInt valueint - d).abs ≤ epsilon ∧ d ≤ ofInt (2^31 - 1) ∧ ofInt (-2^31) ≤ d then 21 else 64

theorem printDouble_length {text : ℕ → ℤ → Bytes} {d : F64} {n : ℕ} (hn : 3 ≤ n) (hzero : (text 0 0).length ≤ n)
    (h : ∀ s m e hm, UnpackedFloat.unpack .binary64 d.toBitVec = .finite s m e hm → (text m e).length ≤ n) :
    (printDouble text d).length ≤ n + 1 := by
  have hsign : (if d &&& 0x8000000000000000 = 0 then [] else [45] : Bytes).length ≤ 1 := by split <;> simp
  unfold printDouble
  rw [List.length_append,Nat.add_comm]
  refine Nat.add_le_add ?_ hsign
  cases hu : UnpackedFloat.unpack .binary64 d.toBitVec with
  | notANumber => exact hn
  | infinity s => exact hn
  | zero s => exact hzero
  | finite s m e hm => exact h s m e hm hu

theorem parts_unpack {d : F64} {s : UnpackedFloat.Sign} {m : ℕ} {e : ℤ} {hm : 0 < m}
    (hu : UnpackedFloat.unpack .binary64 d.toBitVec = .finite s m e hm) : m < 2^53 ∧ e ≤ 971 := by
  have h : Parts m e := by
    have hcanonical := canonical_unpack d.toBitVec
    rwa [hu] at hcanonical
  rcases h with h | h <;> omega

theorem unpack_large : (1.0e60 : Float).toModel.unpack = .finite .positive 5605193857299268 147 (by decide) := by
  rw [show (1.0e60 : Float).toModel.unpack = UnpackedFloat.unpack .binary64 (1.0e60 : Float).toBits.toBitVec from rfl,
    show (1.0e60 : Float).toBits = 0x4c63e9e4e4c2f344 by decide +kernel]
  rfl

theorem unpack_billion : (1.0e9 : Float).toModel.unpack = .finite .positive 8388608000000000 (-23) (by decide) := by
  rw [show (1.0e9 : Float).toModel.unpack = UnpackedFloat.unpack .binary64 (1.0e9 : Float).toBits.toBitVec from rfl,
    show (1.0e9 : Float).toBits = 0x41cdcd6500000000 by decide +kernel]
  rfl

/-- Every text that `print_number` writes fits its block with the NUL, for every `long long` and
every `double`, infinities and NaN among them. -/
theorem number_text_fits (valueint : ℤ) (hlo : -2^63 ≤ valueint) (hhi : valueint < 2^63) (valuedouble : F64) :
    (text valueint valuedouble).length < numberBlock valueint valuedouble := by
  unfold text numberBlock
  dsimp only
  split_ifs with h₂₁ hwhole hexp
  · have hdigits : (natText valueint.natAbs).length ≤ 19 :=
      (natText_length_le_iff (by decide)).mpr (by omega)
    unfold decimal
    split
    · rw [List.length_cons]
      omega
    · omega
  · refine Nat.lt_of_le_of_lt (printDouble_length (n := 61) (by decide) (by decide) ?_) (by decide)
    intro s m e hm hu
    have hlt := (lt_iff _ _).mp hwhole.2
    rw [unpack_abs,hu,unpack_large] at hlt
    exact fixed_zero_length (parts_unpack hu).1 (exponent_le_of_lt hlt)
  · refine Nat.lt_of_le_of_lt (printDouble_length (n := 13) (by decide) (by decide) ?_) (by decide)
    intro s m e hm hu
    exact exponential_length (parts_unpack hu).1 (parts_unpack hu).2
  · refine Nat.lt_of_le_of_lt (printDouble_length (n := 17) (by decide) (by decide) ?_) (by decide)
    intro s m e hm hu
    have hlt : ¬ (1.0e9 : Float) < (Float.ofBits valuedouble).abs := fun h => hexp (Or.inr h)
    rw [lt_iff,unpack_abs,hu,unpack_billion] at hlt
    exact fixed_six_length (parts_unpack hu).1 (exponent_le_of_not_lt hlt)

theorem number_text_fits_min : (text (-2^63) 0xFFF0000000000000).length < numberBlock (-2^63) 0xFFF0000000000000 :=
  number_text_fits (-2^63) (by decide) (by decide) 0xFFF0000000000000

/-- With these numbers, minifying what `cJSON_Print` writes gives what `cJSON_PrintUnformatted`
writes, for every tree and in the same block. -/
theorem minify_print_ieee (p : Platform) (lm : Libm) (t : CJson) (rest : Bytes) : ∃ old : Bytes,
    (CJson.printValue (p.ieee lm) false 0 t).length + old.length = (CJson.print (p.ieee lm) t).length ∧
      cJSONMinify (CJson.print (p.ieee lm) t ++ 0 :: rest) =
        .done (CJson.printValue (p.ieee lm) false 0 t ++ 0 :: (old ++ rest)) :=
  minify_print (plainNumbers_ieee p lm) t 0 rest

end PrintNumber
end WddProc
