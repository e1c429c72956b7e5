import WddProc.CJsonGrammar
import WddProc.WholeFloat

/-!
# Numbers in cJSON

The arithmetic of `parse_number` and the text of `print_number` in binary64. The powers
of ten come from the C library.
-/

namespace WddProc

open WholeFloat

namespace Literal

def appendDigits (n : ℕ) (ds : List ℕ) : ℕ := ds.foldl (fun a d => a * 10 + d) n

def digits (l : Literal) : ℕ := appendDigits 0 (l.whole ++ l.frac)

def scale (l : Literal) : ℤ := l.subscale - l.frac.length

def sign (l : Literal) : ℤ := if l.neg then -1 else 1

def rat (l : Literal) : ℚ := l.sign * l.digits * 10 ^ l.scale

end Literal

/-- `pow` of the C library on powers of ten. -/
structure Libm where
  /-- `pow(10.0, e)`; for an exponent that the `int` of `parse_number` cannot hold, what the
  overflow leads to. -/
  pow10 : ℤ → Float
  pow10_zero : pow10 0 = ofInt 1

namespace Libm

def readDigits (n : Float) (ds : List ℕ) : Float := ds.foldl (fun n d => n * ofInt 10 + ofInt d) n

/-- The `double` that `parse_number` stores. -/
def parseNumber (lm : Libm) (l : Literal) : Float :=
  ofInt l.sign * readDigits (ofInt 0) (l.whole ++ l.frac) * lm.pow10 l.scale

end Libm

namespace PrintNumber

/-- The natural number nearest to `m * 2^e * 10^k`, the even one of two. -/
def roundScaled (m : ℕ) (e : ℤ) (k : ℕ) : ℕ :=
  let q := m * 10 ^ k * 2 ^ e.toNat / 2 ^ (-e).toNat
  let r := m * 10 ^ k * 2 ^ e.toNat % 2 ^ (-e).toNat
  if 2 * r < 2 ^ (-e).toNat ∨ 2 * r = 2 ^ (-e).toNat ∧ q % 2 = 0 then q else q + 1

/-- `%.kf` of `m * 2^e`. -/
def fixed (k m : ℕ) (e : ℤ) : Bytes :=
  let n := roundScaled m e k
  natText (n / 10 ^ k) ++ if k = 0 then [] else 46 :: padded k (n % 10 ^ k)

/-- How many places the first digit of `m / 2^k` stands behind the point. -/
def leadingZeros (m k : ℕ) : ℕ → ℕ
  | 0 => 0
  | f+1 => if 2 ^ k ≤ m then 0 else leadingZeros (m * 10) k f + 1

/-- The digits after rounding to seven, and the decimal exponent. -/
def scientific (m : ℕ) (e : ℤ) : ℕ × ℤ :=
  let z := if m = 0 then 0 else leadingZeros (m * 2 ^ e.toNat) (-e).toNat 400
  let x : ℤ := if z = 0 then ((natText (m * 2 ^ e.toNat / 2 ^ (-e).toNat)).length : ℤ) - 1 else -z
  -- seven digits of m * 2^e / 10^x, where a denominator 10^(x-6) rounds like a power of two
  let num := m * 2 ^ e.toNat * 10 ^ (6 - x).toNat
  let den := 2 ^ (-e).toNat * 10 ^ (x - 6).toNat
  let n := if 2 * (num % den) < den ∨ 2 * (num % den) = den ∧ num / den % 2 = 0 then num / den
    else num / den + 1
  if n = 10 ^ 7 then (10 ^ 6,x + 1) else (n,x)

/-- `%e` of `m * 2^e`. -/
def exponential (m : ℕ) (e : ℤ) : Bytes :=
  let r := scientific m e
  natText (r.1 / 10 ^ 6) ++ 46 :: (padded 6 (r.1 % 10 ^ 6) ++ 101 ::
    ((if r.2 < 0 then 45 else 43) :: padded 2 r.2.natAbs))

open Float.Model.UnpackedFloat in
/-- `sprintf` of a `double` whose finite magnitudes print as given. -/
def printDouble (text : ℕ → ℤ → Bytes) (d : F64) : Bytes :=
  (if d &&& 0x8000000000000000 = 0 then [] else [45]) ++
    match unpack .binary64 d.toBitVec with
    | .notANumber => utf8 "nan"
    | .infinity _ => utf8 "inf"
    | .zero _ => text 0 0
    | .finite _ m e _ => text m e

def floor (d : Float) : Float :=
  if d.abs < ofInt (2^53) then
    if ofInt (trunc d) ≤ d then ofInt (trunc d) else ofInt (trunc d - 1)
  else d

def epsilon : Float := .ofBits 0x3CB0000000000000

def text (valueint : ℤ) (valuedouble : F64) : Bytes :=
  let d := Float.ofBits valuedouble
  if (ofInt valueint - d).abs ≤ epsilon ∧ d ≤ ofInt (2^31 - 1) ∧ ofInt (-2^31) ≤ d then
    decimal valueint
  else if (floor d - d).abs ≤ epsilon ∧ d.abs < 1.0e60 then printDouble (fixed 0) valuedouble
  else if d.abs < 1.0e-6 ∨ 1.0e9 < d.abs then printDouble exponential valuedouble
  else printDouble (fixed 6) valuedouble

end PrintNumber

namespace PrintNumber

theorem zero_notMem_fixed (k m : ℕ) (e : ℤ) : 0 ∉ fixed k m e := by
  unfold fixed
  split <;> simp [zero_notMem_natText,zero_notMem_padded]

theorem zero_notMem_exponential (m : ℕ) (e : ℤ) : 0 ∉ exponential m e := by
  unfold exponential
  dsimp only
  split <;> simp [zero_notMem_natText,zero_notMem_padded]

theorem zero_notMem_printDouble {text : ℕ → ℤ → Bytes} (h : ∀ m e, 0 ∉ text m e) (d : F64) :
    0 ∉ printDouble text d := by
  have hsign : 0 ∉ (if d &&& 0x8000000000000000 = 0 then [] else [45] : Bytes) := by split <;> decide
  unfold printDouble
  rw [List.mem_append,not_or]
  refine ⟨hsign,?_⟩
  split
  · decide
  · decide
  · exact h 0 0
  · exact h _ _

theorem zero_notMem_text (valueint : ℤ) (valuedouble : F64) : 0 ∉ text valueint valuedouble := by
  unfold text
  dsimp only
  split_ifs
  · exact zero_notMem_decimal valueint
  · exact zero_notMem_printDouble (zero_notMem_fixed 0) valuedouble
  · exact zero_notMem_printDouble zero_notMem_exponential valuedouble
  · exact zero_notMem_printDouble (zero_notMem_fixed 6) valuedouble

end PrintNumber

namespace Platform

open Float.Model.UnpackedFloat

/-- `(long long int) d`, which C leaves to the platform outside the range. -/
def longLong (p : Platform) (d : F64) : ℤ :=
  let u := unpack .binary64 d.toBitVec
  if u.isFinite ∧ -2^63 ≤ u.toInt 0 0 ∧ u.toInt 0 0 < 2^63 then u.toInt 0 0 else p.toLongLong d

/-- The platform with IEEE doubles and this C library. -/
def ieee (p : Platform) (lm : Libm) : Platform :=
  { p with
    toDouble := fun l => (lm.parseNumber l).toBits
    toLongLong := p.longLong
    numberText := fun valueint valuedouble =>
      ⟨PrintNumber.text valueint valuedouble,PrintNumber.zero_notMem_text valueint valuedouble⟩ }

end Platform

def CJson.createDouble (num : Float) : CJson := .createNumber (trunc num) num.toBits

namespace Literal

theorem le_appendDigits (n : ℕ) (ds : List ℕ) : n ≤ appendDigits n ds := by
  induction ds generalizing n with
  | nil => exact le_rfl
  | cons d ds ih => exact le_trans (by omega) (ih (n * 10 + d))

end Literal

theorem readDigits_whole (ds : List ℕ) {n : ℕ} (h : Literal.appendDigits n ds < 2^53) :
    Libm.readDigits (whole .positive n) ds = whole .positive (Literal.appendDigits n ds) := by
  induction ds generalizing n with
  | nil => rfl
  | cons d ds ih =>
    have hle : n * 10 + d ≤ Literal.appendDigits n (d :: ds) := Literal.le_appendDigits (n * 10 + d) ds
    have hstep : whole .positive n * ofInt 10 + ofInt d = whole .positive (n * 10 + d) := by
      have hten : ofInt 10 = whole .positive 10 := ofInt_natCast (n := 10) (by decide)
      rw [hten,ofInt_natCast (by omega),whole_mul _ _ (by omega) (by decide) (by omega)]
      exact whole_add (by omega)
    change Libm.readDigits (whole .positive n * ofInt 10 + ofInt d) ds = _
    rw [hstep]
    exact ih h

theorem Libm.parseNumber_whole (lm : Libm) {l : Literal} (hscale : l.scale = 0)
    (hlt : l.digits < 2^53) :
    lm.parseNumber l = whole (if l.neg then .negative else .positive) l.digits := by
  have hdigits : Libm.readDigits (ofInt 0) (l.whole ++ l.frac) = whole .positive l.digits :=
    readDigits_whole (l.whole ++ l.frac) hlt
  have hone : lm.pow10 0 = whole .positive 1 := lm.pow10_zero.trans (by decide +kernel)
  have hsign : ofInt l.sign = whole (if l.neg then .negative else .positive) 1 := by
    unfold Literal.sign
    cases l.neg
    · decide +kernel
    · decide +kernel
  rw [Libm.parseNumber,hscale,hdigits,hone,hsign,whole_mul _ _ (by decide) hlt (by omega),
    whole_mul _ _ (by omega) (by decide) (by omega),Nat.one_mul,Nat.mul_one]
  cases l.neg <;> rfl

theorem Platform.longLong_whole (p : Platform) (s : Float.Model.UnpackedFloat.Sign) {n : ℕ}
    (hn : n < 2^53) : p.longLong (whole s n).toBits = s.apply n := by
  have hu : Float.Model.UnpackedFloat.unpack .binary64 (whole s n).toBits.toBitVec = unpacked s n :=
    whole_unpack s hn
  have htrunc : (unpacked s n).toInt 0 0 = s.apply n := by
    rw [← whole_unpack s hn]
    exact trunc_whole s hn
  have hfinite : (unpacked s n).isFinite = true := by
    by_cases hn₀ : n = 0
    · rw [hn₀]
      rfl
    · rw [unpacked_pos s hn₀]
      rfl
  rw [Platform.longLong,hu,htrunc,if_pos]
  refine ⟨hfinite,?_⟩
  cases s <;> simp only [Float.Model.UnpackedFloat.Sign.apply] <;> omega

theorem valueint_whole (p : Platform) (lm : Libm) {l : Literal} (hscale : l.scale = 0)
    (hlt : l.digits < 2^53) :
    (Parse.numberItem (p.ieee lm) l).valueint = l.sign * l.digits := by
  change p.longLong (lm.parseNumber l).toBits = _
  rw [lm.parseNumber_whole hscale hlt,p.longLong_whole _ hlt,Literal.sign]
  cases l.neg <;> simp [Float.Model.UnpackedFloat.Sign.apply]

namespace Parse

theorem digits_append {ds : Bytes} (hds : ∀ b ∈ ds, isDigit b = true) {m : Bytes} (hm : NumberEnds m) :
    digits (ds ++ m) = .done (ds.map fun b => b.toNat - 48,m) := by
  induction ds with
  | nil =>
    obtain ⟨b,r,rfl,hb,-⟩ := hm
    simp [digits,hb]
  | cons b ds ih =>
    rw [List.cons_append,digits,if_pos (hds b (by simp)),ih fun c hc => hds c (by simp [hc])]
    rfl

theorem fraction_ends {m : Bytes} (hm : NumberEnds m) : fraction m = .done ([],m) := by
  obtain ⟨b,r,rfl,-,hb,-⟩ := hm
  simp [fraction,hb]

theorem exponent_ends {m : Bytes} (hm : NumberEnds m) : exponent m = .done (0,m) := by
  obtain ⟨b,r,rfl,-,-,h₁,h₂⟩ := hm
  simp [exponent,h₁,h₂]

theorem wholePart_natText (n : ℕ) {m : Bytes} (hm : NumberEnds m) :
    ∃ ds, wholePart (natText n ++ m) = .done (ds,m) ∧ Literal.appendDigits 0 ds = n := by
  by_cases hn : n = 0
  · subst hn
    refine ⟨[],?_,rfl⟩
    obtain ⟨b,r,rfl,hb,-⟩ := hm
    have hnot : ¬ (49 ≤ b ∧ b ≤ 57) := by
      rintro ⟨h₁,h₂⟩
      have h₀ : 48 ≤ b := UInt8.le_trans (by decide) h₁
      simp [isDigit,h₀,h₂] at hb
    rw [show natText 0 = [48] by decide]
    simp [wholePart,hnot]
  · have hvalue := natText_value n 0
    have hdigits := natText_isDigit n
    have hhead := natText_head hn
    cases htext : natText n with
    | nil => exact absurd htext (natText_ne_nil n)
    | cons b ds =>
      rw [htext] at hvalue hdigits hhead
      have hb := hdigits b (by simp)
      have hb₀ : b ≠ 48 := by simpa using hhead
      have hrange : 49 ≤ b ∧ b ≤ 57 := by
        simp only [isDigit,Bool.and_eq_true,decide_eq_true_eq,UInt8.le_iff_toNat_le,ne_eq,
          UInt8.ext_iff] at hb hb₀ ⊢
        simp at hb hb₀ ⊢
        omega
      refine ⟨(b :: ds).map fun b => b.toNat - 48,?_,?_⟩
      · have h := digits_append hdigits hm
        rw [List.cons_append] at h ⊢
        simp only [wholePart,if_neg hb₀,if_pos hrange,h]
      · rw [Literal.appendDigits,List.foldl_map,hvalue]
        omega

theorem literal_natText (n : ℕ) {m : Bytes} (hm : NumberEnds m) :
    ∃ l : Literal, literal (natText n ++ m) = .done (l,m) ∧ l.neg = false ∧ l.scale = 0 ∧
      l.digits = n := by
  obtain ⟨ds,hds,hvalue⟩ := wholePart_natText n hm
  refine ⟨⟨false,ds,[],0⟩,?_,rfl,rfl,?_⟩
  · cases htext : natText n with
    | nil => exact absurd htext (natText_ne_nil n)
    | cons b bs =>
      have hb : b ≠ 45 := by
        rintro rfl
        exact absurd (natText_isDigit n 45 (by simp [htext])) (by decide)
      rw [htext,List.cons_append] at hds
      rw [List.cons_append,literal,if_neg hb,hds]
      simp [fraction_ends hm,exponent_ends hm,hb]
  · rw [Literal.digits,List.append_nil]
    exact hvalue

end Parse

theorem PrintNumber.text_whole {n : ℕ} (hn : n < 2^31) :
    PrintNumber.text n (whole .positive n).toBits = natText n := by
  have hlt : n < 2^53 := by omega
  have hzero : (whole .positive 0).abs ≤ epsilon := by decide +kernel
  have hmax : ofInt (2^31 - 1) = whole .positive (2^31 - 1) := by decide +kernel
  have hmin : ofInt (-2^31) = whole .negative (2^31) := by decide +kernel
  rw [PrintNumber.text,Float.ofBits_toBits,ofInt_natCast hlt,whole_sub_self hlt,hmax,hmin,if_pos]
  · simp [decimal]
  · exact ⟨hzero,whole_le (by omega) (by decide),negative_le _ _ (by decide) hlt (by decide)⟩

theorem numberReads_whole (p : Platform) (lm : Libm) {n : ℕ} (hn : n < 2^31) :
    Parse.NumberReads (p.ieee lm) n (whole .positive n).toBits := by
  have hlt : n < 2^53 := by omega
  have htext : ((p.ieee lm).numberText n (whole .positive n).toBits).bytes = natText n :=
    PrintNumber.text_whole hn
  rw [Parse.NumberReads,htext]
  constructor
  · cases h : natText n with
    | nil => exact absurd h (natText_ne_nil n)
    | cons b r => exact ⟨b,r,rfl,Or.inr (natText_isDigit n b (by simp [h]))⟩
  · intro m hm
    obtain ⟨l,hl,hneg,hscale,hdigits⟩ := Parse.literal_natText n hm
    have hvalue := lm.parseNumber_whole hscale (hdigits ▸ hlt)
    have hint := valueint_whole p lm hscale (hdigits ▸ hlt)
    rw [hdigits,hneg] at hvalue
    rw [hdigits,Literal.sign,hneg] at hint
    have hdouble : (p.ieee lm).toDouble l = (whole .positive n).toBits := congrArg Float.toBits hvalue
    have hlong : (p.ieee lm).toLongLong ((p.ieee lm).toDouble l) = n := hint.trans (one_mul _)
    rw [Parse.parseNumber_eq,hl]
    change Outcome.done (Parse.numberItem (p.ieee lm) l,m) = _
    rw [Parse.numberItem,hlong,hdouble]

end WddProc
