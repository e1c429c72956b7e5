import WddProc.ConfigFields
import WddProc.Measurement
import WddProc.Rescale

/-!
# Scaling of sensor values

`get_val` puts the reading of an ASE or PSE channel on the line from `rangeI` to
`rangeD`, whatever the configuration left in them.
-/

namespace WddProc
namespace Scaling

open Config LastWrite Rescale

/-- The value of an `int` as a `float`, which has 24 significant bits. -/
def toFloat (z : ℤ) : ℤ := roundInt 24 z

/-- The divisor `inMax - inMin` of `data_AD_convert` as `get_val` calls it, in `float`s. -/
def divisor (param : HwCache) : ℤ := toFloat (toFloat param.rangeI.2 - toFloat param.rangeI.1)

/-- `data_AD_convert` over exact numbers; a division by zero has no result. -/
def dataADConvert (val inMin inMax outMin outMax : ℚ) : Option ℚ :=
  if inMax - inMin = 0 then none else some (rescale val inMin inMax outMin outMax)

def getVal (kind : HwDevKind) (param : HwCache) (val : ℚ) : Option ℚ :=
  if kind = .ase ∨ kind = .pse then
    dataADConvert val param.rangeI.1 param.rangeI.2 param.rangeD.1 param.rangeD.2
  else some val

/-- The conversion in `float`s is the same expression over them. -/
theorem dataADConvert_float (p : Platform) (val inMin inMax outMin outMax : F32) :
    p.dataADConvert val inMin inMax outMin outMax =
      @rescale F32 ⟨p.fadd⟩ ⟨p.fsub⟩ ⟨p.fmul⟩ ⟨p.fdiv⟩ val inMin inMax outMin outMax := rfl

/-- The conversion of a channel never divides by zero, and is the increasing line from the one
range to the other. -/
structure Affine (kind : HwDevKind) (pd : HwCache) : Prop where
  divisor : divisor pd ≠ 0
  low : getVal kind pd pd.rangeI.1 = some (pd.rangeD.1 : ℚ)
  high : getVal kind pd pd.rangeI.2 = some (pd.rangeD.2 : ℚ)
  strictMono : pd.rangeI.1 < pd.rangeI.2 → pd.rangeD.1 < pd.rangeD.2 → ∀ x y : ℚ, x < y →
    ∃ u v, getVal kind pd x = some u ∧ getVal kind pd y = some v ∧ u < v
  inside : ∀ x ∈ Set.uIcc (pd.rangeI.1 : ℚ) pd.rangeI.2,
    ∃ v ∈ Set.uIcc (pd.rangeD.1 : ℚ) pd.rangeD.2, getVal kind pd x = some v

theorem divisor_eq_zero_iff (pd : HwCache) :
    divisor pd = 0 ↔ toFloat pd.rangeI.2 = toFloat pd.rangeI.1 := by
  rw [divisor,toFloat,roundInt_eq_zero_iff (by decide),sub_eq_zero]

theorem toFloat_of_lt {z : ℤ} (h : z.natAbs < 2^24) : toFloat z = z := roundInt_of_lt (by decide) h

theorem getVal_eq {kind : HwDevKind} (hkind : kind = .ase ∨ kind = .pse) {pd : HwCache}
    (h : pd.rangeI.1 ≠ pd.rangeI.2) (x : ℚ) : getVal kind pd x =
      some (rescale x pd.rangeI.1 pd.rangeI.2 pd.rangeD.1 pd.rangeD.2) := by
  have hne : ¬ ((pd.rangeI.2 : ℚ) - pd.rangeI.1 = 0) := by
    rw [sub_eq_zero,Int.cast_inj]
    exact h.symm
  rw [getVal,if_pos hkind,dataADConvert,if_neg hne]

/-- A conversion is sound exactly when the bounds of `rangeI` differ as `float`s. -/
theorem affine_iff {kind : HwDevKind} (hkind : kind = .ase ∨ kind = .pse) (pd : HwCache) :
    Affine kind pd ↔ toFloat pd.rangeI.1 ≠ toFloat pd.rangeI.2 := by
  constructor
  · intro h heq
    exact h.divisor ((divisor_eq_zero_iff pd).mpr heq.symm)
  · intro h
    have hne : pd.rangeI.1 ≠ pd.rangeI.2 := fun heq => h (congrArg toFloat heq)
    have hneQ : (pd.rangeI.1 : ℚ) ≠ pd.rangeI.2 := fun heq => hne (Int.cast_inj.mp heq)
    refine ⟨fun h0 => h ((divisor_eq_zero_iff pd).mp h0).symm,?_,?_,?_,?_⟩
    · rw [getVal_eq hkind hne,rescale_left]
    · rw [getVal_eq hkind hne,rescale_right hneQ]
    · intro hI hD x y hxy
      refine ⟨_,_,getVal_eq hkind hne x,getVal_eq hkind hne y,?_⟩
      exact rescale_strictMono (Int.cast_lt.mpr hI) (Int.cast_lt.mpr hD) hxy
    · intro x hx
      exact ⟨_,rescale_mem hneQ hx _ _,getVal_eq hkind hne x⟩

/-- Bound `j` of `rangeI` that a document leaves for channel `i`: the last one given, or 0. -/
def configuredBound (json : CJson) (i j : ℕ) : ℤ :=
  (last (given (utf8 "rangeI") (bound j)) (members json i)).getD 0

theorem configured_rangeI {info : RtuInfo} {heap : HwInfo} {json : CJson} {hw : Hardware}
    (hload : cJSONParseMainInfo json (Hardware.hwInfoInit info heap) = some hw) {i : ℕ} {pd : HwCache}
    (hpd : hw.pCache[i]? = some pd) :
    pd.rangeI = (configuredBound json i 0,configuredBound json i 1) := by
  have hget := (cJSONParseMainInfo_iff.mp hload).2.2 i
  rw [hpd] at hget
  obtain ⟨pd₀,hpd₀,rfl⟩ := Option.map_eq_some_iff.mp hget.symm
  obtain ⟨t,rfl⟩ := Hardware.mem_hwInfoInit (List.mem_of_getElem? hpd₀)
  rfl

/-- After loading a document on a sensor device, every conversion is sound exactly when the
document leaves every channel two bounds of `rangeI` that differ as `float`s. -/
theorem scaling_affine_iff {info : RtuInfo} {heap : HwInfo} {json : CJson} {hw : Hardware}
    (hload : cJSONParseMainInfo json (Hardware.hwInfoInit info heap) = some hw)
    (hkind : hw.hwInfo.kind = .ase ∨ hw.hwInfo.kind = .pse) :
    (∀ pd ∈ hw.pCache, Affine hw.hwInfo.kind pd) ↔
      ∀ i < hw.nChNum, toFloat (configuredBound json i 0) ≠ toFloat (configuredBound json i 1) := by
  have hiff {i : ℕ} {pd : HwCache} (hpd : hw.pCache[i]? = some pd) : Affine hw.hwInfo.kind pd ↔
      toFloat (configuredBound json i 0) ≠ toFloat (configuredBound json i 1) := by
    rw [affine_iff hkind,configured_rangeI hload hpd]
  constructor
  · intro h i hi
    exact (hiff (List.getElem?_eq_getElem hi)).mp (h _ (List.getElem_mem hi))
  · intro h pd hpd
    obtain ⟨i,hi⟩ := List.mem_iff_getElem?.mp hpd
    exact (hiff hi).mpr (h i (List.getElem?_eq_some_iff.mp hi).1)

def aseDevice : RtuInfo := RtuInfo.device (CString.lit "ASE:DA_IO_01") 1

def currentLoop : CJson := Measurement.oneParam "rangeI"
  ((CJson.createArray.addItemToArray (.createNumber 4 0)).addItemToArray (.createNumber 20 0))

theorem scaling_affine_current_loop :
    ∃ hw, cJSONParseMainInfo currentLoop (Hardware.hwInfoInit aseDevice .zero) = some hw ∧
      hw.nChNum = 1 ∧ ∀ pd ∈ hw.pCache, Affine hw.hwInfo.kind pd := by
  have hsome : (cJSONParseMainInfo currentLoop (Hardware.hwInfoInit aseDevice .zero)).isSome = true := by
    decide
  obtain ⟨hw,hload⟩ := Option.isSome_iff_exists.mp hsome
  obtain ⟨hkind,hall⟩ := cJSONParseMainInfo_measured hload
  have hase : (Hardware.hwInfoInit aseDevice .zero).hwInfo.kind = .ase := by decide
  have hn : hw.nChNum = 1 := hall.length_eq.symm
  refine ⟨hw,hload,hn,(scaling_affine_iff hload (Or.inl (hkind.trans hase))).mpr ?_⟩
  intro i hi
  obtain rfl : i = 0 := by omega
  decide

/-- Without a document entry both bounds stay 0, and the conversion divides by zero. -/
theorem range_missing :
    ∃ hw, cJSONParseMainInfo .createObject (Hardware.hwInfoInit aseDevice .zero) = some hw ∧
      hw.hwInfo.kind = .ase ∧ ∃ pd ∈ hw.pCache, divisor pd = 0 ∧ ¬ Affine hw.hwInfo.kind pd := by
  have hpd := Hardware.hwInfoInit_get? aseDevice .zero 0 (by decide)
  refine ⟨Hardware.hwInfoInit aseDevice .zero,rfl,by decide,_,List.mem_of_getElem? hpd,by decide,?_⟩
  intro h
  exact h.divisor (by decide)

end Scaling
end WddProc
