import WddProc.Hardware

/-!
# The type of the device

`_hw_kind_init` copies the kind and the model out of `ver.type` with fixed counts. The
copies see the string alone only when it ends behind the kind and inside its array.
-/

namespace WddProc
namespace DeviceKind

open Hardware

/-- The string in `ver.type`, or its 32 bytes. -/
def typeText (info : RtuInfo) : Bytes := cstr info.type.1

/-- `KKK` of a type `KKK:REST`. -/
def kindText (s : Bytes) : Bytes := s.take 3

def modelText (s : Bytes) : Bytes := s.drop 4

theorem text_colon {k rest : Bytes} (hk : k.length = 3) :
    kindText (k ++ 58 :: rest) = k ∧ modelText (k ++ 58 :: rest) = rest := by
  constructor
  · rw [kindText,List.take_append_of_le_length (by omega),List.take_of_length_le (by omega)]
  · rw [modelText,show 4 = k.length + 1 by omega,List.drop_append]
    simp

/-- Both arrays end their strings, and what they say is decided by the string `s` alone. -/
structure Parsed (s : Bytes) (h : HwInfo) : Prop where
  kindEnds : 0 ∈ h.kindName.1
  modelEnds : 0 ∈ h.model.1
  kindName : cstr h.kindName.1 = kindText s
  model : cstr h.model.1 = modelText s
  kind : h.kind = getDeviceKindByName (CString.ofMem (kindText s))

/-- The string ends behind the kind and inside its array, or a NUL stands where the model
would go on. -/
def ModelEnds (info : RtuInfo) : Prop :=
  4 ≤ (typeText info).length ∧ (typeText info).length < 32 ∨
  (typeText info).length < 4 ∧ info.type.1[4]? = some 0 ∨
  (typeText info).length = 32 ∧ info.softVersion.1[0]? = some 0

instance (info : RtuInfo) : Decidable (ModelEnds info) :=
  inferInstanceAs (Decidable (_ ∨ _ ∨ _))

def behindKind (info : RtuInfo) : Bytes := info.type.1.drop 4 ++ info.softVersion.1

theorem hwKindInit_model (info : RtuInfo) (heap : HwInfo) :
    (hwKindInit info heap).model.1 = strncpy 32 (behindKind info) := rfl

theorem hwKindInit_kindName (info : RtuInfo) (heap : HwInfo) :
    0 ∈ (hwKindInit info heap).kindName.1 ∧
      cstr (hwKindInit info heap).kindName.1 = kindText (typeText info) := by
  have hbytes : (hwKindInit info heap).kindName.1 =
      strncpy 3 info.type.1 ++ 0 :: heap.kindName.1.drop 4 := rfl
  rw [hbytes,cstr_append_nul_block,cstr_strncpy_take]
  exact ⟨by simp,rfl⟩

theorem hwKindInit_kind (info : RtuInfo) (heap : HwInfo) : (hwKindInit info heap).kind =
    getDeviceKindByName (CString.ofMem (kindText (typeText info))) := by
  have hkind : (hwKindInit info heap).kind =
      getDeviceKindByName (CString.ofMem (hwKindInit info heap).kindName.1) := rfl
  rw [hkind]
  congr 1
  ext1
  rw [CString.ofMem_bytes,CString.ofMem_bytes,(hwKindInit_kindName info heap).2,kindText,typeText,
    cstr_take]

theorem cstr_behindKind (info : RtuInfo) :
    cstr (behindKind info) =
      if (typeText info).length = 32 then info.type.1.drop 4 ++ cstr info.softVersion.1
      else if 4 ≤ (typeText info).length then modelText (typeText info)
      else cstr (behindKind info) := by
  have hlen := info.type.2
  split
  · rename_i h
    rcases cstr_split info.type.1 with hall | ⟨rest,hrest⟩
    · have hfree : 0 ∉ info.type.1.drop 4 := fun h0 =>
        zero_notMem_cstr info.type.1 (hall ▸ List.mem_of_mem_drop h0)
      rw [behindKind,cstr_append hfree]
    · have hlen' := congrArg List.length hrest
      rw [List.length_append,List.length_cons,hlen] at hlen'
      rw [typeText] at h
      omega
  · rename_i h
    split
    · rename_i h4
      rcases cstr_split info.type.1 with hall | ⟨rest,hrest⟩
      · rw [typeText,← hall] at h
        exact absurd hlen h
      · rw [typeText] at h4
        have hdrop : info.type.1.drop 4 = modelText (typeText info) ++ 0 :: rest := by
          conv_lhs => rw [hrest]
          rw [List.drop_append_of_le_length h4]
          rfl
        have hfree : 0 ∉ modelText (typeText info) := fun h0 =>
          zero_notMem_cstr info.type.1 (List.mem_of_mem_drop h0)
        rw [behindKind,hdrop,List.append_assoc,List.cons_append,cstr_append_nul hfree]
    · rfl

/-- The model array holds the rest of the string exactly when the string, or the byte that
stands for its end, stops the copy. -/
theorem model_iff (info : RtuInfo) :
    ((cstr (behindKind info)).length < 32 ∧
      (cstr (behindKind info)).take 32 = modelText (typeText info)) ↔ ModelEnds info := by
  have hlen := info.type.2
  have hcstr := cstr_behindKind info
  have hle : (typeText info).length ≤ 32 := hlen ▸ (List.takeWhile_sublist _).length_le
  have htext : (modelText (typeText info)).length = (typeText info).length - 4 := List.length_drop
  by_cases h32 : (typeText info).length = 32
  · -- an array without a NUL, so that the copy goes on into `ver.softVersion`
    have hmodel : modelText (typeText info) = info.type.1.drop 4 := by
      rcases cstr_split info.type.1 with hall | ⟨rest,hrest⟩
      · rw [modelText,typeText,← hall]
      · have hlen' := congrArg List.length hrest
        rw [List.length_append,List.length_cons,hlen] at hlen'
        rw [typeText] at h32
        omega
    have hdrop : (info.type.1.drop 4).length = 28 := by rw [List.length_drop,hlen]
    have hsoft : cstr info.softVersion.1 = [] ↔ info.softVersion.1[0]? = some 0 := by
      rw [cstr_eq_nil_iff]
      have hne : info.softVersion.1 ≠ [] := List.ne_nil_of_length_pos (by rw [info.softVersion.2]; decide)
      simp [hne]
    rw [if_pos h32] at hcstr
    rw [hcstr,hmodel,ModelEnds,← hsoft]
    constructor
    · rintro ⟨hlt,htake⟩
      refine Or.inr (Or.inr ⟨h32,?_⟩)
      rw [List.length_append] at hlt
      rw [List.take_of_length_le (by rw [List.length_append]; omega)] at htake
      simpa using htake
    · rintro (h | h | ⟨-,h⟩)
      · omega
      · omega
      · rw [h,List.append_nil]
        exact ⟨by omega,List.take_of_length_le (by omega)⟩
  rw [if_neg h32] at hcstr
  by_cases h4 : 4 ≤ (typeText info).length
  · rw [if_pos h4] at hcstr
    rw [hcstr]
    exact ⟨fun _ => Or.inl ⟨h4,by omega⟩,fun _ => ⟨by omega,List.take_of_length_le (by omega)⟩⟩
  · -- a short type, so that the copy starts behind the end of the string
    have hmodel : modelText (typeText info) = [] := List.drop_eq_nil_of_le (by omega)
    have hhead : (behindKind info)[0]? = info.type.1[4]? := by
      rw [behindKind,List.getElem?_append_left (by rw [List.length_drop,hlen]; decide),
        List.getElem?_drop]
    have hne : behindKind info ≠ [] := by
      refine List.ne_nil_of_length_pos ?_
      rw [behindKind,List.length_append,List.length_drop,hlen]
      omega
    have hnil : cstr (behindKind info) = [] ↔ info.type.1[4]? = some 0 := by
      rw [cstr_eq_nil_iff,hhead]
      simp [hne]
    rw [hmodel,ModelEnds,← hnil]
    constructor
    · rintro ⟨-,htake⟩
      exact Or.inr (Or.inl ⟨by omega,by simpa using htake⟩)
    · rintro (h | ⟨-,h⟩ | h)
      · omega
      · simp [h]
      · omega

theorem parsed_of_modelEnds {info : RtuInfo} (h : ModelEnds info) (heap : HwInfo) :
    Parsed (typeText info) (hwKindInit info heap) := by
  obtain ⟨hkindEnds,hkindName⟩ := hwKindInit_kindName info heap
  obtain ⟨hends,hmodel⟩ := (model_iff info).mpr h
  rw [← zero_mem_strncpy,← hwKindInit_model info heap] at hends
  rw [← cstr_strncpy_take,← hwKindInit_model info heap] at hmodel
  exact ⟨hkindEnds,hends,hkindName,hmodel,hwKindInit_kind info heap⟩

/-- The kind and the model are those of the string in `ver.type` exactly when the string ends
behind the kind and inside the array, or the byte that the copy of the model meets instead of
the string's own end is a NUL. -/
theorem parsed_iff (info : RtuInfo) (heap : HwInfo) :
    Parsed (typeText info) (hwKindInit info heap) ↔ ModelEnds info := by
  constructor
  · intro h
    rw [← model_iff,← zero_mem_strncpy,← cstr_strncpy_take,← hwKindInit_model info heap]
    exact ⟨h.modelEnds,h.model⟩
  · intro h
    exact parsed_of_modelEnds h heap

/-- A type of three letters with a byte of an older, longer type behind its end. -/
def staleDevice : RtuInfo :=
  { RtuInfo.device (CString.lit "") 1 with
    type := ⟨utf8 "ENV" ++ 0 :: utf8 "X" ++ List.replicate 27 0,by decide⟩ }

theorem stale_model : ¬ Parsed (typeText staleDevice) (hwKindInit staleDevice .zero) := by
  intro h
  have hmodel : cstr (hwKindInit staleDevice .zero).model.1 = utf8 "X" := by decide
  have htext : modelText (typeText staleDevice) = [] := by decide
  rw [h.model,htext] at hmodel
  cases hmodel

/-- Where the copies end with the string, the object depends on nothing else. -/
theorem parsed_noninterference {info info' : RtuInfo} (h : ModelEnds info) (h' : ModelEnds info')
    (htype : typeText info = typeText info') (heap heap' : HwInfo) :
    (hwKindInit info heap).kind = (hwKindInit info' heap').kind ∧
      cstr (hwKindInit info heap).kindName.1 = cstr (hwKindInit info' heap').kindName.1 ∧
      cstr (hwKindInit info heap).model.1 = cstr (hwKindInit info' heap').model.1 := by
  have hp := parsed_of_modelEnds h heap
  have hp' := parsed_of_modelEnds h' heap'
  rw [hp.kind,hp.kindName,hp.model,hp'.kind,hp'.kindName,hp'.model,htype]
  exact ⟨rfl,rfl,rfl⟩

end DeviceKind
end WddProc
