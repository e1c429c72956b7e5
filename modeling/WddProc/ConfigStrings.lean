import WddProc.ConfigMapping

/-!
# Strings of any length

`strncpy` with the size of the array writes no NUL after a string that fills it. Such
a field reads on into its neighbours.
-/

namespace WddProc
namespace ConfigStrings

open Config ConfigMapping LastWrite

/-- The array ends its string, which is the given one cut to fit, also when it is read by `%s`. -/
structure Kept {n : ℕ} (a : CharArray n) (read s : CString) : Prop where
  ends : 0 ∈ a.1
  text : cstr a.1 = s.bytes.take (n - 1)
  read : read.bytes = s.bytes.take (n - 1)

/-- The strings of a channel are those that were given last. -/
structure ChannelKept (ms : List CJson) (pd : HwCache) : Prop where
  kks : ∀ s, lastText (utf8 "kks") ms = some s → Kept pd.kks pd.kksStr s
  zone : ∀ s, lastText (utf8 "zone") ms = some s → Kept pd.zone pd.zoneStr s
  ref : ∀ s, lastText (utf8 "ref") ms = some s → Kept pd.ref pd.refStr s

structure InfoKept (ms : List CJson) (info : HwInfo) : Prop where
  id : ∀ s, lastText (utf8 "id") ms = some s → Kept info.id info.idStr s
  name : ∀ s, lastText (utf8 "name") ms = some s → Kept info.name info.nameStr s
  time : ∀ s, lastText (utf8 "time") ms = some s → Kept info.time info.timeStr s

def StringsKept (json : CJson) (hw : Hardware) : Prop :=
  InfoKept json.child hw.hwInfo ∧
    ∀ i pd, hw.pCache[i]? = some pd → ChannelKept (members json i) pd

/-- The string given last for a key leaves room for its NUL. -/
def Short (key : Bytes) (n : ℕ) (ms : List CJson) : Prop := ∀ s ∈ lastText key ms, s.length < n

instance (key : Bytes) (n : ℕ) (ms : List CJson) : Decidable (Short key n ms) :=
  decidable_of_iff ((lastText key ms).all fun s => decide (s.length < n)) (by
    cases h : lastText key ms <;> simp [Short,h])

/-- Every string that decides a field is shorter than its array. -/
structure StringsShort (json : CJson) (channels : ℕ) : Prop where
  id : Short (utf8 "id") 64 json.child
  name : Short (utf8 "name") 64 json.child
  time : Short (utf8 "time") 64 json.child
  kks : ∀ i < channels, Short (utf8 "kks") 64 (members json i)
  zone : ∀ i < channels, Short (utf8 "zone") 64 (members json i)
  ref : ∀ i < channels, Short (utf8 "ref") 128 (members json i)

theorem zero_mem_strncpy_iff (n : ℕ) (s : CString) : 0 ∈ strncpy n s.bytes ↔ s.length < n := by
  rw [zero_mem_strncpy,CString.cstr_bytes]
  rfl

theorem kept_strncpy_iff {n : ℕ} {s read : CString} {a : CharArray n} {tail : Bytes}
    (ha : a = CharArray.strncpyFrom n s) (hread : read.bytes = cstr (a.1 ++ tail)) :
    Kept a read s ↔ s.length < n := by
  subst ha
  constructor
  · intro h
    exact (zero_mem_strncpy_iff n s).mp h.ends
  · intro h
    have hends : 0 ∈ strncpy n s.bytes := (zero_mem_strncpy_iff n s).mpr h
    have htext : cstr (strncpy n s.bytes) = s.bytes.take (n - 1) := by
      rw [cstr_strncpy h,List.take_of_length_le]
      rw [CString.length] at h
      omega
    have hread' : read.bytes = cstr (strncpy n s.bytes) := hread.trans (cstr_append_of_mem hends tail)
    exact ⟨hends,htext,hread'.trans htext⟩

/-- The field of a key is kept exactly when the string given last for it is short. -/
theorem field_kept_iff {key : Bytes} {n : ℕ} {ms : List CJson} (a a₀ : CharArray n)
    (read : CString) {tail : Bytes} (ha : a = (last (given key (text n)) ms).getD a₀)
    (hread : read.bytes = cstr (a.1 ++ tail)) :
    (∀ s, lastText key ms = some s → Kept a read s) ↔ Short key n ms := by
  refine forall_congr' fun s => imp_congr_right fun hs => ?_
  rw [last_text,hs,Option.map_some,Option.getD_some] at ha
  exact kept_strncpy_iff ha hread

theorem channelKept_iff (ms : List CJson) (pd : HwCache) :
    ChannelKept ms (storeParam ms pd) ↔
      Short (utf8 "kks") 64 ms ∧ Short (utf8 "zone") 64 ms ∧ Short (utf8 "ref") 128 ms := by
  have hkks := field_kept_iff (storeParam ms pd).kks pd.kks (storeParam ms pd).kksStr rfl
    (by rw [HwCache.kksStr,CString.ofMem_bytes,List.append_assoc,List.append_assoc])
  have hzone := field_kept_iff (storeParam ms pd).zone pd.zone (storeParam ms pd).zoneStr rfl
    (by rw [HwCache.zoneStr,CString.ofMem_bytes,List.append_assoc])
  have href := field_kept_iff (storeParam ms pd).ref pd.ref (storeParam ms pd).refStr rfl
    (by rw [HwCache.refStr,CString.ofMem_bytes])
  rw [← hkks,← hzone,← href]
  exact ⟨fun h => ⟨h.kks,h.zone,h.ref⟩,fun h => ⟨h.1,h.2.1,h.2.2⟩⟩

theorem infoKept_iff (ms : List CJson) (info : HwInfo) :
    InfoKept ms (storeInfo ms info) ↔
      Short (utf8 "id") 64 ms ∧ Short (utf8 "name") 64 ms ∧ Short (utf8 "time") 64 ms := by
  have hid := field_kept_iff (storeInfo ms info).id info.id (storeInfo ms info).idStr rfl
    (by rw [HwInfo.idStr,CString.ofMem_bytes,List.append_assoc,List.append_assoc])
  have hname := field_kept_iff (storeInfo ms info).name info.name (storeInfo ms info).nameStr rfl
    (by rw [HwInfo.nameStr,CString.ofMem_bytes,List.append_assoc,List.append_assoc,List.append_assoc])
  have htime := field_kept_iff (storeInfo ms info).time info.time (storeInfo ms info).timeStr rfl
    (by rw [HwInfo.timeStr,CString.ofMem_bytes])
  rw [← hid,← hname,← htime]
  exact ⟨fun h => ⟨h.id,h.name,h.time⟩,fun h => ⟨h.1,h.2.1,h.2.2⟩⟩

/-- After loading, every configured string is kept exactly when each of those that decide a
field is shorter than the array it is copied to. -/
theorem strings_kept_iff {json : CJson} {hw hw' : Hardware}
    (hload : cJSONParseMainInfo json hw = some hw') :
    StringsKept json hw' ↔ StringsShort json hw.nChNum := by
  obtain ⟨-,hinfo,hps⟩ := cJSONParseMainInfo_iff.mp hload
  have hchannel (i : ℕ) : (∀ pd, hw'.pCache[i]? = some pd → ChannelKept (members json i) pd) ↔
      (i < hw.nChNum → Short (utf8 "kks") 64 (members json i) ∧
        Short (utf8 "zone") 64 (members json i) ∧ Short (utf8 "ref") 128 (members json i)) := by
    rw [hps i,Hardware.nChNum]
    by_cases hi : i < hw.pCache.length
    · simp [hi,channelKept_iff]
    · simp [hi]
  rw [StringsKept,hinfo,infoKept_iff,forall_congr' hchannel]
  constructor
  · rintro ⟨⟨hid,hname,htime⟩,hall⟩
    exact ⟨hid,hname,htime,fun i hi => (hall i hi).1,fun i hi => (hall i hi).2.1,
      fun i hi => (hall i hi).2.2⟩
  · intro h
    exact ⟨⟨h.id,h.name,h.time⟩,fun i hi => ⟨h.kks i hi,h.zone i hi,h.ref i hi⟩⟩

def letters (b : UInt8) (n : ℕ) (hb : b ≠ 0) : CString :=
  ⟨List.replicate n b,fun h => hb (List.eq_of_mem_replicate h).symm⟩

/-- `{"params": [{"kks": kks, "zone": zone}]}`. -/
def kksDocument (kks zone : CString) : CJson :=
  CJson.createObject.addItemToObject (CString.lit "params")
    (CJson.createArray.addItemToArray
      ((CJson.createObject.addStringToObject (CString.lit "kks") kks).addStringToObject
        (CString.lit "zone") zone))

def blank : Hardware := ⟨HwInfo.zero,[HwCache.zero]⟩

theorem kksDocument_loads (kks zone : CString) :
    ∃ hw, cJSONParseMainInfo (kksDocument kks zone) blank = some hw := by
  rw [← Option.isSome_iff_exists]
  rfl

theorem strings_kept_short : ∃ hw,
    cJSONParseMainInfo (kksDocument (CString.lit "10LAB") (CString.lit "A")) blank = some hw ∧
      StringsKept (kksDocument (CString.lit "10LAB") (CString.lit "A")) hw := by
  obtain ⟨hw,hload⟩ := kksDocument_loads (CString.lit "10LAB") (CString.lit "A")
  refine ⟨hw,hload,(strings_kept_iff hload).mpr ?_⟩
  constructor <;> decide

/-- A `kks` of 64 letters is reported together with the zone behind it. -/
theorem kks_runs_into_zone : ∃ hw pd,
    cJSONParseMainInfo (kksDocument (letters 65 64 (by decide)) (CString.lit "B")) blank = some hw ∧
      hw.pCache[0]? = some pd ∧ pd.kksStr.bytes = List.replicate 64 65 ++ [66] ∧
      ¬ StringsKept (kksDocument (letters 65 64 (by decide)) (CString.lit "B")) hw := by
  obtain ⟨hw,hload⟩ := kksDocument_loads (letters 65 64 (by decide)) (CString.lit "B")
  have hpd := (cJSONParseMainInfo_iff.mp hload).2.2 0
  refine ⟨hw,_,hload,hpd,by decide,fun hkept => ?_⟩
  have hends := ((hkept.2 0 _ hpd).kks (letters 65 64 (by decide)) (by decide)).ends
  exact absurd hends (by decide)

end ConfigStrings
end WddProc
