import WddProc.ConfigFields

/-!
# A document of fitting values

With strings shorter than their arrays and numbers that fit their fields, every
field reads as the last value given for it, and the order of different keys is free.
-/

namespace WddProc
namespace ConfigMapping

open Config LastWrite

def elements (json : CJson) : List CJson :=
  (json.child.find? fun next => strcasecmp CONF_PARAM_FIELD next.string).elim [] CJson.child

def lastText (key : Bytes) (ms : List CJson) : Option CString := last (given key CJson.valuestring) ms

def lastNumber (key : Bytes) (ms : List CJson) : Option ℤ :=
  last (given key fun t => some t.valueint) ms

/-- The last number given for place `j` of a list. -/
def lastBound (key : Bytes) (j : ℕ) (ms : List CJson) : Option ℤ :=
  last (given key fun t => t.child[j]?.map CJson.valueint) ms

def TextFits (key : Bytes) (n : ℕ) (t : CJson) : Prop :=
  strcasecmp key t.string = true → ∃ s, t.valuestring = some s ∧ s.length < n

/-- The first two numbers of a range are values of `int`. -/
def BoundsFit (key : Bytes) (t : CJson) : Prop :=
  strcasecmp key t.string = true → ∀ b ∈ t.child.take 2, -2^31 ≤ b.valueint ∧ b.valueint < 2^31

structure InfoFits (t : CJson) : Prop where
  id : TextFits (utf8 "id") 64 t
  name : TextFits (utf8 "name") 64 t
  time : TextFits (utf8 "time") 64 t

structure ParamFits (t : CJson) : Prop where
  kks : TextFits (utf8 "kks") 64 t
  zone : TextFits (utf8 "zone") 64 t
  ref : TextFits (utf8 "ref") 128 t
  vtype : strcasecmp (utf8 "vtype") t.string = true → t.valuestring.isSome = true
  port : strcasecmp (utf8 "port") t.string = true → 0 ≤ t.valueint ∧ t.valueint < 65536
  rangeI : BoundsFit (utf8 "rangeI") t
  rangeD : BoundsFit (utf8 "rangeD") t

/-- The array holds the string that was given, or what it held before. -/
def Reads {n : ℕ} (s : Option CString) (a a' : CharArray n) : Prop :=
  s.elim (a' = a) fun s => cstr a'.1 = s.bytes

/-- A channel before and after the members of its element. -/
structure ChannelSet (ms : List CJson) (pd pd' : HwCache) : Prop where
  kks : Reads (lastText (utf8 "kks") ms) pd.kks pd'.kks
  zone : Reads (lastText (utf8 "zone") ms) pd.zone pd'.zone
  ref : Reads (lastText (utf8 "ref") ms) pd.ref pd'.ref
  valType : (lastText (utf8 "vtype") ms).elim (pd'.valType = pd.valType) (TypeNamed · pd'.valType)
  port : (pd'.gpio.io.toNat : ℤ) = (lastNumber (utf8 "port") ms).getD pd.gpio.io.toNat
  rangeI₀ : pd'.rangeI.1 = (lastBound (utf8 "rangeI") 0 ms).getD pd.rangeI.1
  rangeI₁ : pd'.rangeI.2 = (lastBound (utf8 "rangeI") 1 ms).getD pd.rangeI.2
  rangeD₀ : pd'.rangeD.1 = (lastBound (utf8 "rangeD") 0 ms).getD pd.rangeD.1
  rangeD₁ : pd'.rangeD.2 = (lastBound (utf8 "rangeD") 1 ms).getD pd.rangeD.2
  portName : pd'.gpio.name = pd.gpio.name
  measured : Measured pd pd'

/-- The device before and after the members of the top level. -/
structure InfoSet (ms : List CJson) (info info' : HwInfo) : Prop where
  id : Reads (lastText (utf8 "id") ms) info.id info'.id
  name : Reads (lastText (utf8 "name") ms) info.name info'.name
  time : Reads (lastText (utf8 "time") ms) info.time info'.time
  disable : info'.disable =
    (last (given (utf8 "disable") fun t => some (decide (t.type = .true))) ms).getD info.disable
  kind : info'.kind = info.kind
  kindName : info'.kindName = info.kindName
  model : info'.model = info.model
  terminal : info'.terminal = info.terminal
  status : info'.status = info.status

theorem given_map {γ δ : Type} (key : Bytes) (val : CJson → Option γ) (g : γ → δ) (t : CJson) :
    given key (fun t => (val t).map g) t = (given key val t).map g := by
  unfold given
  split <;> rfl

theorem last_text (key : Bytes) (n : ℕ) (ms : List CJson) :
    last (given key (text n)) ms = (lastText key ms).map (CharArray.strncpyFrom n) := by
  rw [lastText,← last_map]
  exact last_congr fun t _ => given_map key CJson.valuestring _ t

theorem last_typeName (key : Bytes) (ms : List CJson) :
    last (given key typeName) ms = (lastText key ms).map getHwTypeByName := by
  rw [lastText,← last_map]
  exact last_congr fun t _ => given_map key CJson.valuestring _ t

theorem last_port (key : Bytes) (ms : List CJson) :
    last (given key port) ms = (lastNumber key ms).map toPort := by
  rw [lastNumber,← last_map]
  exact last_congr fun t _ => given_map key (fun t => some t.valueint) toPort t

theorem last_bound (key : Bytes) (j : ℕ) (ms : List CJson) :
    last (given key (bound j)) ms = (lastBound key j ms).map toInt32 := by
  rw [lastBound,← last_map]
  refine last_congr fun t _ => ?_
  rw [← given_map]
  simp only [given,bound,Option.map_map]
  rfl

theorem cstr_strncpy {n : ℕ} {s : CString} (h : s.length < n) : cstr (strncpy n s.bytes) = s.bytes := by
  rw [cstr_strncpy_take,CString.cstr_bytes]
  exact List.take_of_length_le h.le

theorem mem_given {γ : Type} {key : Bytes} {val : CJson → Option γ} {ms : List CJson} {c : γ}
    (h : last (given key val) ms = some c) :
    ∃ t ∈ ms, strcasecmp key t.string = true ∧ val t = some c := by
  obtain ⟨t,ht,hc⟩ := mem_of_last h
  unfold given at hc
  split at hc
  · rename_i hk
    exact ⟨t,ht,hk,hc⟩
  · cases hc

theorem reads_last {key : Bytes} {n : ℕ} {ms : List CJson} (a : CharArray n)
    (h : ∀ t ∈ ms, TextFits key n t) :
    Reads (lastText key ms) a ((last (given key (text n)) ms).getD a) := by
  rw [last_text]
  cases hl : lastText key ms with
  | none => rfl
  | some s =>
    obtain ⟨t,ht,hk,hs⟩ := mem_given hl
    obtain ⟨s',hs',hlt⟩ := h t ht hk
    obtain rfl : s' = s := Option.some.inj (hs'.symm.trans hs)
    exact cstr_strncpy hlt

theorem toPort_of_fits {v : ℤ} (h : 0 ≤ v ∧ v < 65536) : ((toPort v).toNat : ℤ) = v := by
  simp only [toPort,UInt16.toNat_ofNat']
  omega

theorem getD_bound {key : Bytes} {j : ℕ} (hj : j < 2) {ms : List CJson} (r : ℤ)
    (h : ∀ t ∈ ms, BoundsFit key t) :
    (last (given key (bound j)) ms).getD r = (lastBound key j ms).getD r := by
  rw [last_bound]
  cases hl : lastBound key j ms with
  | none => rfl
  | some v =>
    obtain ⟨t,ht,hk,hv⟩ := mem_given hl
    obtain ⟨b,hb,rfl⟩ := Option.map_eq_some_iff.mp hv
    have hmem : b ∈ t.child.take 2 := by
      rw [List.mem_iff_getElem?]
      exact ⟨j,by rw [List.getElem?_take_of_lt hj,hb]⟩
    exact toInt32_of_fits (h t ht hk b hmem)

theorem channelSet_storeParam {ms : List CJson} (pd : HwCache) (h : ∀ t ∈ ms, ParamFits t) :
    ChannelSet ms pd (storeParam ms pd) where
  kks := reads_last pd.kks fun t ht => (h t ht).kks
  zone := reads_last pd.zone fun t ht => (h t ht).zone
  ref := reads_last pd.ref fun t ht => (h t ht).ref
  valType := by
    simp only [storeParam,last_typeName]
    cases lastText (utf8 "vtype") ms with
    | none => rfl
    | some s => exact (getHwTypeByName_iff s _).mp rfl
  port := by
    simp only [storeParam,last_port]
    cases hl : lastNumber (utf8 "port") ms with
    | none => rfl
    | some v =>
      obtain ⟨t,ht,hk,hv⟩ := mem_given hl
      cases hv
      exact toPort_of_fits ((h t ht).port hk)
  rangeI₀ := getD_bound (by decide) _ fun t ht => (h t ht).rangeI
  rangeI₁ := getD_bound (by decide) _ fun t ht => (h t ht).rangeI
  rangeD₀ := getD_bound (by decide) _ fun t ht => (h t ht).rangeD
  rangeD₁ := getD_bound (by decide) _ fun t ht => (h t ht).rangeD
  portName := rfl
  measured := ⟨rfl,rfl,rfl⟩

theorem infoSet_storeInfo {ms : List CJson} (info : HwInfo) (h : ∀ t ∈ ms, InfoFits t) :
    InfoSet ms info (storeInfo ms info) where
  id := reads_last info.id fun t ht => (h t ht).id
  name := reads_last info.name fun t ht => (h t ht).name
  time := reads_last info.time fun t ht => (h t ht).time
  disable := rfl
  kind := rfl
  kindName := rfl
  model := rfl
  terminal := rfl
  status := rfl

/-- Two members with keys that differ in more than case. -/
def KeysDiffer (a b : CJson) : Prop :=
  ∀ s t, a.string = some s → b.string = some t → strcaseEq s.bytes t.bytes = false

/-- Members with different keys change places, at the top level or inside an element of a list. -/
inductive Reordered : CJson → CJson → Prop
  | top {json : CJson} {ms : List CJson} : Swaps KeysDiffer json.child ms →
      Reordered json (json.withChild ms)
  | element {json p e : CJson} {pre post epre epost ms : List CJson} :
      json.child = pre ++ p :: post → p.child = epre ++ e :: epost → Swaps KeysDiffer e.child ms →
      Reordered json
        (json.withChild (pre ++ p.withChild (epre ++ e.withChild ms :: epost) :: post))
  | trans {j₁ j₂ j₃ : CJson} : Reordered j₁ j₂ → Reordered j₂ j₃ → Reordered j₁ j₃

theorem not_both_keys {a b : CJson} (h : KeysDiffer a b) (key : Bytes) :
    strcasecmp key a.string = false ∨ strcasecmp key b.string = false := by
  by_contra hno
  obtain ⟨ha,hb⟩ : strcasecmp key a.string = true ∧ strcasecmp key b.string = true := by
    simpa using hno
  cases has : a.string with
  | none => simp [has,strcasecmp] at ha
  | some s =>
    cases hbs : b.string with
    | none => simp [hbs,strcasecmp] at hb
    | some t =>
      have hd := h s t has hbs
      simp only [has,hbs,strcasecmp,strcaseEq,beq_iff_eq,beq_eq_false_iff_ne] at ha hb hd
      exact hd (ha.symm.trans hb)

theorem given_or_none {γ : Type} (key : Bytes) (val : CJson → Option γ) (a b : CJson)
    (h : KeysDiffer a b) : given key val a = none ∨ given key val b = none := by
  rcases not_both_keys h key with h | h
  · exact Or.inl (given_of_not_key h val)
  · exact Or.inr (given_of_not_key h val)

theorem parseParamFields_swaps {ms ms' : List CJson} (h : Swaps KeysDiffer ms ms') (pd : HwCache) :
    ms.foldlM parseParamField pd = ms'.foldlM parseParamField pd := by
  have hlast {γ : Type} (key : Bytes) (val : CJson → Option γ) :
      last (given key val) ms = last (given key val) ms' := h.last (given_or_none key val)
  have hmem : ∀ t, t ∈ ms ↔ t ∈ ms' := fun t => h.perm.mem_iff
  simp only [parseParamFields_eq,hmem,storeParam,hlast]

theorem parseObjectInfo_swaps {json json' : CJson} (h : Swaps KeysDiffer json.child json'.child)
    (info : HwInfo) : cJSONParseObjectInfo json info = cJSONParseObjectInfo json' info := by
  have hlast {γ : Type} (key : Bytes) (val : CJson → Option γ) :
      last (given key val) json.child = last (given key val) json'.child :=
    h.last (given_or_none key val)
  have hmem : ∀ t, t ∈ json.child ↔ t ∈ json'.child := fun t => h.perm.mem_iff
  simp only [cJSONParseObjectInfo_eq,hmem,storeInfo,hlast]

theorem parseMainInfo_congr {json json' : CJson}
    (hinfo : ∀ info, cJSONParseObjectInfo json info = cJSONParseObjectInfo json' info)
    (hparam : ∀ i pd, (members json i).foldlM parseParamField pd =
      (members json' i).foldlM parseParamField pd) (hw : Hardware) :
    cJSONParseMainInfo json hw = cJSONParseMainInfo json' hw := by
  have hmain : json.child.foldlM parseMainField hw.pCache =
      json'.child.foldlM parseMainField hw.pCache := by
    apply Option.ext
    intro ps
    have h := hparam
    simp only [members] at h
    simp only [parseMain_iff,h]
  simp only [cJSONParseMainInfo,hinfo,hmain]

theorem parseMainInfo_top {json : CJson} {ms : List CJson} (h : Swaps KeysDiffer json.child ms)
    (hw : Hardware) : cJSONParseMainInfo json hw = cJSONParseMainInfo (json.withChild ms) hw := by
  refine parseMainInfo_congr (parseObjectInfo_swaps (by simpa using h)) ?_ hw
  intro i pd
  -- no two params lists change places
  have hfilter : json.child.filter (fun next => strcasecmp CONF_PARAM_FIELD next.string) =
      ms.filter fun next => strcasecmp CONF_PARAM_FIELD next.string := by
    have hguard : given CONF_PARAM_FIELD some =
        Option.guard fun next => strcasecmp CONF_PARAM_FIELD next.string := by
      funext next
      simp [given,Option.guard]
    have hh := h.filterMap (given_or_none CONF_PARAM_FIELD some)
    rwa [hguard,List.filterMap_eq_filter] at hh
  simp only [members,hfilter,CJson.withChild_child]

theorem elementMembers_element {e : CJson} {epre epost ms : List CJson}
    (h : Swaps KeysDiffer e.child ms) (i : ℕ) (pd : HwCache) :
    (elementMembers (epre ++ e :: epost) i).foldlM parseParamField pd =
      (elementMembers (epre ++ e.withChild ms :: epost) i).foldlM parseParamField pd := by
  rcases Nat.lt_trichotomy i epre.length with hi | rfl | hi
  · simp [elementMembers,List.getElem?_append_left hi]
  · simpa [elementMembers] using parseParamFields_swaps h pd
  · obtain ⟨k,rfl⟩ : ∃ k, i = epre.length + (k + 1) := ⟨i - epre.length - 1,by omega⟩
    simp [elementMembers,List.getElem?_append_right]

theorem parseMainInfo_element {json p e : CJson} {pre post epre epost ms : List CJson}
    (hjson : json.child = pre ++ p :: post) (hp : p.child = epre ++ e :: epost)
    (h : Swaps KeysDiffer e.child ms) (hw : Hardware) :
    cJSONParseMainInfo json hw = cJSONParseMainInfo
      (json.withChild (pre ++ p.withChild (epre ++ e.withChild ms :: epost) :: post)) hw := by
  refine parseMainInfo_congr ?_ ?_ hw
  · intro info
    have hfield (info : HwInfo) :
        parseObjectField info (p.withChild (epre ++ e.withChild ms :: epost)) =
          parseObjectField info p := by simp [parseObjectField]
    simp only [cJSONParseObjectInfo,hjson,CJson.withChild_child,List.foldlM_append,List.foldlM_cons,
      hfield]
  · intro i pd
    simp only [members,hjson,CJson.withChild_child,List.filter_append,List.filter_cons,
      CJson.withChild_string]
    split
    · simp only [List.flatMap_append,List.flatMap_cons,List.foldlM_append,CJson.withChild_child,hp,
        elementMembers_element h]
    · rfl

/-- The order of members with different keys has no influence on loading. -/
theorem parseMainInfo_reordered {json json' : CJson} (h : Reordered json json') (hw : Hardware) :
    cJSONParseMainInfo json hw = cJSONParseMainInfo json' hw := by
  induction h with
  | top h => exact parseMainInfo_top h hw
  | element hjson hp h => exact parseMainInfo_element hjson hp h hw
  | trans _ _ ih ih' => exact ih.trans ih'

theorem members_eq {json : CJson}
    (hone : (json.child.filter fun next => strcasecmp CONF_PARAM_FIELD next.string).length ≤ 1)
    (i : ℕ) : members json i = elementMembers (elements json) i := by
  unfold members elements
  rw [← List.head?_filter]
  generalize json.child.filter (fun next => strcasecmp CONF_PARAM_FIELD next.string) = ps at hone ⊢
  match ps with
  | [] => rfl
  | [p] => simp
  | _ :: _ :: _ => simp at hone

theorem TextFits.isSome {key : Bytes} {n : ℕ} {t : CJson} (h : TextFits key n t)
    (hk : strcasecmp key t.string = true) : t.valuestring.isSome = true := by
  obtain ⟨s,hs,-⟩ := h hk
  simp [hs]

theorem InfoFits.hasText {t : CJson} (h : InfoFits t) : HasText infoTextKeys t := by
  simp only [HasText,infoTextKeys,List.mem_cons,List.not_mem_nil,or_false,forall_eq_or_imp,forall_eq]
  exact ⟨h.id.isSome,h.name.isSome,h.time.isSome⟩

theorem ParamFits.hasText {t : CJson} (h : ParamFits t) : HasText paramTextKeys t := by
  simp only [HasText,paramTextKeys,List.mem_cons,List.not_mem_nil,or_false,forall_eq_or_imp,forall_eq]
  exact ⟨h.kks.isSome,h.vtype,h.zone.isSome,h.ref.isSome⟩

/-- Loading a document of fitting values: every channel with an element is set from it, every
other one stays, the device is set from the top level, and reordering different keys changes
nothing. -/
theorem config_mapping {json : CJson} {hw : Hardware}
    (hone : (json.child.filter fun next => strcasecmp CONF_PARAM_FIELD next.string).length ≤ 1)
    (hinfo : ∀ t ∈ json.child, InfoFits t)
    (hparam : ∀ e ∈ elements json, ∀ t ∈ e.child, ParamFits t) :
    ∃ hw', cJSONParseMainInfo json hw = some hw' ∧
      InfoSet json.child hw.hwInfo hw'.hwInfo ∧ hw'.nChNum = hw.nChNum ∧
      (∀ i pd pd', hw.pCache[i]? = some pd → hw'.pCache[i]? = some pd' →
        (∀ e, (elements json)[i]? = some e → ChannelSet e.child pd pd') ∧
        ((elements json).length ≤ i → pd' = pd)) ∧
      ∀ json', Reordered json json' → cJSONParseMainInfo json' hw = some hw' := by
  have hms {i : ℕ} {t : CJson} (ht : t ∈ members json i) : ParamFits t := by
    rw [members_eq hone,elementMembers] at ht
    cases he : (elements json)[i]? with
    | none => simp [he] at ht
    | some e => exact hparam e (List.mem_of_getElem? he) t (by simpa [he] using ht)
  have hsome : (cJSONParseMainInfo json hw).isSome = true :=
    cJSONParseMainInfo_isSome.mpr
      ⟨fun t ht => (hinfo t ht).hasText,fun i pd _ t ht => (hms ht).hasText⟩
  obtain ⟨hw',hload⟩ := Option.isSome_iff_exists.mp hsome
  obtain ⟨-,hinfo',hps⟩ := cJSONParseMainInfo_iff.mp hload
  refine ⟨hw',hload,?_,?_,?_,?_⟩
  · rw [hinfo']
    exact infoSet_storeInfo hw.hwInfo hinfo
  · exact (cJSONParseMainInfo_measured hload).2.length_eq.symm
  · intro i pd pd' hpd hpd'
    have hstore : pd' = storeParam (members json i) pd := by
      have hh := hps i
      rw [hpd,hpd',Option.map_some,Option.some.injEq] at hh
      exact hh
    have hmem : members json i = elementMembers (elements json) i := members_eq hone i
    constructor
    · intro e he
      have hme : members json i = e.child := by rw [hmem,elementMembers,he]; rfl
      rw [hstore,hme]
      exact channelSet_storeParam pd (hparam e (List.mem_of_getElem? he))
    · intro hi
      have hme : members json i = [] := by
        rw [hmem,elementMembers,List.getElem?_eq_none hi]
        rfl
      rw [hstore,hme,storeParam_nil]
  · intro json' hr
    rw [← parseMainInfo_reordered hr,hload]

/-- `{"id": "x", "params": [{"kks": "a", "port": 3, "KKS": "b"}]}`. -/
def sampleElement : CJson :=
  ((CJson.createObject.addStringToObject (CString.lit "kks") (CString.lit "a")).addItemToObject
    (CString.lit "port") (.createNumber 3 0)).addStringToObject (CString.lit "KKS") (CString.lit "b")

def sampleDocument : CJson :=
  (CJson.createObject.addStringToObject (CString.lit "id") (CString.lit "x")).addItemToObject
    (CString.lit "params") (CJson.createArray.addItemToArray sampleElement)

theorem config_mapping_sample :
    ∃ hw' pd', cJSONParseMainInfo sampleDocument ⟨HwInfo.zero,[HwCache.zero]⟩ = some hw' ∧
      hw'.pCache[0]? = some pd' ∧ ChannelSet sampleElement.child HwCache.zero pd' ∧
      pd'.gpio.io.toNat = 3 := by
  have hfits (t : CJson) (ht : t ∈ sampleElement.child) : ParamFits t := by
    simp only [sampleElement,CJson.addStringToObject,CJson.addItemToObject,CJson.createObject,
      CJson.addItemToArray,CJson.child,List.nil_append,List.cons_append,List.mem_cons,
      List.not_mem_nil,or_false] at ht
    rcases ht with rfl | rfl | rfl <;> constructor <;> intro hk <;>
      first
        | exact absurd hk (by decide)
        | exact ⟨_,rfl,by decide⟩
        | decide
  have hinfo (t : CJson) (ht : t ∈ sampleDocument.child) : InfoFits t := by
    simp only [sampleDocument,CJson.addStringToObject,CJson.addItemToObject,CJson.createObject,
      CJson.addItemToArray,CJson.child,List.nil_append,List.cons_append,List.mem_cons,
      List.not_mem_nil,or_false] at ht
    rcases ht with rfl | rfl <;> constructor <;> intro hk <;>
      first
        | exact absurd hk (by decide)
        | exact ⟨_,rfl,by decide⟩
  have helements : elements sampleDocument = [sampleElement] := rfl
  obtain ⟨hw',hload,-,hn,hall,-⟩ := @config_mapping sampleDocument ⟨HwInfo.zero,[HwCache.zero]⟩
    (by decide) hinfo (fun e he t ht => by
      rw [helements,List.mem_singleton] at he
      exact hfits t (he ▸ ht))
  obtain ⟨pd',hpd'⟩ : ∃ pd', hw'.pCache[0]? = some pd' :=
    ⟨_,List.getElem?_eq_getElem (by rw [← Hardware.nChNum,hn]; decide)⟩
  have hset := (hall 0 HwCache.zero pd' rfl hpd').1 sampleElement (by rw [helements]; rfl)
  refine ⟨hw',pd',hload,hpd',hset,?_⟩
  have hlast : lastNumber (utf8 "port") sampleElement.child = some 3 := by decide
  have hport : (pd'.gpio.io.toNat : ℤ) = 3 := by simpa [hlast] using hset.port
  exact_mod_cast hport

end ConfigMapping
end WddProc
