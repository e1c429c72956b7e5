import WddProc.Config
import WddProc.Trace

/-!
# What a channel measures

The port of a channel is decided by the configuration document, its type by the
device kind and the document. Nothing later checks them, so both properties of a
heartbeat hold exactly for the documents that give every channel a source.
-/

namespace WddProc
namespace Measurement

open Hardware Config Trace

def isPort (next : CJson) : Bool := strcasecmp (utf8 "port") next.string
def isParams (next : CJson) : Bool := strcasecmp CONF_PARAM_FIELD next.string

def ports (element : CJson) : List ℤ := (element.child.filter isPort).map CJson.valueint

def portValues (json : CJson) (i : ℕ) : List ℤ :=
  (json.child.filter isParams).flatMap fun next => next.child[i]?.elim [] ports

/-- The last value given for the port of channel `i`. -/
def configuredPort (json : CJson) (i : ℕ) : Option ℤ := (portValues json i).getLast?

def setPorts (io : UInt16) (vs : List ℤ) : UInt16 := vs.foldl (fun _ v => toPort v) io

theorem setPorts_eq (io : UInt16) (vs : List ℤ) : setPorts io vs = vs.getLast?.elim io toPort := by
  induction vs using List.reverseRecOn with
  | nil => rfl
  | append_singleton vs v ih => simp [setPorts]

theorem parseParamField_io {pd pd' : HwCache} {next : CJson}
    (h : parseParamField pd next = some pd') :
    pd'.gpio.io = if isPort next then toPort next.valueint else pd.gpio.io := by
  unfold parseParamField at h
  by_cases hp : isPort next = true
  · have hother (l : Bytes) (hl : (utf8 "port").map tolower ≠ l.map tolower) :
        strcasecmp l next.string = false := strcasecmp_other hl hp
    rw [hother (utf8 "kks") (by decide),hother (utf8 "vtype") (by decide),
      hother (utf8 "zone") (by decide),hother (utf8 "ref") (by decide)] at h
    simp only [isPort] at hp
    simp only [Bool.false_eq_true,if_false,hp,if_true,Option.some.injEq] at h
    subst h
    simp [isPort,hp]
  · have hp' : strcasecmp (utf8 "port") next.string = false := by simpa [isPort] using hp
    rw [if_neg hp]
    simp only [hp',Bool.false_eq_true,if_false] at h
    split_ifs at h <;> simp only [Option.map_eq_some_iff,Option.some.injEq] at h
    all_goals first
      | (subst h; rfl)
      | (obtain ⟨s,-,rfl⟩ := h; rfl)

theorem foldlM_io {chain : List CJson} {pd pd' : HwCache}
    (h : chain.foldlM parseParamField pd = some pd') :
    pd'.gpio.io = setPorts pd.gpio.io ((chain.filter isPort).map CJson.valueint) := by
  induction chain generalizing pd with
  | nil =>
    cases h
    rfl
  | cons next chain ih =>
    rw [List.foldlM_cons] at h
    obtain ⟨pd₁,hpd,h⟩ := Option.bind_eq_some_iff.mp h
    rw [ih h,parseParamField_io hpd]
    by_cases hp : isPort next = true <;> simp [hp,setPorts]

theorem parseParams_io {ps ps' : List HwCache} {chain : List CJson}
    (h : parseParams ps chain = some ps') (i : ℕ) :
    ps'[i]?.map (fun pd => pd.gpio.io) =
      ps[i]?.map fun pd => setPorts pd.gpio.io (chain[i]?.elim [] ports) := by
  induction ps generalizing chain ps' i with
  | nil => cases chain <;> cases h <;> rfl
  | cons pd ps ih =>
    cases chain with
    | nil =>
      cases h
      simp [setPorts]
    | cons next chain =>
      simp only [parseParams,Option.bind_eq_bind,Option.bind_eq_some_iff] at h
      obtain ⟨pd',hpd,qs,hqs,h⟩ := h
      cases h
      cases i with
      | zero => simp [ports,foldlM_io hpd]
      | succ i => simpa using ih hqs i

theorem parseMain_io {chain : List CJson} {ps ps' : List HwCache}
    (h : chain.foldlM parseMainField ps = some ps') (i : ℕ) :
    ps'[i]?.map (fun pd => pd.gpio.io) = ps[i]?.map fun pd => setPorts pd.gpio.io
      ((chain.filter isParams).flatMap fun next => next.child[i]?.elim [] ports) := by
  induction chain generalizing ps with
  | nil =>
    cases h
    simp [setPorts]
  | cons next chain ih =>
    rw [List.foldlM_cons] at h
    obtain ⟨ps₁,hps,h⟩ := Option.bind_eq_some_iff.mp h
    rw [ih h]
    unfold parseMainField at hps
    split at hps
    · rename_i hp
      have hh := parseParams_io hps i
      cases h₁ : ps₁[i]? <;> cases h₂ : ps[i]? <;> simp_all [isParams,setPorts]
    · rename_i hp
      cases hps
      simp [isParams,hp]

/-- After loading, the port of a channel is the last one given for it, or zero. -/
theorem configured_io {info : RtuInfo} {heap : HwInfo} {json : CJson} {hw : Hardware}
    (h : cJSONParseMainInfo json (hwInfoInit info heap) = some hw) {i : ℕ} {pd : HwCache}
    (hpd : hw.pCache[i]? = some pd) : pd.gpio.io = (configuredPort json i).elim 0 toPort := by
  simp only [cJSONParseMainInfo,Option.bind_eq_bind,Option.bind_eq_some_iff] at h
  obtain ⟨hwInfo,-,ps,hps,h⟩ := h
  cases h
  have hh := parseMain_io hps i
  rw [hpd] at hh
  cases h₀ : (hwInfoInit info heap).pCache[i]? with
  | none => simp [h₀] at hh
  | some pd₀ =>
    obtain ⟨t,rfl⟩ := mem_hwInfoInit (List.mem_of_getElem? h₀)
    simp only [h₀,Option.map_some,Option.some.injEq,setPorts_eq] at hh
    exact hh

def heartbeatStep (hw : Hardware) (hb : Heartbeat) : Option Hardware := some (hwHeartbeat hb hw)

/-- What the configuration decided about a channel. -/
def wiring (hw : Hardware) : List (UInt16 × HwDevType) :=
  hw.pCache.map fun pd => (pd.gpio.io,pd.valType)

theorem hwHeartbeat_wiring (hb : Heartbeat) (hw : Hardware) :
    wiring (hwHeartbeat hb hw) = wiring hw := by
  apply List.ext_getElem?
  intro i
  simp only [wiring,hwHeartbeat,List.getElem?_map,hwParamMonitor_get?,Option.map_map]
  cases hw.pCache[i]? <;> simp

/-- No heartbeat changes the kind of the device or the wiring of a channel. -/
theorem run_wiring {hw s : Hardware} {h : History Hardware Heartbeat}
    (hr : Exec heartbeatStep hw h s) : s.hwInfo.kind = hw.hwInfo.kind ∧ wiring s = wiring hw := by
  refine Exec.invariant_all (I := fun _ s => s.hwInfo.kind = hw.hwInfo.kind ∧ wiring s = wiring hw)
    ⟨rfl,rfl⟩ ?_ hr
  rintro _ s hb t ⟨hk,hw'⟩ hs
  cases hs
  exact ⟨hk,(hwHeartbeat_wiring hb s).trans hw'⟩

theorem mem_wiring {hw s : Hardware} (h : wiring s = wiring hw) {pd : HwCache} (hpd : pd ∈ s.pCache) :
    ∃ pd₀ ∈ hw.pCache, pd₀.gpio.io = pd.gpio.io ∧ pd₀.valType = pd.valType := by
  have hmem : (pd.gpio.io,pd.valType) ∈ wiring hw := h ▸ List.mem_map.mpr ⟨pd,hpd,rfl⟩
  obtain ⟨pd₀,hpd₀,he⟩ := List.mem_map.mp hmem
  exact ⟨pd₀,hpd₀,congrArg Prod.fst he,congrArg Prod.snd he⟩

/-- The index that `get_gpio_val` uses lies inside a measurement array. -/
def IndexInRange (pd : HwCache) : Prop := 0 ≤ hwGpio pd.gpio.io ∧ hwGpio pd.gpio.io ≤ 31

theorem toPort_index (v : ℤ) :
    (0 ≤ hwGpio (toPort v) ∧ hwGpio (toPort v) ≤ 31) ↔ 1 ≤ v % 65536 ∧ v % 65536 ≤ 32 := by
  have hv : ((toPort v).toNat : ℤ) = v % 65536 := by
    simp only [toPort,UInt16.toNat_ofNat']
    omega
  simp only [hwGpio]
  omega

theorem configuredPort_index (port : Option ℤ) :
    (0 ≤ hwGpio (port.elim 0 toPort) ∧ hwGpio (port.elim 0 toPort) ≤ 31) ↔
      ∃ v, port = some v ∧ 1 ≤ v % 65536 ∧ v % 65536 ≤ 32 := by
  cases port with
  | none => simp [hwGpio]
  | some v => simpa using toPort_index v

/-- The kinds whose channels read an array at `gpio - 1`. -/
def usesArray (kind : HwDevKind) : Bool :=
  kind == .cur || kind == .vol || kind == .ase || kind == .pse

/-- Every index of every heartbeat is in range exactly when the document gives each channel a
port whose last value is 1 to 32 modulo 65536. -/
theorem gpio_index_in_range_iff {info : RtuInfo} {heap : HwInfo} {json : CJson} {hw : Hardware}
    (hload : cJSONParseMainInfo json (hwInfoInit info heap) = some hw) :
    (∀ h s, Exec heartbeatStep hw h s → ∀ pd ∈ s.pCache, IndexInRange pd) ↔
      ∀ i < hw.nChNum, ∃ v, configuredPort json i = some v ∧ 1 ≤ v % 65536 ∧ v % 65536 ≤ 32 := by
  constructor
  · intro hall i hi
    have hpd : hw.pCache[i]? = some hw.pCache[i] := List.getElem?_eq_getElem hi
    have hin := hall [] hw Exec.refl hw.pCache[i] (List.getElem_mem hi)
    rw [IndexInRange,configured_io hload hpd] at hin
    exact (configuredPort_index _).mp hin
  · intro hports h s hr pd hpd
    obtain ⟨pd₀,hpd₀,hio,-⟩ := mem_wiring (run_wiring hr).2 hpd
    obtain ⟨i,hi,rfl⟩ := List.mem_iff_getElem.mp hpd₀
    rw [IndexInRange,← hio,configured_io hload (List.getElem?_eq_getElem hi)]
    exact (configuredPort_index _).mpr (hports i hi)

def oneParam (key : String) (item : CJson) : CJson :=
  CJson.createObject.addItemToObject (CString.lit "params")
    (CJson.createArray.addItemToArray (CJson.createObject.addItemToObject (CString.lit key) item))

def curDevice : RtuInfo := RtuInfo.device (CString.lit "CUR:DA_IO_01") 1

theorem port_one_loads :
    ∃ hw, cJSONParseMainInfo (oneParam "port" (.createNumber 1 0)) (hwInfoInit curDevice .zero) = some hw ∧
      hw.nChNum = 1 ∧ hw.hwInfo.kind = .cur := by
  have hsome : (cJSONParseMainInfo (oneParam "port" (.createNumber 1 0))
      (hwInfoInit curDevice .zero)).isSome = true := by decide
  obtain ⟨hw,hw'⟩ := Option.isSome_iff_exists.mp hsome
  obtain ⟨hkind,hall⟩ := cJSONParseMainInfo_measured hw'
  have hcur : (hwInfoInit curDevice .zero).hwInfo.kind = .cur := by decide
  exact ⟨hw,hw',hall.length_eq.symm,hkind.trans hcur⟩

theorem gpio_index_in_range_port_one :
    ∃ hw, cJSONParseMainInfo (oneParam "port" (.createNumber 1 0)) (hwInfoInit curDevice .zero) = some hw ∧
      hw.nChNum = 1 ∧ ∀ h s, Exec heartbeatStep hw h s → ∀ pd ∈ s.pCache, IndexInRange pd := by
  obtain ⟨hw,hw',hn,-⟩ := port_one_loads
  refine ⟨hw,hw',hn,(gpio_index_in_range_iff hw').mpr ?_⟩
  intro i hi
  obtain rfl : i = 0 := by omega
  exact ⟨1,by decide,by decide,by decide⟩

/-- Without a document entry the port stays zero and the index is -1. -/
theorem gpio_index_without_port :
    ∃ hw, cJSONParseMainInfo .createObject (hwInfoInit curDevice .zero) = some hw ∧
      usesArray hw.hwInfo.kind = true ∧
      ¬ ∀ h s, Exec heartbeatStep hw h s → ∀ pd ∈ s.pCache, IndexInRange pd := by
  refine ⟨hwInfoInit curDevice .zero,rfl,by decide,fun hall => ?_⟩
  have hpd := hall [] _ Exec.refl _ (List.mem_of_getElem? (hwInfoInit_get? curDevice .zero 0 (by decide)))
  exact absurd hpd.1 (by decide)

/-- The shared-memory element a channel stands for, if there is one. -/
def sourceVal (real : ShmDataRo) (kind : HwDevKind) (pd : HwCache) : Option F32 :=
  let ch := hwGpio pd.gpio.io
  let elem (a : ℤ → F32) : Option F32 := if 0 ≤ ch ∧ ch < AI_NUM_MAX then some (a ch) else none
  match kind with
  | .cur => elem real.currentA
  | .vol => elem real.voltageV
  | .ase | .pse => elem real.aiValI
  | .env =>
    match pd.valType with
    | .temp => some real.envMonitor.temperature
    | .humi => some real.envMonitor.humidity
    | .niose => some real.envMonitor.noise
    | .pm2_5 => some real.envMonitor.pm2_5
    | .pm10 => some real.envMonitor.pm10
    | .o2 => some real.envMonitor.O2
    | .tvoc => some real.envMonitor.tvoc
    | _ => none
  | _ => none

/-- A port 1 to 32 on a device with arrays, or a type `TEMP` to `TVOC` on an environment device. -/
def HasSource (kind : HwDevKind) (pd : HwCache) : Prop :=
  usesArray kind = true ∧ 1 ≤ pd.gpio.io.toNat ∧ pd.gpio.io.toNat ≤ 32 ∨
  kind = .env ∧ pd.valType ∈ [HwDevType.temp,.humi,.niose,.pm2_5,.pm10,.o2,.tvoc]

/-- What a heartbeat may do to a channel: store the value of its source, or nothing. -/
def StoredFromSource (real : ShmDataRo) (kind : HwDevKind) (pd pd' : HwCache) : Prop :=
  pd' = pd ∨ sourceVal real kind pd = some pd'.val

theorem sourceVal_eq_some_of_hasSource {kind : HwDevKind} {pd : HwCache} (h : HasSource kind pd)
    (hb : Heartbeat) : sourceVal hb.real kind pd = some (reading hb kind pd) := by
  rcases h with ⟨hk,h₁,h₂⟩ | ⟨rfl,ht⟩
  · have hch : 0 ≤ hwGpio pd.gpio.io ∧ hwGpio pd.gpio.io < AI_NUM_MAX := by
      simp only [hwGpio,AI_NUM_MAX]
      omega
    cases kind <;> simp [usesArray] at hk <;> simp [sourceVal,reading,getGpioVal,hch]
  · simp only [List.mem_cons,List.not_mem_nil,or_false] at ht
    rcases ht with h | h | h | h | h | h | h <;>
      simp [sourceVal,reading,getGpioVal,getEnvValueByVtype,h]

theorem sourceVal_eq_none {kind : HwDevKind} {pd : HwCache} (h : ¬ HasSource kind pd)
    (real : ShmDataRo) : sourceVal real kind pd = none := by
  have hch (hk : usesArray kind = true) : ¬ (0 ≤ hwGpio pd.gpio.io ∧ hwGpio pd.gpio.io < AI_NUM_MAX) := by
    intro hc
    simp only [hwGpio,AI_NUM_MAX] at hc
    exact h (Or.inl ⟨hk,by omega,by omega⟩)
  cases kind with
  | cur => simp [sourceVal,hch rfl]
  | vol => simp [sourceVal,hch rfl]
  | ase => simp [sourceVal,hch rfl]
  | pse => simp [sourceVal,hch rfl]
  | env =>
    have ht : pd.valType ∉ [HwDevType.temp,.humi,.niose,.pm2_5,.pm10,.o2,.tvoc] :=
      fun ht => h (Or.inr ⟨rfl,ht⟩)
    cases hv : pd.valType <;> simp_all [sourceVal]
  | col => rfl
  | tbd => rfl

/-- A heartbeat in which everything that is no source reads as -1. -/
def badHeartbeat : Heartbeat where
  real := ⟨⟨.negOne,.negOne,.negOne,.negOne,.negOne,.negOne,.negOne⟩,fun _ => .negOne,
    fun _ => .negOne,fun _ => .negOne⟩
  now := ⟨2023,4,5,9,28,47,475,by decide,by decide,by decide,by decide,by decide,by decide,by decide⟩
  stamp := fun _ =>
    ⟨2023,4,5,9,28,47,475,by decide,by decide,by decide,by decide,by decide,by decide,by decide⟩
  rdata := .negOne

theorem reading_badHeartbeat (kind : HwDevKind) (pd : HwCache) :
    reading badHeartbeat kind pd = F32.negOne := by
  cases kind <;> simp [reading,getGpioVal,badHeartbeat]
  cases pd.valType <;> simp [getEnvValueByVtype]

/-- Heartbeats store nothing but values of existing sources exactly when the loop
starts with a source for every channel; a device of kind COL or TBD has none. -/
theorem stored_from_source_iff {hw : Hardware} (hboot : Booted hw) :
    (∀ h s, Exec heartbeatStep hw h s → ∀ (hb : Heartbeat) (i : ℕ) (pd pd' : HwCache),
      s.pCache[i]? = some pd → (hwHeartbeat hb s).pCache[i]? = some pd' →
        StoredFromSource hb.real s.hwInfo.kind pd pd') ↔
      ∀ pd ∈ hw.pCache, HasSource hw.hwInfo.kind pd := by
  constructor
  · intro hall pd hpd
    by_contra hno
    obtain ⟨i,hi,rfl⟩ := List.mem_iff_getElem.mp hpd
    have h₀ : hw.pCache[i]? = some hw.pCache[i] := List.getElem?_eq_getElem hi
    have h₁ := hwParamMonitor_get? badHeartbeat hw i
    rw [h₀,Option.map_some,reading_badHeartbeat] at h₁
    have hval : hw.pCache[i].val = F32.zero := (hboot.measured hpd).1
    have hstore := storeVal_cases badHeartbeat i hw.pCache[i] F32.negOne
    rw [hval] at hstore
    have hnew : (storeVal badHeartbeat i hw.pCache[i] F32.negOne).val = F32.negOne := by
      rcases hstore with ⟨he,-⟩ | ⟨-,hv,-⟩
      · exact absurd he (by decide)
      · exact hv
    rcases hall [] hw Exec.refl badHeartbeat i _ _ h₀ h₁ with he | hs
    · rw [he,hval] at hnew
      exact absurd hnew (by decide)
    · simp [sourceVal_eq_none hno] at hs
  · intro hsrc h s hr hb i pd pd' hpd hpd'
    obtain ⟨hk,hw'⟩ := run_wiring hr
    obtain ⟨pd₀,hpd₀,hio,ht⟩ := mem_wiring hw' (List.mem_of_getElem? hpd)
    have hs : HasSource s.hwInfo.kind pd := by
      have hh := hsrc pd₀ hpd₀
      rw [HasSource,hio,ht] at hh
      rw [hk]
      exact hh
    rw [hwHeartbeat,hwParamMonitor_get?,hpd,Option.map_some,Option.some.injEq] at hpd'
    subst hpd'
    rcases storeVal_cases hb i pd (reading hb s.hwInfo.kind pd) with ⟨-,he⟩ | ⟨-,hv,-⟩
    · exact Or.inl he
    · exact Or.inr (by rw [hv,sourceVal_eq_some_of_hasSource hs])

theorem stored_from_source_port_one :
    ∃ hw, cJSONParseMainInfo (oneParam "port" (.createNumber 1 0)) (hwInfoInit curDevice .zero) = some hw ∧
      hw.nChNum = 1 ∧ ∀ h s, Exec heartbeatStep hw h s → ∀ (hb : Heartbeat) (i : ℕ) (pd pd' : HwCache),
        s.pCache[i]? = some pd → (hwHeartbeat hb s).pCache[i]? = some pd' →
          StoredFromSource hb.real s.hwInfo.kind pd pd' := by
  obtain ⟨hw,hw',hn,hkind⟩ := port_one_loads
  refine ⟨hw,hw',hn,(stored_from_source_iff (Booted.configured hw')).mpr ?_⟩
  intro pd hpd
  obtain ⟨i,hi,rfl⟩ := List.mem_iff_getElem.mp hpd
  obtain rfl : i = 0 := by rw [← nChNum,hn] at hi; omega
  have hio := configured_io hw' (List.getElem?_eq_getElem hi)
  refine Or.inl ⟨?_,?_⟩
  · rw [hkind]
    rfl
  · rw [hio]
    decide

def envDevice : RtuInfo := RtuInfo.device (CString.lit "ENV:DA_IO_01") 1

/-- An environment channel configured as a current is stored as -1. -/
theorem minus_one_is_stored :
    ∃ hw, cJSONParseMainInfo (oneParam "vtype" (.createString (CString.lit "电流")))
        (hwInfoInit envDevice .zero) = some hw ∧
      ¬ ∀ h s, Exec heartbeatStep hw h s → ∀ (hb : Heartbeat) (i : ℕ) (pd pd' : HwCache),
        s.pCache[i]? = some pd → (hwHeartbeat hb s).pCache[i]? = some pd' →
          StoredFromSource hb.real s.hwInfo.kind pd pd' := by
  have hsome : ((cJSONParseMainInfo (oneParam "vtype" (.createString (CString.lit "电流")))
      (hwInfoInit envDevice .zero)).bind fun hw => hw.pCache[0]?.map fun pd =>
        (hw.hwInfo.kind,pd.valType,pd.val)) = some (.env,.cur,.zero) := by decide
  obtain ⟨hw,hw',h₀⟩ := Option.bind_eq_some_iff.mp hsome
  obtain ⟨pd,hpd,h₀⟩ := Option.map_eq_some_iff.mp h₀
  obtain ⟨hkind,ht,hval⟩ := by simpa using h₀
  refine ⟨hw,hw',fun hall => ?_⟩
  have h₁ := hwParamMonitor_get? badHeartbeat hw 0
  rw [hpd,Option.map_some,reading_badHeartbeat] at h₁
  rcases hall [] hw Exec.refl badHeartbeat 0 _ _ hpd h₁ with he | hs
  · have hnew := congrArg HwCache.val he
    rw [hval,storeVal,hval,if_neg (by decide)] at hnew
    exact absurd (show F32.negOne = F32.zero from hnew) (by decide)
  · simp [sourceVal,hkind,ht] at hs

end Measurement
end WddProc
