import WddProc.Hardware
import WddProc.CJson

/-!
# Loading a configuration document

`conf_main.cpp` walks over the parsed tree twice and writes the fields it knows.
`none` is the dereference of a NULL `valuestring`.
-/

namespace WddProc
namespace Config

/-- `0 == cJSON_strcasecmp(lit, s)` for a literal and a possibly NULL name. -/
def strcasecmp (lit : Bytes) : Option CString → Bool
  | none => false
  | some s => strcaseEq lit s.bytes

def CONF_PARAM_FIELD : Bytes := utf8 "params"

/-- One round of `cJSON_ParseObjectInfo`. -/
def parseObjectField (pinfo : HwInfo) (next : CJson) : Option HwInfo :=
  if strcasecmp (utf8 "id") next.string then
    next.valuestring.map fun s => { pinfo with id := CharArray.strncpyFrom 64 s }
  else if strcasecmp (utf8 "name") next.string then
    next.valuestring.map fun s => { pinfo with name := CharArray.strncpyFrom 64 s }
  else if strcasecmp (utf8 "disable") next.string then
    some { pinfo with disable := next.type = .true }
  else if strcasecmp (utf8 "time") next.string then
    next.valuestring.map fun s => { pinfo with time := CharArray.strncpyFrom 64 s }
  else some pinfo

def cJSONParseObjectInfo (json : CJson) (pinfo : HwInfo) : Option HwInfo :=
  json.child.foldlM parseObjectField pinfo

def setRange (range : ℤ × ℤ) : List CJson → ℤ × ℤ
  | [] => range
  | [a] => (toInt32 a.valueint,range.2)
  | a :: b :: _ => (toInt32 a.valueint,toInt32 b.valueint)

/-- The narrowing of `valueint` to the `uint16_t` port. -/
def toPort (v : ℤ) : UInt16 := UInt16.ofNat (v % 65536).toNat

/-- One round of `cJSON_ParseParamInfo`. -/
def parseParamField (pval : HwCache) (next : CJson) : Option HwCache :=
  if strcasecmp (utf8 "kks") next.string then
    next.valuestring.map fun s => { pval with kks := CharArray.strncpyFrom 64 s }
  else if strcasecmp (utf8 "vtype") next.string then
    next.valuestring.map fun s => { pval with valType := getHwTypeByName s }
  else if strcasecmp (utf8 "zone") next.string then
    next.valuestring.map fun s => { pval with zone := CharArray.strncpyFrom 64 s }
  else if strcasecmp (utf8 "ref") next.string then
    next.valuestring.map fun s => { pval with ref := CharArray.strncpyFrom 128 s }
  else if strcasecmp (utf8 "port") next.string then
    some { pval with gpio := { pval.gpio with io := toPort next.valueint } }
  else if strcasecmp (utf8 "rangeI") next.string then
    some { pval with rangeI := setRange pval.rangeI next.child }
  else if strcasecmp (utf8 "rangeD") next.string then
    some { pval with rangeD := setRange pval.rangeD next.child }
  else some pval

def cJSONParseParamInfo (json : CJson) (pval : HwCache) : Option HwCache :=
  json.child.foldlM parseParamField pval

/-- The loop over the elements of a `params` list, as far as there are channels. -/
def parseParams : List HwCache → List CJson → Option (List HwCache)
  | pd :: ps, next :: chain => do
    let pd ← cJSONParseParamInfo next pd
    let ps ← parseParams ps chain
    some (pd :: ps)
  | ps, _ => some ps

/-- One round of the loop of `cJSON_ParseMainInfo`. -/
def parseMainField (pCache : List HwCache) (next : CJson) : Option (List HwCache) :=
  if strcasecmp CONF_PARAM_FIELD next.string then parseParams pCache next.child else some pCache

def cJSONParseMainInfo (json : CJson) (hw : Hardware) : Option Hardware := do
  let hwInfo ← cJSONParseObjectInfo json hw.hwInfo
  let pCache ← json.child.foldlM parseMainField hw.pCache
  some ⟨hwInfo,pCache⟩

/-- The object when `loop` starts: initialised, and configured if there was a document. -/
inductive Booted : Hardware → Prop
  | init (info : RtuInfo) (heap : HwInfo) : Booted (Hardware.hwInfoInit info heap)
  | configured {info : RtuInfo} {heap : HwInfo} {json : CJson} {hw : Hardware} :
      cJSONParseMainInfo json (Hardware.hwInfoInit info heap) = some hw → Booted hw

theorem strcasecmp_other {l l' : Bytes} {s : Option CString} (hl : l.map tolower ≠ l'.map tolower)
    (h : strcasecmp l s = true) : strcasecmp l' s = false := by
  cases s with
  | none => simp [strcasecmp] at h
  | some s =>
    simp only [strcasecmp,strcaseEq,beq_iff_eq,beq_eq_false_iff_ne] at *
    exact fun h' => hl (h.trans h'.symm)

theorem foldlM_keeps {α β : Type} {f : α → β → Option α} {P : α → Prop}
    (hf : ∀ a b a', P a → f a b = some a' → P a') {bs : List β} {a a' : α} (ha : P a)
    (h : bs.foldlM f a = some a') : P a' := by
  induction bs generalizing a with
  | nil =>
    cases h
    exact ha
  | cons b bs ih =>
    rw [List.foldlM_cons] at h
    obtain ⟨c,hc,h⟩ := Option.bind_eq_some_iff.mp h
    exact ih (hf a b c ha hc) h

theorem parseObjectField_kind {a a' : HwInfo} {next : CJson} (h : parseObjectField a next = some a') :
    a'.kind = a.kind ∧ a'.kindName = a.kindName := by
  unfold parseObjectField at h
  split_ifs at h <;> simp only [Option.map_eq_some_iff,Option.some.injEq] at h
  all_goals first
    | (subst h; exact ⟨rfl,rfl⟩)
    | (obtain ⟨s,-,rfl⟩ := h; exact ⟨rfl,rfl⟩)

theorem cJSONParseMainInfo_kind {json : CJson} {hw hw' : Hardware}
    (h : cJSONParseMainInfo json hw = some hw') :
    hw'.hwInfo.kind = hw.hwInfo.kind ∧ hw'.hwInfo.kindName = hw.hwInfo.kindName := by
  simp only [cJSONParseMainInfo,Option.bind_eq_bind,Option.bind_eq_some_iff] at h
  obtain ⟨info,hinfo,ps,-,h⟩ := h
  cases h
  refine foldlM_keeps (P := fun a => a.kind = hw.hwInfo.kind ∧ a.kindName = hw.hwInfo.kindName) ?_
    ⟨rfl,rfl⟩ hinfo
  intro a b a' ha hs
  have hb := parseObjectField_kind hs
  exact ⟨hb.1.trans ha.1,hb.2.trans ha.2⟩

/-- The fields of a cache that no configuration key reaches. -/
def Measured (pd pd' : HwCache) : Prop :=
  pd'.val = pd.val ∧ pd'.paramTime = pd.paramTime ∧ pd'.status = pd.status

theorem Measured.refl (pd : HwCache) : Measured pd pd := ⟨rfl,rfl,rfl⟩

theorem Measured.trans {a b c : HwCache} (hab : Measured a b) (hbc : Measured b c) : Measured a c :=
  ⟨hbc.1.trans hab.1,hbc.2.1.trans hab.2.1,hbc.2.2.trans hab.2.2⟩

theorem Measured.trans_all {as bs cs : List HwCache} (hab : List.Forall₂ Measured as bs)
    (hbc : List.Forall₂ Measured bs cs) : List.Forall₂ Measured as cs := by
  induction hab generalizing cs with
  | nil => exact hbc
  | cons h _ ih =>
    cases hbc with
    | cons h' ht => exact List.Forall₂.cons (h.trans h') (ih ht)

theorem parseParamField_measured {a a' : HwCache} {next : CJson}
    (h : parseParamField a next = some a') : Measured a a' := by
  unfold parseParamField at h
  split_ifs at h <;> simp only [Option.map_eq_some_iff,Option.some.injEq] at h
  all_goals first
    | (subst h; exact ⟨rfl,rfl,rfl⟩)
    | (obtain ⟨s,-,rfl⟩ := h; exact ⟨rfl,rfl,rfl⟩)

theorem parseParamInfo_measured {json : CJson} {pd pd' : HwCache}
    (h : cJSONParseParamInfo json pd = some pd') : Measured pd pd' :=
  foldlM_keeps (P := Measured pd) (fun _ _ _ ha hs => ha.trans (parseParamField_measured hs))
    (Measured.refl pd) h

theorem parseParams_measured {ps ps' : List HwCache} {js : List CJson}
    (h : parseParams ps js = some ps') : List.Forall₂ Measured ps ps' := by
  induction ps generalizing js ps' with
  | nil =>
    cases js <;> cases h <;> exact List.Forall₂.nil
  | cons pd ps ih =>
    cases js with
    | nil =>
      cases h
      exact List.forall₂_same.mpr fun pd _ => Measured.refl pd
    | cons j js =>
      simp only [parseParams,Option.bind_eq_bind,Option.bind_eq_some_iff] at h
      obtain ⟨pd',hpd,qs,hqs,h⟩ := h
      cases h
      exact List.Forall₂.cons (parseParamInfo_measured hpd) (ih hqs)

theorem parseMainField_measured {ps ps' : List HwCache} {next : CJson}
    (h : parseMainField ps next = some ps') : List.Forall₂ Measured ps ps' := by
  unfold parseMainField at h
  split at h
  · exact parseParams_measured h
  · cases h
    exact List.forall₂_same.mpr fun pd _ => Measured.refl pd

/-- Loading changes neither the kind nor the number of channels nor a measured field. -/
theorem cJSONParseMainInfo_measured {json : CJson} {hw hw' : Hardware}
    (h : cJSONParseMainInfo json hw = some hw') :
    hw'.hwInfo.kind = hw.hwInfo.kind ∧ List.Forall₂ Measured hw.pCache hw'.pCache := by
  refine ⟨(cJSONParseMainInfo_kind h).1,?_⟩
  simp only [cJSONParseMainInfo,Option.bind_eq_bind,Option.bind_eq_some_iff] at h
  obtain ⟨info,-,ps,hps,h⟩ := h
  cases h
  refine foldlM_keeps (P := List.Forall₂ Measured hw.pCache) ?_
    (List.forall₂_same.mpr fun pd _ => Measured.refl pd) hps
  intro a b a' ha hs
  exact Measured.trans_all ha (parseMainField_measured hs)

theorem hwInfoInit_measured {info : RtuInfo} {heap : HwInfo} {pd : HwCache}
    (h : pd ∈ (Hardware.hwInfoInit info heap).pCache) : Measured HwCache.zero pd := by
  obtain ⟨t,rfl⟩ := Hardware.mem_hwInfoInit h
  exact ⟨rfl,rfl,rfl⟩

/-- When the loop starts no channel has been measured, and all count as updated. -/
theorem Booted.measured {hw : Hardware} (h : Booted hw) {pd : HwCache} (hpd : pd ∈ hw.pCache) :
    Measured HwCache.zero pd := by
  cases h with
  | init info heap => exact hwInfoInit_measured hpd
  | configured h =>
    have hall := (cJSONParseMainInfo_measured h).2
    obtain ⟨i,hi,rfl⟩ := List.mem_iff_getElem.mp hpd
    have hi' := hall.length_eq ▸ hi
    exact (hwInfoInit_measured (List.getElem_mem hi')).trans
      (hall.get hi' hi)

theorem Booted.status {hw : Hardware} (h : Booted hw) {pd : HwCache} (hpd : pd ∈ hw.pCache) :
    pd.status = .uptare := (h.measured hpd).2.2

end Config
end WddProc
