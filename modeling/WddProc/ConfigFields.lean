import WddProc.Config
import WddProc.LastWrite

/-!
# What a document leaves in the fields

Loading succeeds unless a key that needs a string has none. Then every field holds
the last value that a member with its key gave, and the others what they held before.
-/

namespace WddProc
namespace Config

open LastWrite

/-- The value that a member gives when it has the key. -/
def given {γ : Type} (key : Bytes) (val : CJson → Option γ) (t : CJson) : Option γ :=
  if strcasecmp key t.string then val t else none

theorem given_of_not_key {γ : Type} {key : Bytes} {t : CJson} (h : strcasecmp key t.string = false)
    (val : CJson → Option γ) : given key val t = none := by simp [given,h]

def text (n : ℕ) (t : CJson) : Option (CharArray n) := t.valuestring.map (CharArray.strncpyFrom n)

def typeName (t : CJson) : Option HwDevType := t.valuestring.map getHwTypeByName

def port (t : CJson) : Option UInt16 := some (toPort t.valueint)

def bound (j : ℕ) (t : CJson) : Option ℤ := t.child[j]?.map fun b => toInt32 b.valueint

def disabled (t : CJson) : Option Bool := some (decide (t.type = .true))

/-- The keys of a channel whose string is used without a look at the type. -/
def paramTextKeys : List Bytes := [utf8 "kks",utf8 "vtype",utf8 "zone",utf8 "ref"]

def infoTextKeys : List Bytes := [utf8 "id",utf8 "name",utf8 "time"]

/-- A member with one of the keys has a string. -/
def HasText (keys : List Bytes) (t : CJson) : Prop :=
  ∀ key ∈ keys, strcasecmp key t.string = true → t.valuestring.isSome = true

instance (keys : List Bytes) : DecidablePred (HasText keys) := fun t =>
  inferInstanceAs (Decidable (∀ key ∈ keys, strcasecmp key t.string = true → _))

theorem hasText_of_other {keys : List Bytes} {t : CJson} {s : CString} (ht : t.string = some s)
    (h : ∀ key ∈ keys, strcasecmp key (some s) = false) : HasText keys t := by
  intro key hkey hk
  rw [ht,h key hkey] at hk
  cases hk

/-- A channel after the members of an element. -/
def storeParam (ms : List CJson) (pval : HwCache) : HwCache :=
  { pval with
    gpio := { pval.gpio with io := (last (given (utf8 "port") port) ms).getD pval.gpio.io }
    kks := (last (given (utf8 "kks") (text 64)) ms).getD pval.kks
    zone := (last (given (utf8 "zone") (text 64)) ms).getD pval.zone
    ref := (last (given (utf8 "ref") (text 128)) ms).getD pval.ref
    valType := (last (given (utf8 "vtype") typeName) ms).getD pval.valType
    rangeI := ((last (given (utf8 "rangeI") (bound 0)) ms).getD pval.rangeI.1,
      (last (given (utf8 "rangeI") (bound 1)) ms).getD pval.rangeI.2)
    rangeD := ((last (given (utf8 "rangeD") (bound 0)) ms).getD pval.rangeD.1,
      (last (given (utf8 "rangeD") (bound 1)) ms).getD pval.rangeD.2) }

def storeInfo (ms : List CJson) (pinfo : HwInfo) : HwInfo :=
  { pinfo with
    id := (last (given (utf8 "id") (text 64)) ms).getD pinfo.id
    name := (last (given (utf8 "name") (text 64)) ms).getD pinfo.name
    time := (last (given (utf8 "time") (text 64)) ms).getD pinfo.time
    disable := (last (given (utf8 "disable") disabled) ms).getD pinfo.disable }

@[simp] theorem storeParam_nil (pval : HwCache) : storeParam [] pval = pval := rfl

@[simp] theorem storeInfo_nil (pinfo : HwInfo) : storeInfo [] pinfo = pinfo := rfl

theorem storeParam_cons (pval : HwCache) (t : CJson) (ms : List CJson) :
    storeParam (t :: ms) pval = storeParam ms (storeParam [t] pval) := by
  simp only [storeParam,last_cons_getD,last_singleton]

theorem storeInfo_cons (pinfo : HwInfo) (t : CJson) (ms : List CJson) :
    storeInfo (t :: ms) pinfo = storeInfo ms (storeInfo [t] pinfo) := by
  simp only [storeInfo,last_cons_getD,last_singleton]

theorem setRange_eq (range : ℤ × ℤ) (t : CJson) :
    setRange range t.child = ((bound 0 t).getD range.1,(bound 1 t).getD range.2) := by
  unfold bound
  match t.child with
  | [] => rfl
  | [a] => rfl
  | a :: b :: cs => rfl

def paramKeys : List Bytes :=
  [utf8 "kks",utf8 "vtype",utf8 "zone",utf8 "ref",utf8 "port",utf8 "rangeI",utf8 "rangeD"]

def infoKeys : List Bytes := [utf8 "id",utf8 "name",utf8 "disable",utf8 "time"]

theorem paramKeys_nodup : (paramKeys.map (List.map tolower)).Nodup := by decide

theorem infoKeys_nodup : (infoKeys.map (List.map tolower)).Nodup := by decide

theorem key_eq {keys : List Bytes} (hkeys : (keys.map (List.map tolower)).Nodup) {key : Bytes}
    (hkey : key ∈ keys) {s : Option CString} (h : strcasecmp key s = true) :
    ∀ key' ∈ keys, strcasecmp key' s = decide (key' = key) := by
  intro key' hkey'
  by_cases hk : key' = key
  · simp [hk,h]
  · simp only [hk,decide_false]
    refine strcasecmp_other (fun hl => hk ?_) h
    exact List.inj_on_of_nodup_map hkeys hkey' hkey hl.symm

/-- One round of `cJSON_ParseParamInfo` writes the one field of its key. -/
theorem parseParamField_eq (pval : HwCache) (t : CJson) :
    parseParamField pval t = if HasText paramTextKeys t then some (storeParam [t] pval) else none := by
  by_cases hkeyed : ∃ key ∈ paramKeys, strcasecmp key t.string = true
  · obtain ⟨key,hkey,hk⟩ := hkeyed
    have hall := key_eq paramKeys_nodup hkey hk
    simp only [paramKeys,List.mem_cons,List.not_mem_nil,or_false,forall_eq_or_imp,forall_eq] at hkey hall
    obtain ⟨h₁,h₂,h₃,h₄,h₅,h₆,h₇⟩ := hall
    simp only [parseParamField,storeParam,last_singleton,given,HasText,paramTextKeys,List.mem_cons,
      List.not_mem_nil,or_false,forall_eq_or_imp,forall_eq,h₁,h₂,h₃,h₄,h₅,h₆,h₇,setRange_eq]
    rcases hkey with rfl | rfl | rfl | rfl | rfl | rfl | rfl
    · cases h : t.valuestring <;> simp +decide [text,h]
    · cases h : t.valuestring <;> simp +decide [typeName,h]
    · cases h : t.valuestring <;> simp +decide [text,h]
    · cases h : t.valuestring <;> simp +decide [text,h]
    · simp +decide [port]
    · simp +decide
    · simp +decide
  · push Not at hkeyed
    have hall : ∀ key ∈ paramKeys, strcasecmp key t.string = false := by simpa using hkeyed
    simp only [paramKeys,List.mem_cons,List.not_mem_nil,or_false,forall_eq_or_imp,forall_eq] at hall
    obtain ⟨h₁,h₂,h₃,h₄,h₅,h₆,h₇⟩ := hall
    simp [parseParamField,storeParam,last_singleton,given,HasText,paramTextKeys,h₁,h₂,h₃,h₄,h₅,h₆,h₇]

theorem parseObjectField_eq (pinfo : HwInfo) (t : CJson) :
    parseObjectField pinfo t = if HasText infoTextKeys t then some (storeInfo [t] pinfo) else none := by
  by_cases hkeyed : ∃ key ∈ infoKeys, strcasecmp key t.string = true
  · obtain ⟨key,hkey,hk⟩ := hkeyed
    have hall := key_eq infoKeys_nodup hkey hk
    simp only [infoKeys,List.mem_cons,List.not_mem_nil,or_false,forall_eq_or_imp,forall_eq] at hkey hall
    obtain ⟨h₁,h₂,h₃,h₄⟩ := hall
    simp only [parseObjectField,storeInfo,last_singleton,given,HasText,infoTextKeys,List.mem_cons,
      List.not_mem_nil,or_false,forall_eq_or_imp,forall_eq,h₁,h₂,h₃,h₄]
    rcases hkey with rfl | rfl | rfl | rfl
    · cases h : t.valuestring <;> simp +decide [text,h]
    · cases h : t.valuestring <;> simp +decide [text,h]
    · simp +decide [disabled]
    · cases h : t.valuestring <;> simp +decide [text,h]
  · push Not at hkeyed
    have hall : ∀ key ∈ infoKeys, strcasecmp key t.string = false := by simpa using hkeyed
    simp only [infoKeys,List.mem_cons,List.not_mem_nil,or_false,forall_eq_or_imp,forall_eq] at hall
    obtain ⟨h₁,h₂,h₃,h₄⟩ := hall
    simp [parseObjectField,storeInfo,last_singleton,given,HasText,infoTextKeys,h₁,h₂,h₃,h₄]

theorem parseParamFields_eq (ms : List CJson) (pval : HwCache) :
    ms.foldlM parseParamField pval =
      if ∀ t ∈ ms, HasText paramTextKeys t then some (storeParam ms pval) else none :=
  foldlM_eq storeParam parseParamField_eq storeParam_nil storeParam_cons ms pval

theorem cJSONParseObjectInfo_eq (json : CJson) (pinfo : HwInfo) :
    cJSONParseObjectInfo json pinfo =
      if ∀ t ∈ json.child, HasText infoTextKeys t then some (storeInfo json.child pinfo) else none :=
  foldlM_eq storeInfo parseObjectField_eq storeInfo_nil
    (fun a b bs => storeInfo_cons a b bs) json.child pinfo

/-- The members of element `i` of a list. -/
def elementMembers (chain : List CJson) (i : ℕ) : List CJson := chain[i]?.elim [] CJson.child

/-- All that a document says about channel `i`, in the order in which it is visited. -/
def members (json : CJson) (i : ℕ) : List CJson :=
  (json.child.filter fun next => strcasecmp CONF_PARAM_FIELD next.string).flatMap fun next =>
    elementMembers next.child i

theorem elementMembers_cons_succ (next : CJson) (chain : List CJson) (i : ℕ) :
    elementMembers (next :: chain) (i + 1) = elementMembers chain i := by simp [elementMembers]

theorem parseParams_iff {ps ps' : List HwCache} {chain : List CJson} :
    parseParams ps chain = some ps' ↔
      ∀ i, ps[i]?.map (fun pd => (elementMembers chain i).foldlM parseParamField pd) =
        ps'[i]?.map some := by
  constructor
  · intro h
    induction ps generalizing chain ps' with
    | nil => cases chain <;> cases h <;> simp
    | cons pd ps ih =>
      cases chain with
      | nil =>
        cases h
        simp [elementMembers]
      | cons next chain =>
        simp only [parseParams,Option.bind_eq_bind,Option.bind_eq_some_iff] at h
        obtain ⟨pd',hpd,qs,hqs,h⟩ := h
        cases h
        intro i
        cases i with
        | zero => simpa [elementMembers,cJSONParseParamInfo] using hpd
        | succ i => simpa [elementMembers_cons_succ] using ih hqs i
  · intro h
    induction ps generalizing chain ps' with
    | nil =>
      obtain rfl : ps' = [] := by simpa using h 0
      cases chain <;> rfl
    | cons pd ps ih =>
      cases ps' with
      | nil => simpa using h 0
      | cons pd' ps' =>
        cases chain with
        | nil =>
          have he : pd :: ps = pd' :: ps' :=
            pointwise_ext (fun _ pd => some pd) (pd :: ps) (fun _ => rfl)
              (by simpa [elementMembers] using h)
          rw [← he]
          rfl
        | cons next chain =>
          have hpd : cJSONParseParamInfo next pd = some pd' := by
            simpa [elementMembers,cJSONParseParamInfo] using h 0
          have hps : parseParams ps chain = some ps' :=
            ih fun i => by simpa [elementMembers_cons_succ] using h (i + 1)
          simp [parseParams,hpd,hps]

theorem parseMain_iff {chain : List CJson} {ps ps' : List HwCache} :
    chain.foldlM parseMainField ps = some ps' ↔
      ∀ i, ps[i]?.map (fun pd => ((chain.filter fun next =>
        strcasecmp CONF_PARAM_FIELD next.string).flatMap fun next =>
          elementMembers next.child i).foldlM parseParamField pd) = ps'[i]?.map some := by
  induction chain generalizing ps with
  | nil =>
    constructor
    · rintro h i
      cases h
      simp
    · intro h
      rw [pointwise_ext (fun _ pd => some pd) ps (fun _ => rfl) (by simpa using h)]
      rfl
  | cons next chain ih =>
    rw [List.foldlM_cons]
    by_cases hp : strcasecmp CONF_PARAM_FIELD next.string = true
    · simp only [parseMainField,hp,if_true,Option.bind_eq_bind,Option.bind_eq_some_iff,parseParams_iff,
        ih,List.filter_cons_of_pos,List.flatMap_cons,List.foldlM_append]
      constructor
      · rintro ⟨qs,hqs,h⟩ i
        have h₁ := hqs i
        have h₂ := h i
        cases hps : ps[i]? <;> cases hq : qs[i]? <;> simp_all
      · intro h
        obtain ⟨qs,hqs⟩ := exists_pointwise (fun i pd =>
            (elementMembers next.child i).foldlM parseParamField pd) ps (fun i pd hpd => by
          have hh := h i
          cases hm : (elementMembers next.child i).foldlM parseParamField pd with
          | none => cases h' : ps'[i]? <;> simp [hpd,hm,h'] at hh
          | some _ => rfl)
        refine ⟨qs,hqs,fun i => ?_⟩
        have h₁ := hqs i
        have h₂ := h i
        cases hps : ps[i]? <;> cases hq : qs[i]? <;> simp_all
    · simp only [parseMainField,hp,if_false,Option.bind_eq_bind,Option.bind_some,ih,
        List.filter_cons_of_neg,not_false_eq_true,Bool.false_eq_true]

theorem parseMain_eq {chain : List CJson} {ps ps' : List HwCache} {ms : ℕ → List CJson}
    (hms : ∀ i, ms i = (chain.filter fun next => strcasecmp CONF_PARAM_FIELD next.string).flatMap
      fun next => elementMembers next.child i) :
    chain.foldlM parseMainField ps = some ps' ↔
      (∀ i pd, ps[i]? = some pd → ∀ t ∈ ms i, HasText paramTextKeys t) ∧
        ∀ i, ps'[i]? = ps[i]?.map (storeParam (ms i)) := by
  simp only [parseMain_iff,← hms,parseParamFields_eq]
  constructor
  · intro h
    constructor
    · intro i pd hpd
      by_contra hno
      have hh := h i
      rw [hpd,Option.map_some,if_neg hno] at hh
      cases h' : ps'[i]? <;> simp [h'] at hh
    · intro i
      have hh := h i
      cases hpd : ps[i]? with
      | none => simpa [hpd] using hh
      | some pd =>
        rw [hpd,Option.map_some] at hh
        split at hh <;> cases h' : ps'[i]? <;> simp_all
  · rintro ⟨hok,hall⟩ i
    rw [hall i]
    cases hpd : ps[i]? with
    | none => rfl
    | some pd => simpa using hok i pd hpd

/-- Loading as a whole: the device gets the top level, and every channel what is said about it. -/
theorem cJSONParseMainInfo_iff {json : CJson} {hw hw' : Hardware} :
    cJSONParseMainInfo json hw = some hw' ↔
      ((∀ t ∈ json.child, HasText infoTextKeys t) ∧
        ∀ i pd, hw.pCache[i]? = some pd → ∀ t ∈ members json i, HasText paramTextKeys t) ∧
      hw'.hwInfo = storeInfo json.child hw.hwInfo ∧
      ∀ i, hw'.pCache[i]? = hw.pCache[i]?.map (storeParam (members json i)) := by
  have hmain {ps : List HwCache} : json.child.foldlM parseMainField hw.pCache = some ps ↔
      (∀ i pd, hw.pCache[i]? = some pd → ∀ t ∈ members json i, HasText paramTextKeys t) ∧
        ∀ i, ps[i]? = hw.pCache[i]?.map (storeParam (members json i)) :=
    parseMain_eq fun i => rfl
  simp only [cJSONParseMainInfo,Option.bind_eq_bind,Option.bind_eq_some_iff,cJSONParseObjectInfo_eq,
    Option.ite_none_right_eq_some,Option.some.injEq,hmain]
  constructor
  · rintro ⟨info,⟨hok,rfl⟩,ps,⟨hoks,hps⟩,rfl⟩
    exact ⟨⟨hok,hoks⟩,rfl,hps⟩
  · rintro ⟨⟨hok,hoks⟩,hinfo,hps⟩
    exact ⟨_,⟨hok,rfl⟩,hw'.pCache,⟨hoks,hps⟩,by rw [← hinfo]⟩

theorem cJSONParseMainInfo_isSome {json : CJson} {hw : Hardware} :
    (cJSONParseMainInfo json hw).isSome = true ↔
      (∀ t ∈ json.child, HasText infoTextKeys t) ∧
        ∀ i pd, hw.pCache[i]? = some pd → ∀ t ∈ members json i, HasText paramTextKeys t := by
  constructor
  · intro h
    obtain ⟨hw',hw''⟩ := Option.isSome_iff_exists.mp h
    exact (cJSONParseMainInfo_iff.mp hw'').1
  · intro hok
    let hw' : Hardware :=
      ⟨storeInfo json.child hw.hwInfo,hw.pCache.mapIdx fun i pd => storeParam (members json i) pd⟩
    exact Option.isSome_iff_exists.mpr
      ⟨hw',cJSONParseMainInfo_iff.mpr ⟨hok,rfl,fun i => by simp [hw']⟩⟩

end Config
end WddProc
