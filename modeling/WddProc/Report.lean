import WddProc.Hardware
import WddProc.CJsonRoundTrip

/-!
# The report document

`ws_dataflow.cpp` collects the updated channels into a JSON document and marks
them as used. `Report` is what such a document says, and what a reader of its
text gets back.
-/

namespace WddProc
namespace Report

open Hardware

variable (p : Platform)

/-- `_ws_format_hardware_param`; `kind` is the kind of the global object. -/
def wsFormatHardwareParam (kind : HwDevKind) (jp : CJson) (param : HwCache) : CJson :=
  let jp := jp.addStringToObject (CString.lit "kks") param.kksStr
  let jp := jp.addStringToObject (CString.lit "ref") (getParamRef param)
  let jp := jp.addStringToObject (CString.lit "vtype") (getHwNameByType param.valType)
  let jp := jp.addStringToObject (CString.lit "val") (p.getValStrUnit param (p.getVal kind param))
  jp.addStringToObject (CString.lit "t") param.paramTimeStr

/-- The loop of `ws_format_hardware_data` from channel `i` on: the caches it leaves, and
the array unless it returns early. `alloc i` says whether the object for channel `i` is created. -/
def formatFrom (kind : HwDevKind) (alloc : ℕ → Bool) :
    ℕ → CJson → List (Option HwCache) → List (Option HwCache) × Option CJson
  | _, array, [] => ([],some array)
  | _, _, none :: ps => (none :: ps,none)
  | i, array, some pd :: ps =>
    if pd.status ≠ .uptare then
      let r := formatFrom kind alloc (i + 1) array ps
      (some pd :: r.1,r.2)
    else if alloc i then
      let pd := hwUsedCache pd
      let jparam := wsFormatHardwareParam p kind .createObject pd
      let r := formatFrom kind alloc (i + 1) (array.addItemToArray jparam) ps
      (some pd :: r.1,r.2)
    else (some pd :: ps,none)

def wrap (hwd : HwInfo) (array : CJson) : CJson :=
  let root := CJson.createObject.addStringToObject (CString.lit "name") hwd.nameStr
  let root := root.addStringToObject (CString.lit "id") hwd.idStr
  let root := root.addStringToObject (CString.lit "terminal") hwd.kindStr
  let root := root.addStringToObject (CString.lit "mtype") (CString.lit "MSGE")
  let root := root.addStringToObject (CString.lit "t") hwd.timeStr
  let root := root.addItemToObject (CString.lit "params") array
  CJson.createObject.addItemToObject (CString.lit "json") root

/-- What a call of `ws_format_hardware_data` leaves: the returned `_Bool`, the text
stored in `*out` if there is one, and the caches. -/
structure Formatted where
  rtn : Bool
  out : Option Bytes
  pData : Option (List (Option HwCache))

/-- `ws_format_hardware_data` on `number` slots; every `return -1` converts to `true`. -/
def wsFormatHardwareData (kind : HwDevKind) (alloc : ℕ → Bool) (hwd : HwInfo)
    (pData : Option (List (Option HwCache))) : Formatted :=
  match pData with
  | none => ⟨true,none,none⟩
  | some ps =>
    let r := formatFrom p kind alloc 0 .createArray ps
    ⟨true,r.2.map fun array => (wrap hwd array).print p,some r.1⟩

/-- The report on one channel. -/
structure Entry where
  kks : CString
  ref : CString
  vtype : CString
  val : CString
  t : CString
  deriving DecidableEq

/-- The report on the device and its updated channels. -/
structure Doc where
  name : CString
  id : CString
  terminal : CString
  mtype : CString
  t : CString
  params : List Entry
  deriving DecidableEq

def member (name : String) (s : CString) : CJson := (CJson.createString s).named (CString.lit name)

def object (name : Option CString) (members : List CJson) : CJson := .mk .object none 0 0 name members

def Entry.toJson (e : Entry) : CJson :=
  object none [member "kks" e.kks,member "ref" e.ref,member "vtype" e.vtype,member "val" e.val,
    member "t" e.t]

def Doc.toJson (d : Doc) : CJson :=
  object none [object (some (CString.lit "json")) [member "name" d.name,member "id" d.id,
    member "terminal" d.terminal,member "mtype" d.mtype,member "t" d.t,
    .mk .array none 0 0 (some (CString.lit "params")) (d.params.map Entry.toJson)]]

def find (t : CJson) (name : String) : Option CJson :=
  t.child.find? fun item => decide (item.string = some (CString.lit name))

def text (t : CJson) (name : String) : Option CString := (find t name).bind CJson.valuestring

def Entry.ofJson (t : CJson) : Option Entry := do
  some ⟨← text t "kks",← text t "ref",← text t "vtype",← text t "val",← text t "t"⟩

def Doc.ofJson (t : CJson) : Option Doc := do
  let root ← find t "json"
  let params ← (← find root "params").child.mapM Entry.ofJson
  some ⟨← text root "name",← text root "id",← text root "terminal",← text root "mtype",
    ← text root "t",params⟩

/-- Read the text of a document. -/
def Doc.read (m : Bytes) : Option Doc :=
  match Parse.cJSONParse p (m ++ [0]) with
  | .done t => Doc.ofJson t
  | _ => none

theorem Entry.ofJson_toJson (e : Entry) : Entry.ofJson e.toJson = some e := rfl

theorem Doc.ofJson_toJson (d : Doc) : Doc.ofJson d.toJson = some d := by
  have hparams : (d.params.map Entry.toJson).mapM Entry.ofJson = some d.params := by
    induction d.params with
    | nil => rfl
    | cons e es ih => simp [Entry.ofJson_toJson,ih]
  change ((d.params.map Entry.toJson).mapM Entry.ofJson).bind
    (fun params => some ⟨d.name,d.id,d.terminal,d.mtype,d.t,params⟩) = some d
  rw [hparams]
  rfl

theorem itemsPrintable_entries (es : List Entry) : Parse.ItemsPrintable p (es.map Entry.toJson) := by
  induction es with
  | nil => exact trivial
  | cons e es ih =>
    exact ⟨rfl,by simp [Entry.toJson,object,member,CJson.createString,CJson.named,CJson.string,
      Parse.Printable,Parse.MembersPrintable],ih⟩

theorem Doc.printable (d : Doc) : Parse.Printable p d.toJson := by
  simp [Doc.toJson,object,member,CJson.createString,CJson.named,CJson.string,Parse.Printable,
    Parse.MembersPrintable,itemsPrintable_entries]

theorem Doc.parse_print (d : Doc) :
    Parse.cJSONParse p (d.toJson.print p ++ [0]) = .done d.toJson :=
  Parse.cJSONParse_print p (d.printable p) rfl

/-- A reader of the printed text gets the document back. -/
theorem Doc.read_print (d : Doc) : Doc.read p (d.toJson.print p) = some d := by
  rw [Doc.read,d.parse_print]
  exact d.ofJson_toJson

def pending (pd : HwCache) : Bool := pd.status = .uptare

/-- A cache after a report that looked at it. -/
def sent (pd : HwCache) : HwCache := if pd.status = .uptare then { pd with status := .used } else pd

/-- What a report calls a type, and its unit. -/
def words : HwDevType → CString × CString
  | .cur => (CString.lit "电流",CString.lit "A")
  | .vol => (CString.lit "电压",CString.lit "V")
  | .temp => (CString.lit "温度",CString.lit "℃")
  | .humi => (CString.lit "湿度",CString.lit "%%RH")
  | .niose => (CString.lit "噪声",CString.lit "MPa")
  | .pm2_5 => (CString.lit "PM2.5",CString.lit "μg/m³")
  | .pm10 => (CString.lit "PM10",CString.lit "μg/m³")
  | .o2 => (CString.lit "氧气",CString.lit "%%")
  | .tvoc => (CString.lit "TVOC",CString.lit "mg/m³")
  | .flow => (CString.lit "流量",CString.lit "m³/m")
  | .sflow => (CString.lit "累积流量",CString.lit "m³")
  | .rspd => (CString.lit "转速",CString.lit "r/min")
  | .freq => (CString.lit "频率",CString.lit "Hz")
  | .power => (CString.lit "功率",CString.lit "W")
  | .elec => (CString.lit "电能",CString.lit "KW.h")
  | .resv | .type1 | .type2 | .tbd | .end_ => (CString.lit "",CString.lit "")

/-- The value that a report shows. A sensor's reading is put on the line through `rangeI` and
`rangeD`, `(val - I₀) * (D₁ - D₀) / (I₁ - I₀) + D₀` in `float`s; any other reading is shown as it is. -/
def shown (kind : HwDevKind) (pd : HwCache) : F32 :=
  match kind with
  | .ase | .pse =>
    p.fadd (p.fdiv (p.fmul (p.fsub pd.val (p.ofInt pd.rangeI.1))
      (p.fsub (p.ofInt pd.rangeD.2) (p.ofInt pd.rangeD.1)))
        (p.fsub (p.ofInt pd.rangeI.2) (p.ofInt pd.rangeI.1))) (p.ofInt pd.rangeD.1)
  | _ => pd.val

def entryOf (kind : HwDevKind) (pd : HwCache) : Entry where
  kks := pd.kksStr
  ref := pd.refStr
  vtype := (words pd.valType).1
  val := p.printf1f (shown p kind pd) ++ CString.lit "-" ++ (words pd.valType).2
  t := pd.paramTimeStr

theorem getHwNameByType_eq (t : HwDevType) : getHwNameByType t = (words t).1 := by
  cases t <;> rfl

theorem getHwUnitByType_eq (t : HwDevType) : getHwUnitByType t = (words t).2 := by
  cases t <;> rfl

theorem getVal_eq_shown (kind : HwDevKind) (pd : HwCache) : p.getVal kind pd = shown p kind pd := by
  cases kind <;> rfl

theorem getValStrUnit_eq (kind : HwDevKind) (pd : HwCache) : p.getValStrUnit pd (p.getVal kind pd) =
    p.printf1f (shown p kind pd) ++ CString.lit "-" ++ (words pd.valType).2 := by
  rw [Platform.getValStrUnit,getVal_eq_shown,getHwUnitByType_eq]
  rfl

def docOf (kind : HwDevKind) (hwd : HwInfo) (ps : List HwCache) : Doc where
  name := hwd.nameStr
  id := hwd.idStr
  terminal := hwd.kindStr
  mtype := CString.lit "MSGE"
  t := hwd.timeStr
  params := (ps.filter pending).map (entryOf p kind)

def arrayOf (es : List Entry) : CJson := .mk .array none 0 0 none (es.map Entry.toJson)

theorem addItemToArray_arrayOf (es : List Entry) (e : Entry) :
    (arrayOf es).addItemToArray e.toJson = arrayOf (es ++ [e]) := by
  simp [arrayOf,CJson.addItemToArray]

theorem wsFormatHardwareParam_eq (kind : HwDevKind) (pd : HwCache) :
    wsFormatHardwareParam p kind .createObject (hwUsedCache pd) = (entryOf p kind pd).toJson := by
  have hval := getValStrUnit_eq p kind pd
  change p.getValStrUnit (hwUsedCache pd) (p.getVal kind (hwUsedCache pd)) = _ at hval
  rw [wsFormatHardwareParam,hval,hwUsedCache,getHwNameByType_eq]
  rfl

theorem wrap_eq (kind : HwDevKind) (hwd : HwInfo) (ps : List HwCache) :
    wrap hwd (arrayOf ((ps.filter pending).map (entryOf p kind))) = (docOf p kind hwd ps).toJson := rfl

/-- The loop up to the end or to the first NULL slot: every updated cache it passes is
marked and has its entry, in order. -/
theorem formatFrom_map {alloc : ℕ → Bool} (halloc : ∀ i, alloc i = true) (kind : HwDevKind)
    (ps : List HwCache) (rest : List (Option HwCache)) (i : ℕ) (es : List Entry) :
    formatFrom p kind alloc i (arrayOf es) (ps.map some ++ rest) =
      let r := formatFrom p kind alloc (i + ps.length)
        (arrayOf (es ++ (ps.filter pending).map (entryOf p kind))) rest
      (ps.map (fun pd => some (sent pd)) ++ r.1,r.2) := by
  induction ps generalizing i es with
  | nil => simp
  | cons pd ps ih =>
    have hlen : i + 1 + ps.length = i + (pd :: ps).length := by
      rw [List.length_cons]
      omega
    by_cases h : pd.status = .uptare
    · simp only [List.map_cons,List.cons_append,formatFrom,h,ne_eq,not_true_eq_false,if_false,halloc,
        if_true,wsFormatHardwareParam_eq,addItemToArray_arrayOf,ih,hlen]
      simp [pending,h,sent,hwUsedCache]
    · simp only [List.map_cons,List.cons_append,formatFrom,h,ne_eq,not_false_eq_true,if_true,ih,hlen]
      simp [pending,h,sent]

theorem wsFormatHardwareData_map {alloc : ℕ → Bool} (halloc : ∀ i, alloc i = true)
    (kind : HwDevKind) (hwd : HwInfo) (ps : List HwCache) :
    wsFormatHardwareData p kind alloc hwd (some (ps.map some)) =
      ⟨true,some ((docOf p kind hwd ps).toJson.print p),some (ps.map fun pd => some (sent pd))⟩ := by
  have h := formatFrom_map p halloc kind ps [] 0 []
  simp only [List.append_nil,List.nil_append,formatFrom] at h
  have harray : CJson.createArray = arrayOf [] := rfl
  simp only [wsFormatHardwareData,harray,h,Option.map_some,wrap_eq]

/-- A NULL slot loses the document, but the caches before it are marked all the same. -/
theorem wsFormatHardwareData_null {alloc : ℕ → Bool} (halloc : ∀ i, alloc i = true)
    (kind : HwDevKind) (hwd : HwInfo) (ps : List HwCache) (rest : List (Option HwCache)) :
    wsFormatHardwareData p kind alloc hwd (some (ps.map some ++ none :: rest)) =
      ⟨true,none,some (ps.map (fun pd => some (sent pd)) ++ none :: rest)⟩ := by
  have harray : CJson.createArray = arrayOf [] := rfl
  simp only [wsFormatHardwareData,harray,formatFrom_map p halloc,formatFrom,Option.map_none]

/-- What a report should say, with every string taken from its own array and every value from its
cache. -/
def reported (kind : HwDevKind) (hwd : HwInfo) (ps : List HwCache) : Doc where
  name := CString.ofMem hwd.name.1
  id := CString.ofMem hwd.id.1
  terminal := CString.ofMem hwd.kindName.1
  mtype := CString.lit "MSGE"
  t := CString.ofMem hwd.time.1
  params := (ps.filter fun pd => pd.status = .uptare).map fun pd =>
    { kks := CString.ofMem pd.kks.1
      ref := CString.ofMem pd.ref.1
      vtype := (words pd.valType).1
      val := p.printf1f (shown p kind pd) ++ CString.lit "-" ++ (words pd.valType).2
      t := CString.ofMem pd.paramTime.1 }

theorem docOf_eq_reported {kind : HwDevKind} {hwd : HwInfo} {ps : List HwCache}
    (hhwd : hwd.Terminated) (hps : ∀ pd ∈ ps, pd.Terminated) :
    docOf p kind hwd ps = reported p kind hwd ps := by
  have hparams : (ps.filter pending).map (entryOf p kind) = (reported p kind hwd ps).params := by
    apply List.map_congr_left
    intro pd hpd
    have ht := hps pd (List.mem_of_mem_filter hpd)
    simp only [entryOf,ht.kksStr,ht.refStr,HwCache.paramTimeStr]
  simp only [docOf,hparams,hhwd.nameStr,hhwd.idStr,hhwd.kindStr,hhwd.timeStr]
  rfl

/-- Parsing the text of a report yields the report, and the call marks what it reported. -/
theorem parse_report {alloc : ℕ → Bool} (halloc : ∀ i, alloc i = true) (kind : HwDevKind)
    {hwd : HwInfo} {ps : List HwCache} (hhwd : hwd.Terminated) (hps : ∀ pd ∈ ps, pd.Terminated) :
    ∃ text, wsFormatHardwareData p kind alloc hwd (some (ps.map some)) =
        ⟨true,some text,some (ps.map fun pd =>
          some (if pd.status = .uptare then { pd with status := .used } else pd))⟩ ∧
      Parse.cJSONParse p (text ++ [0]) = .done (reported p kind hwd ps).toJson := by
  refine ⟨_,wsFormatHardwareData_map p halloc kind hwd ps,?_⟩
  rw [docOf_eq_reported p hhwd hps]
  exact (reported p kind hwd ps).parse_print p

def sampleCache (kks ref t : String) (val : F32) (status : HwDataStatus) : HwCache :=
  { HwCache.zero with
    kks := CharArray.strncpyFrom 64 (CString.lit kks)
    ref := CharArray.strncpyFrom 128 (CString.lit ref)
    paramTime := CharArray.strncpyFrom 64 (CString.lit t)
    val := val
    status := status }

def sampleInfo : HwInfo :=
  { HwInfo.zero with
    kindName := CharArray.strncpyFrom 32 (CString.lit "CUR")
    name := CharArray.strncpyFrom 64 (CString.lit "area \"1\"")
    id := CharArray.strncpyFrom 64 (CString.lit "x\n1") }

/-- Two updated channels and between them one that has been reported. -/
def sampleCaches : List HwCache :=
  [sampleCache "k\\1" "发变811层" "2023-04-05" .negOne .uptare,
    sampleCache "k2" "r2" "" .negOne .used,sampleCache "k\t3" "r\"3" "09:28:47" .zero .uptare]

theorem parse_report_sample : ∃ text,
    wsFormatHardwareData .sample .cur (fun _ => true) sampleInfo (some (sampleCaches.map some)) =
        ⟨true,some text,some (sampleCaches.map fun pd =>
          some (if pd.status = .uptare then { pd with status := .used } else pd))⟩ ∧
      Parse.cJSONParse .sample (text ++ [0]) = .done (reported .sample .cur sampleInfo sampleCaches).toJson ∧
      reported .sample .cur sampleInfo sampleCaches =
        ⟨CString.lit "area \"1\"",CString.lit "x\n1",CString.lit "CUR",CString.lit "MSGE",CString.lit "",
          [⟨CString.lit "k\\1",CString.lit "发变811层",CString.lit "电流",CString.lit "-1.0-A",
              CString.lit "2023-04-05"⟩,
            ⟨CString.lit "k\t3",CString.lit "r\"3",CString.lit "电流",CString.lit "0.0-A",
              CString.lit "09:28:47"⟩]⟩ := by
  have hhwd : sampleInfo.Terminated := by constructor <;> decide
  have hps : ∀ pd ∈ sampleCaches, pd.Terminated := by
    rw [sampleCaches,List.forall_mem_cons,List.forall_mem_cons,List.forall_mem_singleton]
    refine ⟨?_,?_,?_⟩
    all_goals constructor <;> decide
  obtain ⟨text,hformat,hparse⟩ := @parse_report .sample _ (fun _ => rfl) .cur sampleInfo sampleCaches hhwd hps
  exact ⟨text,hformat,hparse,by decide +kernel⟩

end Report
end WddProc
