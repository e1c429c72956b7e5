import WddProc.Platform

/-!
# Shared memory, channel caches and their tables

The types of `dataDef.h` and `srv_hardware.h` with the fields the program uses,
and the type and kind tables of the report.
-/

namespace WddProc

inductive HwDevType
  | cur | vol
  | temp | humi | niose | pm2_5 | pm10 | o2 | tvoc
  | flow | sflow | rspd | freq | power | elec
  | resv | type1 | type2 | tbd | end_
  deriving DecidableEq, Repr

namespace HwDevType

def toNat : HwDevType → ℕ
  | cur => 0 | vol => 1
  | temp => 2 | humi => 3 | niose => 4 | pm2_5 => 5 | pm10 => 6 | o2 => 7 | tvoc => 8
  | flow => 9 | sflow => 10 | rspd => 11 | freq => 12 | power => 13 | elec => 14
  | resv => 15 | type1 => 16 | type2 => 17 | tbd => 18 | end_ => 19

def all : List HwDevType :=
  [cur,vol,temp,humi,niose,pm2_5,pm10,o2,tvoc,flow,sflow,rspd,freq,power,elec,resv,type1,type2,tbd,end_]

/-- `(hw_dev_type_e)n` for the values of the enumeration. -/
def cast (n : ℕ) : HwDevType := all.getD n end_

end HwDevType

inductive HwDevKind
  | col | cur | vol | env | ase | pse | tbd
  deriving DecidableEq, Repr

inductive HwDataStatus
  | uptare | keep | used | down | init
  deriving DecidableEq, Repr

def HwDataStatus.toNat : HwDataStatus → ℕ
  | uptare => 0 | keep => 1 | used => 2 | down => 3 | init => 4

structure HwDevPort where
  io : UInt16
  name : CharArray 16

/-- `hw_cache_t`, packed. -/
structure HwCache where
  gpio : HwDevPort
  kks : CharArray 64
  zone : CharArray 64
  ref : CharArray 128
  valType : HwDevType
  val : F32
  paramTime : CharArray 64
  rangeI : ℤ × ℤ
  rangeD : ℤ × ℤ
  status : HwDataStatus

/-- `hw_info_t`, packed. -/
structure HwInfo where
  kind : HwDevKind
  kindName : CharArray 32
  model : CharArray 32
  disable : Bool
  name : CharArray 64
  id : CharArray 64
  terminal : CharArray 32
  time : CharArray 64
  status : HwDataStatus

/-- A cache as `calloc` leaves it. -/
def HwCache.zero : HwCache where
  gpio := ⟨0,CharArray.zero 16⟩
  kks := CharArray.zero 64
  zone := CharArray.zero 64
  ref := CharArray.zero 128
  valType := .cur
  val := F32.zero
  paramTime := CharArray.zero 64
  rangeI := (0,0)
  rangeD := (0,0)
  status := .uptare

def HwInfo.zero : HwInfo where
  kind := .col
  kindName := CharArray.zero 32
  model := CharArray.zero 32
  disable := false
  name := CharArray.zero 64
  id := CharArray.zero 64
  terminal := CharArray.zero 32
  time := CharArray.zero 64
  status := .uptare

-- the strings that `%s` reads: a field without a NUL runs into the next ones
namespace HwCache

variable (c : HwCache)

def refStr : CString := CString.ofMem (c.ref.1 ++ le32 c.valType.toNat)
def zoneStr : CString := CString.ofMem (c.zone.1 ++ c.ref.1 ++ le32 c.valType.toNat)
def kksStr : CString := CString.ofMem (c.kks.1 ++ c.zone.1 ++ c.ref.1 ++ le32 c.valType.toNat)
/-- `param_time` is written by `get_sys_time` only and keeps a NUL. -/
def paramTimeStr : CString := CString.ofMem c.paramTime.1

/-- Every string of the cache ends inside its own array. -/
structure Terminated : Prop where
  kks : 0 ∈ c.kks.1
  ref : 0 ∈ c.ref.1
  paramTime : 0 ∈ c.paramTime.1

variable {c}

theorem Terminated.kksStr (h : c.Terminated) : c.kksStr = CString.ofMem c.kks.1 := by
  ext1
  simp only [HwCache.kksStr,CString.ofMem_bytes,List.append_assoc]
  exact cstr_append_of_mem h.kks _

theorem Terminated.refStr (h : c.Terminated) : c.refStr = CString.ofMem c.ref.1 := by
  ext1
  exact cstr_append_of_mem h.ref _

theorem zero_terminated : HwCache.zero.Terminated := by
  constructor <;> decide

end HwCache

namespace HwInfo

variable (h : HwInfo)

def timeStr : CString := CString.ofMem (h.time.1 ++ le32 h.status.toNat)
def idStr : CString := CString.ofMem (h.id.1 ++ h.terminal.1 ++ h.time.1 ++ le32 h.status.toNat)
def nameStr : CString :=
  CString.ofMem (h.name.1 ++ h.id.1 ++ h.terminal.1 ++ h.time.1 ++ le32 h.status.toNat)
def kindStr : CString :=
  CString.ofMem (h.kindName.1 ++ h.model.1 ++ (if h.disable then 1 else 0) ::
    (h.name.1 ++ h.id.1 ++ h.terminal.1 ++ h.time.1 ++ le32 h.status.toNat))

/-- The strings of the report end inside their own arrays. -/
structure Terminated : Prop where
  kindName : 0 ∈ h.kindName.1
  name : 0 ∈ h.name.1
  id : 0 ∈ h.id.1
  time : 0 ∈ h.time.1

variable {h}

theorem Terminated.nameStr (ht : h.Terminated) : h.nameStr = CString.ofMem h.name.1 := by
  ext1
  simp only [HwInfo.nameStr,CString.ofMem_bytes,List.append_assoc]
  exact cstr_append_of_mem ht.name _

theorem Terminated.idStr (ht : h.Terminated) : h.idStr = CString.ofMem h.id.1 := by
  ext1
  simp only [HwInfo.idStr,CString.ofMem_bytes,List.append_assoc]
  exact cstr_append_of_mem ht.id _

theorem Terminated.timeStr (ht : h.Terminated) : h.timeStr = CString.ofMem h.time.1 := by
  ext1
  exact cstr_append_of_mem ht.time _

theorem Terminated.kindStr (ht : h.Terminated) : h.kindStr = CString.ofMem h.kindName.1 := by
  ext1
  simp only [HwInfo.kindStr,CString.ofMem_bytes,List.append_assoc]
  exact cstr_append_of_mem ht.kindName _

theorem zero_terminated : HwInfo.zero.Terminated := by
  constructor <;> decide

end HwInfo

/-- `hw_vtype_values`: id, name and unit. -/
def hwVtypeValues : List (HwDevType × Bytes × Bytes) :=
  [(.cur,utf8 "电流",utf8 "A"),
   (.vol,utf8 "电压",utf8 "V"),
   (.temp,utf8 "温度",utf8 "℃"),
   (.humi,utf8 "湿度",utf8 "%%RH"),
   (.niose,utf8 "噪声",utf8 "MPa"),
   (.pm2_5,utf8 "PM2.5",utf8 "μg/m³"),
   (.pm10,utf8 "PM10",utf8 "μg/m³"),
   (.o2,utf8 "氧气",utf8 "%%"),
   (.tvoc,utf8 "TVOC",utf8 "mg/m³"),
   (.flow,utf8 "流量",utf8 "m³/m"),
   (.sflow,utf8 "累积流量",utf8 "m³"),
   (.rspd,utf8 "转速",utf8 "r/min"),
   (.freq,utf8 "频率",utf8 "Hz"),
   (.power,utf8 "功率",utf8 "W"),
   (.elec,utf8 "电能",utf8 "KW.h")]

/-- `hw_vkind_values`: id and name. -/
def hwVkindValues : List (HwDevKind × Bytes) :=
  [(.col,utf8 "COL"),(.cur,utf8 "CUR"),(.vol,utf8 "VOL"),(.env,utf8 "ENV"),
   (.ase,utf8 "ASE"),(.pse,utf8 "PSE"),(.tbd,utf8 "TBD")]

def tolower (b : UInt8) : UInt8 := if 65 ≤ b ∧ b ≤ 90 then b + 32 else b

/-- `0 == strcasecmp(s, t)`. -/
def strcaseEq (s t : Bytes) : Bool := s.map tolower == t.map tolower

def getHwTypeByName (name : CString) : HwDevType :=
  ((hwVtypeValues.find? fun v => strcaseEq name.bytes v.2.1).map Prod.fst).getD .tbd

def getHwNameByType (vtype : HwDevType) : CString :=
  CString.ofMem (((hwVtypeValues.find? fun v => vtype == v.1).map fun v => v.2.1).getD [])

def getHwUnitByType (vtype : HwDevType) : CString :=
  CString.ofMem (((hwVtypeValues.find? fun v => vtype == v.1).map fun v => v.2.2).getD [])

def getDeviceKindByName (name : CString) : HwDevKind :=
  ((hwVkindValues.find? fun v => strcaseEq name.bytes v.2).map Prod.fst).getD .tbd

/-- The type that a name stands for: the one with this name up to case in the table, and
`HW_TYPE_TBD` when the table has no such name. -/
def TypeNamed (name : CString) (t : HwDevType) : Prop :=
  (∃ v ∈ hwVtypeValues, strcaseEq name.bytes v.2.1 = true ∧ v.1 = t) ∨
    (∀ v ∈ hwVtypeValues, strcaseEq name.bytes v.2.1 = false) ∧ t = .tbd

theorem hwVtypeValues_distinct : ∀ v ∈ hwVtypeValues, ∀ w ∈ hwVtypeValues,
    strcaseEq v.2.1 w.2.1 = true → v = w := by
  decide

theorem getHwTypeByName_iff (name : CString) (t : HwDevType) :
    getHwTypeByName name = t ↔ TypeNamed name t := by
  unfold getHwTypeByName TypeNamed
  cases hf : hwVtypeValues.find? fun v => strcaseEq name.bytes v.2.1 with
  | none =>
    have hno : ∀ v ∈ hwVtypeValues, strcaseEq name.bytes v.2.1 = false := by simpa using hf
    constructor
    · rintro rfl
      exact Or.inr ⟨hno,rfl⟩
    · rintro (⟨v,hv,he,-⟩ | ⟨-,rfl⟩)
      · exact absurd he (by simp [hno v hv])
      · rfl
  | some w =>
    have hw := List.mem_of_find?_eq_some hf
    have he : strcaseEq name.bytes w.2.1 = true := by simpa using List.find?_some hf
    constructor
    · rintro rfl
      exact Or.inl ⟨w,hw,he,rfl⟩
    · rintro (⟨v,hv,hve,rfl⟩ | ⟨hno,-⟩)
      · have hsame : strcaseEq w.2.1 v.2.1 = true := by
          simp only [strcaseEq,beq_iff_eq] at he hve ⊢
          exact he.symm.trans hve
        rw [hwVtypeValues_distinct w hw v hv hsame]
        rfl
      · exact absurd he (by simp [hno w hw])

/-- The fields of `struct tm` and `struct timeb` that `get_sys_time` prints. -/
structure SysTime where
  year : ℕ
  mon : ℕ
  mday : ℕ
  hour : ℕ
  min : ℕ
  sec : ℕ
  millitm : ℕ
  year_lt : year < 10^10
  mon_lt : mon < 100
  mday_lt : mday < 100
  hour_lt : hour < 100
  min_lt : min < 100
  sec_lt : sec < 100
  millitm_lt : millitm < 1000

/-- `"%04d-%02d-%02d %02d:%02d:%02d.%03d"`. -/
def SysTime.text (t : SysTime) : CString where
  bytes := padded 4 t.year ++ 45 :: padded 2 t.mon ++ 45 :: padded 2 t.mday ++ 32 :: padded 2 t.hour ++
    58 :: padded 2 t.min ++ 58 :: padded 2 t.sec ++ 46 :: padded 3 t.millitm
  nulFree := by simp [zero_notMem_padded]

theorem SysTime.text_length (t : SysTime) : t.text.bytes.length ≤ 29 := by
  have hy := padded_length_le (w := 4) (by decide) (by decide) t.year_lt
  have h₁ := padded_length (w := 2) (by decide) t.mon_lt
  have h₂ := padded_length (w := 2) (by decide) t.mday_lt
  have h₃ := padded_length (w := 2) (by decide) t.hour_lt
  have h₄ := padded_length (w := 2) (by decide) t.min_lt
  have h₅ := padded_length (w := 2) (by decide) t.sec_lt
  have h₆ := padded_length (w := 3) (by decide) t.millitm_lt
  simp only [SysTime.text,List.length_append,List.length_cons]
  omega

theorem SysTime.text_fits (t : SysTime) : t.text.bytes.length < 64 :=
  Nat.lt_of_le_of_lt t.text_length (by decide)

/-- `get_sys_time` into one of the 64-byte time fields. -/
def getSysTime (t : SysTime) (a : CharArray 64) : CharArray 64 := a.sprintfInto t.text t.text_fits

structure EnvMonitor where
  temperature : F32
  humidity : F32
  noise : F32
  pm2_5 : F32
  pm10 : F32
  O2 : F32
  tvoc : F32

/-- `SHM_DATA_RO`. An array is what indexing from its start reads: its elements
for the indices below `AI_NUM_MAX`, and whatever lies there for the others. -/
structure ShmDataRo where
  envMonitor : EnvMonitor
  aiValI : ℤ → F32
  voltageV : ℤ → F32
  currentA : ℤ → F32

def AI_NUM_MAX : ℕ := 32

/-- `RTU_INFO` with its `VERSION`. -/
structure RtuInfo where
  type : CharArray 32
  softVersion : CharArray 16
  hwVersion : CharArray 16
  aiChNumI : UInt16
  voltageChNum : UInt16
  currentChNum : UInt16

def RtuInfo.device (type : CString) (n : UInt16) : RtuInfo where
  type := CharArray.strncpyFrom 32 type
  softVersion := CharArray.zero 16
  hwVersion := CharArray.zero 16
  aiChNumI := n
  voltageChNum := n
  currentChNum := n

def JSON_HW_ENV_INS_NUM : ℕ := 7

end WddProc
