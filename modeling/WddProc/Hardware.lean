import WddProc.DataDef

/-!
# The hardware object

The functions of `srv_hardware.cpp` that read the device description and the
measurements, and the one that keeps the status of the channel caches.
-/

namespace WddProc

/-- `class hardware`; `pCache` holds `nChNum` caches. -/
structure Hardware where
  hwInfo : HwInfo
  pCache : List HwCache

namespace Hardware

def nChNum (hw : Hardware) : ℕ := hw.pCache.length

/-- `_hw_kind_init` on the `new`-allocated object. The copies start at offsets 0 and 4
of `ver.type`, and the second one may run into `ver.softVersion`. -/
def hwKindInit (info : RtuInfo) (hwInfo : HwInfo) : HwInfo :=
  let kindName : CharArray 32 :=
    ⟨strncpy 3 info.type.1 ++ 0 :: hwInfo.kindName.1.drop 4,by simp [hwInfo.kindName.2]⟩
  { hwInfo with
    kindName := kindName
    model := ⟨strncpy 32 (info.type.1.drop 4 ++ info.softVersion.1),by simp⟩
    kind := getDeviceKindByName (CString.ofMem kindName.1) }

def hwGetChannelSum (info : RtuInfo) (kind : HwDevKind) : ℕ :=
  match kind with
  | .cur => info.currentChNum.toNat
  | .vol => info.voltageChNum.toNat
  | .env => JSON_HW_ENV_INS_NUM
  | .ase | .pse => info.aiChNumI.toNat
  | _ => 1

/-- The default type of channel `i`; sensors keep the zero of `calloc`. -/
def initValType (kind : HwDevKind) (i : ℕ) : HwDevType :=
  match kind with
  | .cur => .cur
  | .vol => .vol
  | .env => .cast (HwDevType.temp.toNat + i)
  | _ => HwCache.zero.valType

/-- `hw_info_init`; `heap` is what the allocation of the object held before. -/
def hwInfoInit (info : RtuInfo) (heap : HwInfo) : Hardware :=
  let hwInfo := hwKindInit info heap
  { hwInfo := hwInfo
    pCache := (List.range (hwGetChannelSum info hwInfo.kind)).map fun i =>
      { HwCache.zero with valType := initValType hwInfo.kind i } }

def getEnvValueByVtype (real : ShmDataRo) (vtype : HwDevType) : F32 :=
  match vtype with
  | .temp => real.envMonitor.temperature
  | .humi => real.envMonitor.humidity
  | .niose => real.envMonitor.noise
  | .pm2_5 => real.envMonitor.pm2_5
  | .pm10 => real.envMonitor.pm10
  | .o2 => real.envMonitor.O2
  | .tvoc => real.envMonitor.tvoc
  | _ => F32.negOne

/-- The array index that `get_gpio_val` computes from a port. -/
def hwGpio (gpio : UInt16) : ℤ := (gpio.toNat : ℤ) - 1

/-- `get_gpio_val`: `none` is the return value -1, which leaves `*val` alone. -/
def getGpioVal (real : ShmDataRo) (kind : HwDevKind) (type : HwDevType) (gpio : UInt16) : Option F32 :=
  match kind with
  | .cur => some (real.currentA (hwGpio gpio))
  | .vol => some (real.voltageV (hwGpio gpio))
  | .ase | .pse => some (real.aiValI (hwGpio gpio))
  | .env => some (getEnvValueByVtype real type)
  | _ => none

/-- What one call of `hw_heartbeat` meets: the shared memory, the clock when it starts
and when it stores channel `i`, and the bytes the local `rdata` starts with. -/
structure Heartbeat where
  real : ShmDataRo
  now : SysTime
  stamp : ℕ → SysTime
  rdata : F32

/-- The body of the loop once `rdata` is read. -/
def storeVal (hb : Heartbeat) (i : ℕ) (pd : HwCache) (rdata : F32) : HwCache :=
  if F32.feq pd.val rdata then pd
  else { pd with val := rdata, paramTime := getSysTime (hb.stamp i) pd.paramTime, status := .uptare }

/-- The loop of `hw_param_monitor` from channel `i` on. A failed lookup leaves `rdata`
as the channel before it did. -/
def monitorFrom (hb : Heartbeat) (kind : HwDevKind) : ℕ → F32 → List HwCache → List HwCache
  | _, _, [] => []
  | i, rdata, pd :: ps =>
    let rdata := (getGpioVal hb.real kind pd.valType pd.gpio.io).getD rdata
    storeVal hb i pd rdata :: monitorFrom hb kind (i + 1) rdata ps

def hwParamMonitor (hb : Heartbeat) (hw : Hardware) : Hardware where
  hwInfo := { hw.hwInfo with time := getSysTime hb.now hw.hwInfo.time }
  pCache := monitorFrom hb hw.hwInfo.kind 0 hb.rdata hw.pCache

def hwHeartbeat (hb : Heartbeat) (hw : Hardware) : Hardware := hwParamMonitor hb hw

def hwUsedCache (data : HwCache) : HwCache := { data with status := .used }

/-- `hw_look_cache_status`; -1 for a NULL slot that comes before any update. -/
def hwLookCacheStatus : List (Option HwCache) → ℤ
  | [] => HwDataStatus.keep.toNat
  | none :: _ => -1
  | some pd :: ps =>
    if pd.status = .uptare then HwDataStatus.uptare.toNat else hwLookCacheStatus ps

def getParamRef (param : HwCache) : CString := param.refStr

end Hardware

namespace Platform

variable (p : Platform)

def dataADConvert (val inMin inMax outMin outMax : F32) : F32 :=
  p.fadd (p.fdiv (p.fmul (p.fsub val inMin) (p.fsub outMax outMin)) (p.fsub inMax inMin)) outMin

def getVal (kind : HwDevKind) (param : HwCache) : F32 :=
  if kind = .ase ∨ kind = .pse then
    p.dataADConvert param.val (p.ofInt param.rangeI.1) (p.ofInt param.rangeI.2)
      (p.ofInt param.rangeD.1) (p.ofInt param.rangeD.2)
  else param.val

/-- `hardware::get_val_strUnit` of a converted value: `"%.1f-%s"`. -/
def getValStrUnit (param : HwCache) (val : F32) : CString :=
  p.printf1f val ++ CString.ofMem [45] ++ getHwUnitByType param.valType

end Platform

namespace Hardware

/-- What `rdata` holds when channel `pd` is compared. -/
def reading (hb : Heartbeat) (kind : HwDevKind) (pd : HwCache) : F32 :=
  (getGpioVal hb.real kind pd.valType pd.gpio.io).getD hb.rdata

/-- Lookups succeed for all channels of a kind or for none, so no channel is compared
with the value of another one. -/
theorem getGpioVal_getD (real : ShmDataRo) (kind : HwDevKind) (t t' : HwDevType) (g g' : UInt16)
    (rdata : F32) :
    (getGpioVal real kind t g).getD ((getGpioVal real kind t' g').getD rdata) =
      (getGpioVal real kind t g).getD rdata := by
  cases kind <;> rfl

theorem monitorFrom_eq (hb : Heartbeat) (kind : HwDevKind) (i : ℕ) (rdata : F32) (ps : List HwCache) :
    monitorFrom hb kind i rdata ps = ps.mapIdx fun j pd =>
      storeVal hb (i + j) pd ((getGpioVal hb.real kind pd.valType pd.gpio.io).getD rdata) := by
  induction ps generalizing i rdata with
  | nil => rfl
  | cons pd ps ih =>
    simp only [monitorFrom,ih,List.mapIdx_cons,getGpioVal_getD,Nat.add_zero,Nat.add_assoc,
      Nat.add_comm 1]

theorem hwParamMonitor_pCache (hb : Heartbeat) (hw : Hardware) :
    (hwParamMonitor hb hw).pCache = hw.pCache.mapIdx fun i pd =>
      storeVal hb i pd (reading hb hw.hwInfo.kind pd) := by
  simp only [hwParamMonitor,monitorFrom_eq,Nat.zero_add,reading]

@[simp] theorem hwParamMonitor_kind (hb : Heartbeat) (hw : Hardware) :
    (hwParamMonitor hb hw).hwInfo.kind = hw.hwInfo.kind := rfl

theorem hwParamMonitor_get? (hb : Heartbeat) (hw : Hardware) (i : ℕ) :
    (hwParamMonitor hb hw).pCache[i]? =
      hw.pCache[i]?.map fun pd => storeVal hb i pd (reading hb hw.hwInfo.kind pd) := by
  rw [hwParamMonitor_pCache,List.getElem?_mapIdx]

@[simp] theorem hwParamMonitor_nChNum (hb : Heartbeat) (hw : Hardware) :
    (hwParamMonitor hb hw).nChNum = hw.nChNum := by
  simp [nChNum,hwParamMonitor_pCache]

@[simp] theorem storeVal_gpio (hb : Heartbeat) (i : ℕ) (pd : HwCache) (v : F32) :
    (storeVal hb i pd v).gpio = pd.gpio := by unfold storeVal; split <;> rfl
@[simp] theorem storeVal_valType (hb : Heartbeat) (i : ℕ) (pd : HwCache) (v : F32) :
    (storeVal hb i pd v).valType = pd.valType := by unfold storeVal; split <;> rfl

/-- A channel that compares equal is left alone, any other one is stored and marked. -/
theorem storeVal_cases (hb : Heartbeat) (i : ℕ) (pd : HwCache) (v : F32) :
    F32.feq pd.val v = true ∧ storeVal hb i pd v = pd ∨
    F32.feq pd.val v = false ∧ (storeVal hb i pd v).val = v ∧
      (storeVal hb i pd v).status = .uptare ∧
      (storeVal hb i pd v).paramTime = getSysTime (hb.stamp i) pd.paramTime := by
  cases h : F32.feq pd.val v
  · exact Or.inr ⟨rfl,by simp [storeVal,h]⟩
  · exact Or.inl ⟨rfl,by simp [storeVal,h]⟩

theorem hwLookCacheStatus_eq_uptare (ps : List HwCache) :
    hwLookCacheStatus (ps.map some) = HwDataStatus.uptare.toNat ↔ ∃ pd ∈ ps, pd.status = .uptare := by
  induction ps with
  | nil => simp [hwLookCacheStatus,HwDataStatus.toNat]
  | cons pd ps ih =>
    by_cases h : pd.status = .uptare
    · simp [hwLookCacheStatus,h]
    · simp [hwLookCacheStatus,h,ih]

theorem hwGetChannelSum_lt (info : RtuInfo) (kind : HwDevKind) : hwGetChannelSum info kind < 65536 := by
  have h₁ := info.aiChNumI.toNat_lt
  have h₂ := info.voltageChNum.toNat_lt
  have h₃ := info.currentChNum.toNat_lt
  cases kind <;> simp [hwGetChannelSum,JSON_HW_ENV_INS_NUM] <;> omega

theorem hwInfoInit_get? (info : RtuInfo) (heap : HwInfo) (i : ℕ)
    (h : i < hwGetChannelSum info (hwKindInit info heap).kind) :
    (hwInfoInit info heap).pCache[i]? =
      some { HwCache.zero with valType := initValType (hwKindInit info heap).kind i } := by
  simp [hwInfoInit,h]

@[simp] theorem hwInfoInit_nChNum (info : RtuInfo) (heap : HwInfo) :
    (hwInfoInit info heap).nChNum = hwGetChannelSum info (hwKindInit info heap).kind := by
  simp [nChNum,hwInfoInit]

theorem mem_hwInfoInit {info : RtuInfo} {heap : HwInfo} {pd : HwCache}
    (h : pd ∈ (hwInfoInit info heap).pCache) : ∃ t, pd = { HwCache.zero with valType := t } := by
  simp only [hwInfoInit,List.mem_map] at h
  obtain ⟨i,-,rfl⟩ := h
  exact ⟨_,rfl⟩

end Hardware
end WddProc
