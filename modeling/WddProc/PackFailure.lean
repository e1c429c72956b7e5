import WddProc.SrvWebsocket

/-!
# Reports that fail

`ws_format_hardware_data` gives up at a NULL slot or at an object that is not created.
Its `_Bool` says so to nobody, the channels before that point stay marked, and the
caller goes on with a NULL string.
-/

namespace WddProc
namespace PackFailure

open Hardware Report Uplink SrvWebsocket

variable (p : Platform)

/-- The session that a report goes to: its buffer and whether it has a connection. -/
structure Session where
  pUser : Option Bytes
  wsiMulti : Bool

/-- What a call of `ws_data_pack_and_send` returns and leaves; `asked` is a requested callback. -/
structure Packed where
  rtn : ℤ
  pData : Option (List (Option HwCache))
  dbuf : Bytes
  pUser : Option Bytes
  asked : Bool

/-- `ws_data_pack_and_send` on any slots. The log takes `strlen(str)` before anything
looks at the result of the format, so a NULL `str` has no result. -/
def wsDataPackAndSend (kind : HwDevKind) (alloc : ℕ → Bool) (hwd : HwInfo)
    (pData : Option (List (Option HwCache))) (wsd : Option Session) (dbuf : Bytes) : Option Packed :=
  match wsd with
  | none => some ⟨-1,pData,dbuf,none,false⟩
  | some vhd =>
    match vhd.pUser with
    | none => some ⟨-1,pData,dbuf,none,false⟩
    | some m => do
      let r := wsFormatHardwareData p kind alloc hwd pData
      let str ← r.out
      let (_,dbuf) ← wsFormatUplinkData p (some dbuf) (some (CString.ofMem str)) CMD_MES_PARAM
      let dbuf ← dbuf
      let m ← sprintfAt m 0 (cstr dbuf)
      some ⟨0,r.pData,dbuf,some m,vhd.wsiMulti⟩

/-- On the caches of the object this is the call that the main loop makes. -/
theorem wsDataPackAndSend_object (hw : Hardware) (m dbuf : Bytes) (wsiMulti : Bool) :
    wsDataPackAndSend p hw.hwInfo.kind (fun _ => true) hw.hwInfo (some (hw.pCache.map some))
        (some ⟨some m,wsiMulti⟩) dbuf =
      (SrvWebsocket.wsDataPackAndSend p hw dbuf (some m)).map fun r =>
        ⟨0,some (r.1.pCache.map some),r.2.1,r.2.2,wsiMulti⟩ := by
  have hout : wsFormatHardwareData p hw.hwInfo.kind (fun _ => true) hw.hwInfo (some (hw.pCache.map some)) =
      ⟨true,some (reportText p hw).bytes,some ((markSent hw).pCache.map some)⟩ := by
    rw [wsFormatHardwareData_map p fun _ => rfl]
    simp [markSent,reportText]
  simp only [wsDataPackAndSend,SrvWebsocket.wsDataPackAndSend,hout,formatReport_eq,Option.bind_eq_bind,
    Option.bind_some,Option.map_bind,Function.comp_def,Option.map_some]

def Stops (alloc : ℕ → Bool) (i : ℕ) : Option HwCache → Prop
  | none => True
  | some pd => pd.status = .uptare ∧ alloc i = false

/-- The call finds no array, a NULL slot, or an updated channel whose object is not created. -/
def Fails (alloc : ℕ → Bool) : Option (List (Option HwCache)) → Prop
  | none => True
  | some ps => ∃ i slot, ps[i]? = some slot ∧ Stops alloc i slot

/-- The first channel at which a loop that counts from `i` ends early is number `k` of it. -/
def StopsAt (alloc : ℕ → Bool) (i : ℕ) (ps : List (Option HwCache)) (k : ℕ) : Prop :=
  (∃ slot, ps[k]? = some slot ∧ Stops alloc (i + k) slot) ∧
    ∀ j < k, ∀ slot, ps[j]? = some slot → ¬ Stops alloc (i + j) slot

theorem exists_stopsAt {alloc : ℕ → Bool} {ps : List (Option HwCache)} (h : Fails alloc (some ps)) :
    ∃ k, StopsAt alloc 0 ps k := by
  classical
  have hex : ∃ k, ∃ slot, ps[k]? = some slot ∧ Stops alloc k slot := h
  refine ⟨Nat.find hex,?_,fun j hj slot hslot hstops => ?_⟩
  · rw [Nat.zero_add]
    exact Nat.find_spec hex
  · rw [Nat.zero_add] at hstops
    exact Nat.find_min hex hj ⟨slot,hslot,hstops⟩

theorem StopsAt.tail {alloc : ℕ → Bool} {i k : ℕ} {slot : Option HwCache} {ps : List (Option HwCache)}
    (h : StopsAt alloc i (slot :: ps) (k + 1)) : StopsAt alloc (i + 1) ps k := by
  obtain ⟨⟨last,hlast,hstops⟩,hbefore⟩ := h
  have hshift (j : ℕ) : i + 1 + j = i + (j + 1) := by omega
  refine ⟨⟨last,hlast,by rw [hshift]; exact hstops⟩,fun j hj slot' hslot' => ?_⟩
  rw [hshift]
  exact hbefore (j + 1) (by omega) slot' hslot'

/-- The loop marks every updated channel before the one it stops at. -/
theorem formatFrom_stopsAt (kind : HwDevKind) {alloc : ℕ → Bool} {ps : List (Option HwCache)} {i k : ℕ}
    (h : StopsAt alloc i ps k) (array : CJson) :
    formatFrom p kind alloc i array ps = ((ps.take k).map (Option.map sent) ++ ps.drop k,none) := by
  induction ps generalizing i k array with
  | nil =>
    obtain ⟨⟨slot,hslot,-⟩,-⟩ := h
    cases hslot
  | cons slot ps ih =>
    cases k with
    | zero =>
      obtain ⟨⟨slot',hslot,hstops⟩,-⟩ := h
      cases hslot
      cases slot with
      | none => rfl
      | some pd =>
        obtain ⟨hst,halloc⟩ := hstops
        rw [Nat.add_zero] at halloc
        simp [formatFrom,hst,halloc]
    | succ k =>
      have hhead : ¬ Stops alloc i slot := h.2 0 (Nat.succ_pos k) slot rfl
      cases slot with
      | none => exact absurd trivial hhead
      | some pd =>
        by_cases hst : pd.status = .uptare
        · have halloc : alloc i = true := by
            by_contra hno
            exact hhead ⟨hst,by simpa using hno⟩
          simp only [formatFrom,hst,ne_eq,not_true_eq_false,if_false,halloc,if_true,ih h.tail]
          simp [sent,hst,hwUsedCache]
        · simp only [formatFrom,hst,ne_eq,not_false_eq_true,if_true,ih h.tail]
          simp [sent,hst]

theorem wsFormatHardwareData_fails {kind : HwDevKind} {alloc : ℕ → Bool} {hwd : HwInfo}
    {pData : Option (List (Option HwCache))} (h : Fails alloc pData) :
    (wsFormatHardwareData p kind alloc hwd pData).rtn = true ∧
      (wsFormatHardwareData p kind alloc hwd pData).out = none := by
  cases pData with
  | none => exact ⟨rfl,rfl⟩
  | some ps =>
    obtain ⟨k,hk⟩ := exists_stopsAt h
    simp [wsFormatHardwareData,formatFrom_stopsAt p kind hk]

theorem sent_eq_self_iff (pd : HwCache) : sent pd = pd ↔ pd.status ≠ .uptare := by
  constructor
  · intro h hst
    rw [sent,if_pos hst] at h
    have hused := congrArg HwCache.status h
    rw [hst] at hused
    cases hused
  · intro h
    rw [sent,if_neg h]

/-- A call that fails leaves the channels alone exactly when none before the point where it
gives up has an update. -/
theorem unchanged_iff {kind : HwDevKind} {alloc : ℕ → Bool} {hwd : HwInfo}
    {ps : List (Option HwCache)} {k : ℕ} (hk : StopsAt alloc 0 ps k) :
    (wsFormatHardwareData p kind alloc hwd (some ps)).pData = some ps ↔
      ∀ pd, some pd ∈ ps.take k → pd.status ≠ .uptare := by
  have hmap : (ps.take k).map (Option.map sent) ++ ps.drop k = ps ↔
      (ps.take k).map (Option.map sent) = (ps.take k).map id := by
    rw [List.map_id]
    conv_lhs => rhs; rw [← List.take_append_drop k ps]
    exact List.append_left_inj _
  simp only [wsFormatHardwareData,formatFrom_stopsAt p kind hk,Option.some.injEq,hmap,List.map_inj_left]
  constructor
  · intro h pd hpd
    exact (sent_eq_self_iff pd).mp (Option.some.inj (h (some pd) hpd))
  · intro h slot hslot
    cases slot with
    | none => rfl
    | some pd => exact congrArg some ((sent_eq_self_iff pd).mpr (h pd hslot))

/-- The format returns another value than on success and leaves the channels, and the pack
call returns an error and touches neither the buffer nor the connection. -/
structure FailsCleanly (kind : HwDevKind) (alloc : ℕ → Bool) (hwd : HwInfo)
    (pData : Option (List (Option HwCache))) (vhd : Session) (dbuf : Bytes) : Prop where
  visible : (wsFormatHardwareData p kind alloc hwd pData).rtn ≠ true
  unchanged : (wsFormatHardwareData p kind alloc hwd pData).pData = pData
  packed : ∃ r, wsDataPackAndSend p kind alloc hwd pData (some vhd) dbuf = some r ∧
    r.rtn ≠ 0 ∧ r.pUser = vhd.pUser ∧ r.asked = false

theorem wsDataPackAndSend_fails {kind : HwDevKind} {alloc : ℕ → Bool} {hwd : HwInfo}
    {pData : Option (List (Option HwCache))} (h : Fails alloc pData) (m : Bytes) (wsiMulti : Bool)
    (dbuf : Bytes) :
    wsDataPackAndSend p kind alloc hwd pData (some ⟨some m,wsiMulti⟩) dbuf = none := by
  have hout : (wsFormatHardwareData p kind alloc hwd pData).out = none :=
    (wsFormatHardwareData_fails p h).2
  simp only [wsDataPackAndSend,hout,Option.bind_eq_bind,Option.bind_none]

/-- No failure of the format is clean: the value it returns is the one of success, and a pack
call with a buffer does not return. -/
theorem failure_not_clean {kind : HwDevKind} {alloc : ℕ → Bool} {hwd : HwInfo}
    {pData : Option (List (Option HwCache))} (h : Fails alloc pData) (vhd : Session) (dbuf : Bytes) :
    ¬ FailsCleanly p kind alloc hwd pData vhd dbuf ∧
      (wsFormatHardwareData p kind alloc hwd pData).rtn = true ∧
      (vhd.pUser.isSome = true → wsDataPackAndSend p kind alloc hwd pData (some vhd) dbuf = none) := by
  have hrtn : (wsFormatHardwareData p kind alloc hwd pData).rtn = true :=
    (wsFormatHardwareData_fails p h).1
  refine ⟨fun hclean => hclean.visible hrtn,hrtn,fun hm => ?_⟩
  obtain ⟨m,hm⟩ := Option.isSome_iff_exists.mp hm
  have hvhd : vhd = ⟨some m,vhd.wsiMulti⟩ := by rw [← hm]
  rw [hvhd]
  exact wsDataPackAndSend_fails p h m _ dbuf

theorem failure_not_clean_without_array :
    Fails (fun _ => true) none ∧ ¬ FailsCleanly .sample .cur (fun _ => true) .zero none ⟨some [0],true⟩ [0] :=
  ⟨trivial,(@failure_not_clean .sample .cur (fun _ => true) .zero none trivial ⟨some [0],true⟩ [0]).1⟩

/-- An updated channel in front of a NULL slot: the call returns `true`, and the channel is
marked as used although no report on it exists. -/
theorem null_slot_marks : Fails (fun _ => true) (some [some .zero,none]) ∧
    ¬ FailsCleanly .sample .cur (fun _ => true) .zero (some [some .zero,none]) ⟨some [0],true⟩ [0] ∧
    wsFormatHardwareData .sample .cur (fun _ => true) .zero (some [some .zero,none]) =
      ⟨true,none,some [some { HwCache.zero with status := .used },none]⟩ := by
  have hnull : wsFormatHardwareData .sample .cur (fun _ => true) .zero (some [some .zero,none]) =
      ⟨true,none,some [some { HwCache.zero with status := .used },none]⟩ :=
    wsFormatHardwareData_null .sample (fun _ => rfl) .cur .zero [HwCache.zero] []
  exact ⟨⟨1,none,rfl,trivial⟩,fun h => h.visible (by rw [hnull]),hnull⟩

end PackFailure
end WddProc
