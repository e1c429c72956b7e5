import WddProc.Report
import WddProc.Uplink

/-!
# Packing a report into the session buffer

`srv_websocket.cpp` formats the report, frames it in a static buffer and copies
the frame into `p_user`; `_ws_send_msg` copies it once more for `lws_write`.
-/

namespace WddProc
namespace SrvWebsocket

open Hardware Report Uplink

variable (p : Platform)

def LWS_PRE : ℕ := 16
def WS_TX_MAX_LEN : ℕ := 100 * 1024
def DBUF_LEN : ℕ := 1024 * 100
def CMD_MES_PARAM : ℤ := 65537

/-- The call of `ws_format_hardware_data`: the object afterwards and the text in `str`. -/
def formatReport (hw : Hardware) : Hardware × Option Bytes :=
  let r := wsFormatHardwareData p hw.hwInfo.kind (fun _ => true) hw.hwInfo (some (hw.pCache.map some))
  ({ hw with pCache := (r.pData.getD []).reduceOption },r.out)

/-- `ws_data_pack_and_send` up to the request for a callback: the object, `dbuf` and
`p_user` afterwards. No result when a write leaves its buffer. -/
def wsDataPackAndSend (hw : Hardware) (dbuf : Bytes) (pUser : Option Bytes) :
    Option (Hardware × Bytes × Option Bytes) :=
  match pUser with
  | none => some (hw,dbuf,none)
  | some m => do
    let (hw,str) := formatReport p hw
    let str ← str
    let (_,dbuf) ← wsFormatUplinkData p (some dbuf) (some (CString.ofMem str)) CMD_MES_PARAM
    let dbuf ← dbuf
    let m ← sprintfAt m 0 (cstr dbuf)
    some (hw,dbuf,some m)

/-- The bytes that `_ws_send_msg` hands to `lws_write`. -/
def wsSendMsg (msg : Bytes) (len : ℕ) : Option Bytes := do
  -- the log line that prints `sbuf` with `%s` is left out; it finds no NUL when `len` fills `sbuf`
  let sbuf ← poke (List.replicate (LWS_PRE + WS_TX_MAX_LEN) 0) LWS_PRE (msg.take len)
  some ((sbuf.drop LWS_PRE).take len)

def reportText (hw : Hardware) : CString :=
  ⟨(docOf p hw.hwInfo.kind hw.hwInfo hw.pCache).toJson.print p,CJson.zero_notMem_printValue p true 0 _⟩

/-- The frame that a pack step makes of an object. -/
def reportFrame (hw : Hardware) : Bytes := frame p (reportText p hw) CMD_MES_PARAM

def markSent (hw : Hardware) : Hardware := { hw with pCache := hw.pCache.map sent }

theorem reportText_ne_nil (hw : Hardware) : (reportText p hw).bytes ≠ [] := by
  simp [reportText,CJson.print,Doc.toJson,object,CJson.printValue]

theorem formatReport_eq (hw : Hardware) :
    formatReport p hw = (markSent hw,some (reportText p hw).bytes) := by
  have h : (hw.pCache.map fun pd => some (sent pd)).reduceOption = hw.pCache.map sent := by
    change List.filterMap id _ = _
    simp [List.filterMap_map]
  rw [formatReport,wsFormatHardwareData_map p fun _ => rfl]
  simp only [Option.getD_some,h]
  rfl

theorem cstr_reportFrame (hw : Hardware) (rest : Bytes) :
    cstr (reportFrame p hw ++ 0 :: rest) = reportFrame p hw :=
  cstr_append_nul (zero_notMem_frame p _ _) rest

theorem strlen_reportFrame_le {hw : Hardware} (hfit : (reportFrame p hw).length < DBUF_LEN)
    (rest : Bytes) : strlen (reportFrame p hw ++ 0 :: rest) ≤ WS_TX_MAX_LEN := by
  have hle : DBUF_LEN = WS_TX_MAX_LEN := rfl
  rw [strlen,cstr_reportFrame]
  omega

theorem wsDataPackAndSend_eq (hw : Hardware) (dbuf m : Bytes) :
    wsDataPackAndSend p hw dbuf (some m) =
      if (reportFrame p hw).length < dbuf.length ∧ (reportFrame p hw).length < m.length then
        some (markSent hw,
          reportFrame p hw ++ 0 :: dbuf.drop ((reportFrame p hw).length + 1),
          some (reportFrame p hw ++ 0 :: m.drop ((reportFrame p hw).length + 1)))
      else none := by
  have hstr : CString.ofMem (reportText p hw).bytes = reportText p hw := CString.ofMem_self _
  simp only [wsDataPackAndSend,formatReport_eq,Option.bind_eq_bind,Option.bind_some,hstr,
    wsFormatUplinkData_eq p (reportText_ne_nil p hw)]
  change ((if (reportFrame p hw).length < dbuf.length then _ else none : Option (ℤ × Option Bytes)).bind _) = _
  by_cases hd : (reportFrame p hw).length < dbuf.length
  · simp only [hd,true_and]
    change (sprintfAt m 0 (cstr (reportFrame p hw ++ _))).bind _ = _
    rw [cstr_reportFrame]
    by_cases hm : (reportFrame p hw).length < m.length
    · rw [sprintfAt_zero hm,if_pos hm]
      rfl
    · have hnone : sprintfAt m 0 (reportFrame p hw) = none := by
        rw [← Option.not_isSome_iff_eq_none,sprintfAt_zero_isSome_iff]
        exact hm
      rw [hnone,if_neg hm,Option.bind_none]
  · rw [if_neg hd,if_neg (fun h => hd h.1),Option.bind_none]

/-- A string that fits the send buffer reaches `lws_write` unchanged. -/
theorem wsSendMsg_strlen (m : Bytes) :
    wsSendMsg m (strlen m) = if strlen m ≤ WS_TX_MAX_LEN then some (cstr m) else none := by
  have htake : m.take (strlen m) = cstr m :=
    List.prefix_iff_eq_take.mp (List.takeWhile_prefix _) |>.symm
  have hpoke := poke_append (List.replicate LWS_PRE 0) (List.replicate WS_TX_MAX_LEN 0) (cstr m)
  simp only [List.length_replicate,List.replicate_append_replicate] at hpoke
  rw [wsSendMsg,htake,hpoke]
  change (if strlen m ≤ WS_TX_MAX_LEN then _ else none : Option Bytes).bind _ = _
  by_cases h : strlen m ≤ WS_TX_MAX_LEN
  · rw [if_pos h,if_pos h,Option.bind_some]
    simp [strlen,LWS_PRE]
  · rw [if_neg h,if_neg h,Option.bind_none]

theorem wsSendMsg_eq_some {m msg : Bytes} (h : wsSendMsg m (strlen m) = some msg) : msg = cstr m := by
  rw [wsSendMsg_strlen] at h
  exact (Option.some.inj (Option.ite_none_right_eq_some.mp h).2).symm

/-- The report that a receiver reads from a message. -/
def readReport (msg : Bytes) : Option Doc := (readFrame msg).bind fun r => Doc.read p r.2

/-- A receiver gets the report of the object back from its frame. -/
theorem readReport_reportFrame (hw : Hardware) :
    readReport p (reportFrame p hw) = some (docOf p hw.hwInfo.kind hw.hwInfo hw.pCache) := by
  rw [readReport,reportFrame,readFrame_frame p (reportText_ne_nil p hw),Option.bind_some]
  exact (docOf p hw.hwInfo.kind hw.hwInfo hw.pCache).read_print p

end SrvWebsocket
end WddProc
