import WddProc.SrvWebsocket
import WddProc.Config

/-!
# The size of a frame

Every byte of the document costs the width of its number and a comma, and the
document is its fixed text and the escaped strings of the updated channels. The
writes of a pack step stay inside their buffers exactly up to a fixed cost.
-/

namespace WddProc
namespace FrameSize

open Hardware Report Uplink SrvWebsocket Config

variable (p : Platform)

/-- What a byte of the document takes in the frame: its number and a comma. -/
def byteCost (b : UInt8) : ℕ := (decimal (p.charInt b)).length + 1

def cost (m : Bytes) : ℕ := (m.map (byteCost p)).sum

@[simp] theorem cost_nil : cost p [] = 0 := rfl
@[simp] theorem cost_cons (b : UInt8) (m : Bytes) : cost p (b :: m) = byteCost p b + cost p m := by
  simp [cost]
@[simp] theorem cost_append (m m' : Bytes) : cost p (m ++ m') = cost p m + cost p m' := by
  simp [cost]

theorem cells_length (m : Bytes) : (cells p m).length = cost p m := by
  induction m with
  | nil => rfl
  | cons b m ih =>
    rw [cells_cons,List.length_append,ih,cost_cons,List.length_append]
    rfl

theorem byteCost_ascii {b : UInt8} (h : b < 128) : byteCost p b = (natText b.toNat).length + 1 := by
  have hchar : p.charInt b = b.toNat := if_neg fun h' => absurd h'.2 (UInt8.not_le.mpr h)
  have hpos : ¬ (b.toNat : ℤ) < 0 := by omega
  rw [byteCost,hchar,decimal,if_neg hpos,Int.natAbs_natCast]

theorem byteCost_punctuation : byteCost p 9 = 2 ∧ byteCost p 10 = 3 ∧ byteCost p 32 = 3 ∧
    byteCost p 34 = 3 ∧ byteCost p 44 = 3 ∧ byteCost p 58 = 3 ∧ byteCost p 91 = 3 ∧
    byteCost p 93 = 3 ∧ byteCost p 123 = 4 ∧ byteCost p 125 = 4 := by
  refine ⟨?_,?_,?_,?_,?_,?_,?_,?_,?_,?_⟩
  all_goals
    rw [byteCost_ascii p (by decide)]
    decide

theorem cost_ascii {m : Bytes} (h : ∀ b ∈ m, b < 128) :
    cost p m = (m.map fun b => (natText b.toNat).length + 1).sum := by
  induction m with
  | nil => rfl
  | cons b m ih =>
    rw [cost_cons,byteCost_ascii p (h b (by simp)),ih fun c hc => h c (by simp [hc])]
    rfl

def stringCost (s : CString) : ℕ := cost p (escape s.bytes)

def entryCost (e : Entry) : ℕ :=
  228 + stringCost p e.kks + stringCost p e.ref + stringCost p e.vtype + stringCost p e.val +
    stringCost p e.t

def docCost (d : Doc) : ℕ :=
  315 + stringCost p d.name + stringCost p d.id + stringCost p d.terminal + stringCost p d.mtype +
    stringCost p d.t + (d.params.map (entryCost p)).sum + 6 * (d.params.length - 1)

theorem stringCost_lit (s : String) (n : ℕ) (h : (escape (CString.lit s).bytes).all (· < 128))
    (hn : ((escape (CString.lit s).bytes).map fun b => (natText b.toNat).length + 1).sum = n) :
    stringCost p (CString.lit s) = n := (cost_ascii p (List.all_iff_forall_prop.mp h)).trans hn

theorem cost_tabs (depth : ℕ) : cost p (CJson.tabs true depth) = 2 * depth := by
  obtain ⟨h9,-⟩ := byteCost_punctuation p
  simp [CJson.tabs,cost,h9,Nat.mul_comm]

theorem cost_members_cons (depth : ℕ) {t : CJson} {n : CString} (hn : t.string = some n)
    (ts : List CJson) :
    cost p (CJson.printMembers p true depth (t :: ts)) =
      2 * depth + 14 + stringCost p n + cost p (CJson.printValue p true depth t) +
        (if ts.isEmpty then 0 else 3) + cost p (CJson.printMembers p true depth ts) := by
  obtain ⟨h9,h10,-,h34,h44,h58,-⟩ := byteCost_punctuation p
  have hcomma : cost p (if ts.isEmpty then [] else [44]) = if ts.isEmpty then 0 else 3 := by
    cases ts <;> simp [h44]
  simp only [CJson.printMembers,hn,printStringPtr,CJson.newline,if_true,cost_append,cost_cons,cost_nil,
    cost_tabs,hcomma,h9,h10,h34,h58,stringCost]
  omega

theorem cost_members_nil (depth : ℕ) : cost p (CJson.printMembers p true depth []) = 0 := rfl

theorem cost_member (depth : ℕ) (name : String) (s : CString) (ts : List CJson) :
    cost p (CJson.printMembers p true depth (member name s :: ts)) =
      2 * depth + 20 + stringCost p (CString.lit name) + stringCost p s +
        (if ts.isEmpty then 0 else 3) + cost p (CJson.printMembers p true depth ts) := by
  obtain ⟨-,-,-,h34,-⟩ := byteCost_punctuation p
  have hvalue : cost p (CJson.printValue p true depth (member name s)) = 6 + stringCost p s := by
    simp only [member,CJson.createString,CJson.named,CJson.printValue,printStringPtr,cost_append,
      cost_cons,cost_nil,h34,stringCost]
    omega
  rw [cost_members_cons p depth (n := CString.lit name) rfl,hvalue]
  omega

theorem cost_object (depth : ℕ) (name : Option CString) (t : CJson) (ts : List CJson) :
    cost p (CJson.printValue p true depth (object name (t :: ts))) =
      11 + 2 * depth + cost p (CJson.printMembers p true (depth + 1) (t :: ts)) := by
  obtain ⟨-,h10,-,-,-,-,-,-,h123,h125⟩ := byteCost_punctuation p
  simp only [object,CJson.printValue,List.isEmpty_cons,Bool.false_eq_true,if_false,cost_cons,cost_append,
    cost_nil,cost_tabs,CJson.newline,if_true,h10,h123,h125]
  omega

theorem cost_entry (e : Entry) : cost p (e.toJson.printValue p true 3) = entryCost p e := by
  have hkks := stringCost_lit p "kks" 12 (by decide) (by decide)
  have href := stringCost_lit p "ref" 12 (by decide) (by decide)
  have hvtype := stringCost_lit p "vtype" 20 (by decide) (by decide)
  have hval := stringCost_lit p "val" 11 (by decide) (by decide)
  have ht := stringCost_lit p "t" 4 (by decide) (by decide)
  simp only [Entry.toJson,cost_object,cost_member,cost_members_nil,hkks,href,hvtype,hval,ht,
    List.isEmpty_cons,List.isEmpty_nil,Bool.false_eq_true,if_true,if_false,entryCost]
  omega

theorem cost_entries (es : List Entry) :
    cost p (CJson.printItems p true 3 (es.map Entry.toJson)) =
      (es.map (entryCost p)).sum + 6 * (es.length - 1) := by
  obtain ⟨-,-,h32,-,h44,-⟩ := byteCost_punctuation p
  induction es with
  | nil => rfl
  | cons e es ih =>
    simp only [List.map_cons,CJson.printItems,cost_append,cost_entry,ih,List.sum_cons]
    cases es with
    | nil => simp
    | cons e' es =>
      simp [h32,h44]
      omega

theorem cost_doc (d : Doc) : cost p (d.toJson.print p) = docCost p d := by
  obtain ⟨-,-,-,-,-,-,h91,h93,-⟩ := byteCost_punctuation p
  have hjson := stringCost_lit p "json" 16 (by decide) (by decide)
  have hname := stringCost_lit p "name" 15 (by decide) (by decide)
  have hid := stringCost_lit p "id" 8 (by decide) (by decide)
  have hterminal := stringCost_lit p "terminal" 31 (by decide) (by decide)
  have hmtype := stringCost_lit p "mtype" 20 (by decide) (by decide)
  have ht := stringCost_lit p "t" 4 (by decide) (by decide)
  have hparams := stringCost_lit p "params" 22 (by decide) (by decide)
  have harray : cost p (CJson.printValue p true 2
      (.mk .array none 0 0 (some (CString.lit "params")) (d.params.map Entry.toJson))) =
      6 + (d.params.map (entryCost p)).sum + 6 * (d.params.length - 1) := by
    simp only [CJson.printValue,cost_cons,cost_append,cost_nil,Nat.reduceAdd,cost_entries,h91,h93]
    omega
  rw [CJson.print,Doc.toJson,cost_object,cost_members_cons p _ (n := CString.lit "json") rfl,cost_object]
  simp only [cost_member]
  rw [cost_members_cons p _ (n := CString.lit "params") rfl,harray]
  simp only [cost_members_nil,hjson,hname,hid,hterminal,hmtype,ht,hparams,List.isEmpty_cons,
    List.isEmpty_nil,Bool.false_eq_true,if_true,if_false,docCost]
  ring

theorem byteCost_ge (b : UInt8) : 2 ≤ byteCost p b := by
  have hpos := List.length_pos_of_ne_nil (natText_ne_nil (p.charInt b).natAbs)
  unfold byteCost decimal
  split
  · rw [List.length_cons]
    omega
  · omega

theorem byteCost_le (b : UInt8) : byteCost p b ≤ 5 := by
  have hb := b.toNat_lt
  have habs : (p.charInt b).natAbs < 10^3 := by
    unfold Platform.charInt
    split <;> omega
  have hlen := (natText_length_le_iff (k := 3) (by decide)).mpr habs
  unfold byteCost decimal
  split
  · rw [List.length_cons]
    omega
  · omega

theorem length_le_cost (m : Bytes) : 2 * m.length ≤ cost p m := by
  induction m with
  | nil => exact le_refl _
  | cons b m ih =>
    have hb := byteCost_ge p b
    rw [cost_cons,List.length_cons]
    omega

theorem escapeByte_length_le (b : UInt8) : (escapeByte b).length ≤ 6 := by
  unfold escapeByte
  split_ifs <;> simp

theorem stringCost_le (s : CString) : stringCost p s ≤ 30 * s.length := by
  have hcost (m : Bytes) : cost p m ≤ 5 * m.length := by
    induction m with
    | nil => exact le_refl _
    | cons b m ih =>
      have hb := byteCost_le p b
      rw [cost_cons,List.length_cons]
      omega
  have hescape (m : Bytes) : (escape m).length ≤ 6 * m.length := by
    induction m with
    | nil => exact le_refl _
    | cons b m ih =>
      have hb := escapeByte_length_le b
      rw [escape] at ih ⊢
      rw [List.flatMap_cons,List.length_append,List.length_cons]
      omega
  have h := hcost (escape s.bytes)
  have h' := hescape s.bytes
  rw [stringCost,CString.length]
  omega

theorem ofMem_length_le (m : Bytes) : (CString.ofMem m).length ≤ m.length :=
  (List.takeWhile_prefix _).length_le

theorem words_length (t : HwDevType) : (words t).1.length ≤ 12 ∧ (words t).2.length ≤ 12 := by
  cases t <;> decide

theorem entryCost_le (kind : HwDevKind) (pd : HwCache) : entryCost p (entryOf p kind pd) ≤ 16500 := by
  have hkks : pd.kksStr.length ≤ 260 := (ofMem_length_le _).trans
    (by simp only [List.length_append,pd.kks.2,pd.zone.2,pd.ref.2,le32_length]; omega)
  have href : pd.refStr.length ≤ 132 := (ofMem_length_le _).trans
    (by simp only [List.length_append,pd.ref.2,le32_length]; omega)
  have ht : pd.paramTimeStr.length ≤ 64 := (ofMem_length_le _).trans (le_of_eq pd.paramTime.2)
  obtain ⟨hname,hunit⟩ := words_length pd.valType
  have hval : (entryOf p kind pd).val.length ≤ 55 := by
    have hprint := p.printf1f_length (shown p kind pd)
    have hdash : (CString.lit "-").bytes.length = 1 := by decide
    rw [entryOf]
    simp only [CString.length,CString.append_bytes,List.length_append] at hprint hunit ⊢
    omega
  have h₁ := stringCost_le p pd.kksStr
  have h₂ := stringCost_le p pd.refStr
  have h₃ := stringCost_le p (words pd.valType).1
  have h₄ := stringCost_le p (entryOf p kind pd).val
  have h₅ := stringCost_le p pd.paramTimeStr
  change 228 + stringCost p pd.kksStr + stringCost p pd.refStr + stringCost p (words pd.valType).1 +
    stringCost p (entryOf p kind pd).val + stringCost p pd.paramTimeStr ≤ 16500
  omega

/-- The document on a `uint16_t` of channels. -/
theorem docOf_length_le (kind : HwDevKind) (hwd : HwInfo) {ps : List HwCache} (hps : ps.length < 2^16) :
    ((docOf p kind hwd ps).toJson.print p).length ≤ 10^9 := by
  have hname : hwd.nameStr.length ≤ 228 := (ofMem_length_le _).trans
    (by simp only [List.length_append,hwd.name.2,hwd.id.2,hwd.terminal.2,hwd.time.2,le32_length]; omega)
  have hid : hwd.idStr.length ≤ 164 := (ofMem_length_le _).trans
    (by simp only [List.length_append,hwd.id.2,hwd.terminal.2,hwd.time.2,le32_length]; omega)
  have hkind : hwd.kindStr.length ≤ 300 := (ofMem_length_le _).trans (by
    simp only [List.length_append,List.length_cons,hwd.kindName.2,hwd.model.2,hwd.name.2,hwd.id.2,
      hwd.terminal.2,hwd.time.2,le32_length]
    omega)
  have htime : hwd.timeStr.length ≤ 68 := (ofMem_length_le _).trans
    (by simp only [List.length_append,hwd.time.2,le32_length]; omega)
  have hmtype : (CString.lit "MSGE").length = 4 := by decide
  have h₁ := stringCost_le p hwd.nameStr
  have h₂ := stringCost_le p hwd.idStr
  have h₃ := stringCost_le p hwd.kindStr
  have h₄ := stringCost_le p hwd.timeStr
  have h₅ := stringCost_le p (CString.lit "MSGE")
  have hfilter : (ps.filter pending).length ≤ ps.length := List.length_filter_le _ _
  have hentries : (((docOf p kind hwd ps).params).map (entryCost p)).sum ≤
      (ps.filter pending).length * 16500 := by
    have h := List.sum_le_card_nsmul (((docOf p kind hwd ps).params).map (entryCost p)) 16500 (by
      rintro c hc
      obtain ⟨e,he,rfl⟩ := List.mem_map.mp hc
      obtain ⟨pd,-,rfl⟩ := List.mem_map.mp he
      exact entryCost_le p kind pd)
    simpa [docOf] using h
  have hparams : (docOf p kind hwd ps).params.length = (ps.filter pending).length := by simp [docOf]
  have hcost := cost_doc p (docOf p kind hwd ps)
  have hlength := length_le_cost p ((docOf p kind hwd ps).toJson.print p)
  rw [hcost,docCost,hparams] at hlength
  change 2 * _ ≤ 315 + stringCost p hwd.nameStr + stringCost p hwd.idStr + stringCost p hwd.kindStr +
    stringCost p (CString.lit "MSGE") + stringCost p hwd.timeStr + _ + _ at hlength
  omega

def channelCost (kind : HwDevKind) (pd : HwCache) : ℕ :=
  228 + stringCost p pd.kksStr + stringCost p pd.refStr + stringCost p (getHwNameByType pd.valType) +
    stringCost p (p.getValStrUnit pd (p.getVal kind pd)) + stringCost p pd.paramTimeStr

/-- The cost of a report: its fixed text, the device, every updated channel, and the
separators between them. -/
def reportCost (hw : Hardware) : ℕ :=
  327 + stringCost p hw.hwInfo.nameStr + stringCost p hw.hwInfo.idStr + stringCost p hw.hwInfo.kindStr +
    stringCost p hw.hwInfo.timeStr +
    ((hw.pCache.filter pending).map (channelCost p hw.hwInfo.kind)).sum +
    6 * ((hw.pCache.filter pending).length - 1)

theorem cost_reportText (hw : Hardware) : cost p (reportText p hw).bytes = reportCost p hw := by
  have hmsge := stringCost_lit p "MSGE" 12 (by decide) (by decide)
  have hentries : (((hw.pCache.filter pending).map (entryOf p hw.hwInfo.kind)).map (entryCost p)).sum =
      ((hw.pCache.filter pending).map (channelCost p hw.hwInfo.kind)).sum := by
    rw [List.map_map]
    refine congrArg List.sum (List.map_congr_left fun pd _ => ?_)
    rw [channelCost,getValStrUnit_eq,getHwNameByType_eq]
    rfl
  rw [reportText,cost_doc]
  simp only [docCost,docOf,hmsge,hentries,List.length_map,reportCost]
  omega

theorem reportFrame_length (hw : Hardware) : (reportFrame p hw).length = 39 + reportCost p hw := by
  have hhead : (frameHead CMD_MES_PARAM).length = 38 := by decide
  have hend : (utf8 "]\x7d").length = 2 := by decide
  have hcells := congrArg List.length (cells_eq p (reportText_ne_nil p hw))
  rw [cells_length,cost_reportText,List.length_append,List.length_singleton] at hcells
  rw [reportFrame,frame_eq,List.length_append,List.length_append,hhead,hend,hcells,dataInts]
  omega

/-- One pack step with the buffers of the program, and the message it leads to. -/
def packAndSend (hw : Hardware) (dbuf : CharArray DBUF_LEN) (pUser : CharArray (LWS_PRE + WS_TX_MAX_LEN)) :
    Option Bytes := do
  let (_,_,m) ← wsDataPackAndSend p hw dbuf.1 (some pUser.1)
  let m ← m
  wsSendMsg m (strlen m)

theorem bind_ite {α β : Type} {c : Prop} [Decidable c] (x : α) (f : α → Option β) :
    (if c then some x else none).bind f = if c then f x else none := by
  split <;> rfl

theorem packAndSend_eq (hw : Hardware) (dbuf : CharArray DBUF_LEN)
    (pUser : CharArray (LWS_PRE + WS_TX_MAX_LEN)) :
    packAndSend p hw dbuf pUser =
      if (reportFrame p hw).length < DBUF_LEN ∧ (reportFrame p hw).length < LWS_PRE + WS_TX_MAX_LEN then
        let m := reportFrame p hw ++ 0 :: pUser.1.drop ((reportFrame p hw).length + 1)
        wsSendMsg m (strlen m)
      else none := by
  have h : packAndSend p hw dbuf pUser =
      (wsDataPackAndSend p hw dbuf.1 (some pUser.1)).bind fun r =>
        r.2.2.bind fun m => wsSendMsg m (strlen m) := rfl
  rw [h,wsDataPackAndSend_eq,bind_ite,Option.bind_some,dbuf.2,pUser.2]

theorem packAndSend_isSome_iff (hw : Hardware) (dbuf : CharArray DBUF_LEN)
    (pUser : CharArray (LWS_PRE + WS_TX_MAX_LEN)) :
    (packAndSend p hw dbuf pUser).isSome ↔ (reportFrame p hw).length < DBUF_LEN := by
  have hle : DBUF_LEN = WS_TX_MAX_LEN := rfl
  have hstrlen : strlen (reportFrame p hw ++ 0 :: pUser.1.drop ((reportFrame p hw).length + 1)) =
      (reportFrame p hw).length := by rw [strlen,cstr_reportFrame]
  rw [packAndSend_eq]
  by_cases h : (reportFrame p hw).length < DBUF_LEN
  · rw [if_pos ⟨h,by omega⟩,wsSendMsg_strlen,hstrlen,if_pos (by omega)]
    simp [h]
  · rw [if_neg (fun h' => h h'.1)]
    simp [h]

/-- No write of a pack step or of sending leaves its buffer exactly when the report
costs at most 102360. -/
theorem frame_fits_iff (hw : Hardware) (dbuf : CharArray DBUF_LEN)
    (pUser : CharArray (LWS_PRE + WS_TX_MAX_LEN)) :
    (packAndSend p hw dbuf pUser).isSome ↔ reportCost p hw ≤ 102360 := by
  rw [packAndSend_isSome_iff,reportFrame_length]
  simp only [DBUF_LEN]
  omega

def aseDevice : RtuInfo := RtuInfo.device (CString.lit "ASE:DA_IO_01") 1000

/-- A sensor with 1000 channels overruns the buffers with its first report. -/
theorem frame_overruns : Booted (hwInfoInit aseDevice .zero) ∧
    ¬ (packAndSend .sample (hwInfoInit aseDevice .zero) (CharArray.zero _) (CharArray.zero _)).isSome := by
  refine ⟨Booted.init aseDevice .zero,?_⟩
  set hw := hwInfoInit aseDevice .zero with hhw
  have hkind : (hwKindInit aseDevice .zero).kind = .ase := by decide
  have hall : hw.pCache.filter pending = hw.pCache := by
    apply List.filter_eq_self.mpr
    intro pd hpd
    simpa [pending] using (Booted.init aseDevice .zero).status hpd
  have hlen : hw.pCache.length = 1000 := by
    rw [← nChNum,hhw,hwInfoInit_nChNum,hkind]
    rfl
  have hsum := List.card_nsmul_le_sum (hw.pCache.map (channelCost .sample hw.hwInfo.kind)) 228 (by
    intro c hc
    obtain ⟨pd,-,rfl⟩ := List.mem_map.mp hc
    simp only [channelCost]
    omega)
  rw [List.length_map,hlen,smul_eq_mul] at hsum
  rw [packAndSend_isSome_iff,reportFrame_length,reportCost,hall,DBUF_LEN]
  omega

end FrameSize
end WddProc
