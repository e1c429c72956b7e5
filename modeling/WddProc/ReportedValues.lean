import WddProc.MainLoop

/-!
# Whether reported values were measured

The status of a zeroed cache is `HW_DATA_UPTARE`, so the first document reports every
channel, and one that has only been read as 0 since the start is reported unmeasured.
-/

namespace WddProc
namespace ReportedValues

open Hardware Report SrvWebsocket Config Measurement MainLoop

variable (p : Platform)

/-- The monitor of round `j` stores channel `i`, with this value and this time. -/
def StoredAt (hw : Hardware) (rounds : ℕ → Round) (j i : ℕ) (val : F32) (time : CString) : Prop :=
  i ∈ stored (rounds j).hb (objectAt p hw rounds j) ∧
    (monitoredAt p hw rounds j).pCache[i]?.map HwCache.val = some val ∧
    time = ((rounds j).hb.stamp i).text

/-- Channel `i` has never been stored up to round `k`. -/
def Untouched (hw : Hardware) (rounds : ℕ → Round) (k i : ℕ) : Prop :=
  ∀ j ≤ k, i ∉ stored (rounds j).hb (objectAt p hw rounds j)

/-- An entry on channel `i` in round `k` with the value and the time of one store. -/
def MeasuredEntry (hw : Hardware) (rounds : ℕ → Round) (k i : ℕ) (e : Entry) : Prop :=
  ∃ pd, (monitoredAt p hw rounds k).pCache[i]? = some pd ∧
    e = entryOf p (monitoredAt p hw rounds k).hwInfo.kind pd ∧
    e.t.bytes ≠ [] ∧ ∃ j ≤ k, StoredAt p hw rounds j i pd.val e.t

/-- Every element of the document of round `k` was measured. -/
def ReportsMeasured (hw : Hardware) (rounds : ℕ → Round) (k : ℕ) : Prop :=
  ∀ text, documentAt p hw rounds k = some text →
    ∃ (d : Doc) (channels : List ℕ), text = d.toJson.print p ∧ channels.Pairwise (· < ·) ∧
      List.Forall₂ (MeasuredEntry p hw rounds k) channels d.params

/-- Up to each round that may report, every channel has been read as something else than 0. -/
def ReadBeforeReport (hw : Hardware) (rounds : ℕ → Round) : Prop :=
  ∀ k, (rounds k).pUser = true → ∀ (i : ℕ) (pd : HwCache), hw.pCache[i]? = some pd →
    ∃ j ≤ k, F32.feq F32.zero (reading (rounds j).hb hw.hwInfo.kind pd) = false

@[simp] theorem sent_val (pd : HwCache) : (sent pd).val = pd.val := by
  unfold sent
  split <;> rfl

@[simp] theorem sent_paramTime (pd : HwCache) : (sent pd).paramTime = pd.paramTime := by
  unfold sent
  split <;> rfl

theorem wiring_markSent (hw : Hardware) : wiring (markSent hw) = wiring hw := by
  have hsent (pd : HwCache) : ((sent pd).gpio.io,(sent pd).valType) = (pd.gpio.io,pd.valType) := by
    unfold sent
    split <;> rfl
  simp only [wiring,markSent,List.map_map]
  exact List.map_congr_left fun pd _ => hsent pd

theorem objectAt_wiring (hw : Hardware) (rounds : ℕ → Round) (k : ℕ) :
    wiring (objectAt p hw rounds k) = wiring hw := by
  induction k with
  | zero => rfl
  | succ k ih =>
    rw [objectAt,loopRound_eq]
    split
    · rw [wiring_markSent,hwHeartbeat_wiring,ih]
    · rw [hwHeartbeat_wiring,ih]

theorem reading_congr {pd pd' : HwCache} (hio : pd.gpio.io = pd'.gpio.io)
    (ht : pd.valType = pd'.valType) (hb : Heartbeat) (kind : HwDevKind) :
    reading hb kind pd = reading hb kind pd' := by
  rw [reading,reading,hio,ht]

theorem objectAt_reading (hw : Hardware) (rounds : ℕ → Round) {k i : ℕ} {pd pd₀ : HwCache}
    (hpd : (objectAt p hw rounds k).pCache[i]? = some pd) (hpd₀ : hw.pCache[i]? = some pd₀)
    (hb : Heartbeat) :
    reading hb (objectAt p hw rounds k).hwInfo.kind pd = reading hb hw.hwInfo.kind pd₀ := by
  have hw' := congrArg (·[i]?) (objectAt_wiring p hw rounds k)
  simp only [wiring,List.getElem?_map,hpd,hpd₀,Option.map_some,Option.some.injEq,Prod.mk.injEq] at hw'
  rw [(objectAt_fixed p hw rounds k).1]
  exact reading_congr hw'.1 hw'.2 hb _

theorem objectAt_succ_get? (hw : Hardware) (rounds : ℕ → Round) (k i : ℕ) :
    ((objectAt p hw rounds (k + 1)).pCache[i]?.map fun pd => (pd.val,pd.paramTime)) =
      (monitoredAt p hw rounds k).pCache[i]?.map fun pd => (pd.val,pd.paramTime) := by
  rw [objectAt,loopRound_eq]
  split
  · simp [markSent,monitoredAt,Function.comp_def]
  · rfl

theorem monitoredAt_cases (hw : Hardware) (rounds : ℕ → Round) {k i : ℕ} {pd : HwCache}
    (hpd : (monitoredAt p hw rounds k).pCache[i]? = some pd) :
    i ∈ stored (rounds k).hb (objectAt p hw rounds k) ∧
      cstr pd.paramTime.1 = ((rounds k).hb.stamp i).text.bytes ∨
    i ∉ stored (rounds k).hb (objectAt p hw rounds k) ∧
      (objectAt p hw rounds k).pCache[i]? = some pd := by
  rw [monitoredAt,hwHeartbeat,hwParamMonitor_get?] at hpd
  obtain ⟨pd₀,hpd₀,rfl⟩ := Option.map_eq_some_iff.mp hpd
  rcases storeVal_cases (rounds k).hb i pd₀ (reading (rounds k).hb (objectAt p hw rounds k).hwInfo.kind pd₀)
    with ⟨he,hst⟩ | ⟨he,-,-,htime⟩
  · refine Or.inr ⟨?_,by rw [hst]; exact hpd₀⟩
    rintro ⟨pd',hpd',he'⟩
    rw [hpd₀,Option.some.injEq] at hpd'
    rw [← hpd',he] at he'
    cases he'
  · refine Or.inl ⟨⟨pd₀,hpd₀,he⟩,?_⟩
    rw [htime]
    exact CharArray.cstr_sprintfInto _ _ _

/-- In every round a channel has the value and the time of its last store, or it is as
`calloc` left it. -/
theorem monitoredAt_history {hw : Hardware} (hboot : Booted hw) (rounds : ℕ → Round) (i k : ℕ)
    {pd : HwCache} (hpd : (monitoredAt p hw rounds k).pCache[i]? = some pd) :
    (∃ j ≤ k, StoredAt p hw rounds j i pd.val pd.paramTimeStr) ∨
    Untouched p hw rounds k i ∧ pd.val = F32.zero ∧ pd.paramTime = CharArray.zero 64 := by
  induction k generalizing pd with
  | zero =>
    rcases monitoredAt_cases p hw rounds hpd with ⟨hst,htime⟩ | ⟨hst,hobj⟩
    · exact Or.inl ⟨0,Nat.le_refl 0,hst,by rw [hpd,Option.map_some],CString.ext htime⟩
    · have hzero := hboot.measured (List.mem_of_getElem? hobj)
      refine Or.inr ⟨fun j hj => ?_,hzero.1,hzero.2.1⟩
      obtain rfl : j = 0 := Nat.le_zero.mp hj
      exact hst
  | succ k ih =>
    rcases monitoredAt_cases p hw rounds hpd with ⟨hst,htime⟩ | ⟨hst,hobj⟩
    · exact Or.inl ⟨k + 1,Nat.le_refl _,hst,by rw [hpd,Option.map_some],CString.ext htime⟩
    · -- not stored in this round, so the channel is as it was after the monitor before
      have hsame := objectAt_succ_get? p hw rounds k i
      rw [hobj,Option.map_some] at hsame
      obtain ⟨pd',hpd',heq⟩ := Option.map_eq_some_iff.mp hsame.symm
      have hval : pd'.val = pd.val := congrArg Prod.fst heq
      have htime : pd'.paramTime = pd.paramTime := congrArg Prod.snd heq
      rcases ih hpd' with ⟨j,hj,hstore⟩ | ⟨hun,hzero,hempty⟩
      · refine Or.inl ⟨j,Nat.le_succ_of_le hj,?_⟩
        rw [← hval,HwCache.paramTimeStr,← htime]
        exact hstore
      · refine Or.inr ⟨fun j hj => ?_,hval ▸ hzero,htime ▸ hempty⟩
        rcases Nat.le_succ_iff.mp hj with hj | rfl
        · exact hun j hj
        · exact hst

theorem objectAt_get?_isSome {hw : Hardware} (rounds : ℕ → Round) {k i : ℕ} (hi : i < hw.nChNum) :
    ∃ pd, (objectAt p hw rounds k).pCache[i]? = some pd := by
  have hn := (objectAt_fixed p hw rounds k).2
  exact ⟨_,List.getElem?_eq_getElem (show i < (objectAt p hw rounds k).pCache.length by
    rw [← nChNum,hn]
    exact hi)⟩

theorem objectAt_zero {hw : Hardware} (hboot : Booted hw) (rounds : ℕ → Round) {i k : ℕ} {pd : HwCache}
    (hpd : (objectAt p hw rounds k).pCache[i]? = some pd)
    (hun : ∀ j < k, i ∉ stored (rounds j).hb (objectAt p hw rounds j)) : pd.val = F32.zero := by
  cases k with
  | zero => exact (hboot.measured (List.mem_of_getElem? hpd)).1
  | succ k =>
    have hsame := objectAt_succ_get? p hw rounds k i
    rw [hpd,Option.map_some] at hsame
    obtain ⟨pd',hpd',heq⟩ := Option.map_eq_some_iff.mp hsame.symm
    have hval : pd'.val = pd.val := congrArg Prod.fst heq
    rw [← hval]
    rcases monitoredAt_history p hboot rounds i k hpd' with ⟨j,hj,hst,-⟩ | ⟨-,hzero,-⟩
    · exact absurd hst (hun j (Nat.lt_succ_of_le hj))
    · exact hzero

/-- A channel has been stored by round `k` exactly when it has been read as something else
than 0 by then. -/
theorem stored_by_iff {hw : Hardware} (hboot : Booted hw) (rounds : ℕ → Round) {i k : ℕ} {pd₀ : HwCache}
    (hpd₀ : hw.pCache[i]? = some pd₀) :
    (∃ j ≤ k, i ∈ stored (rounds j).hb (objectAt p hw rounds j)) ↔
      ∃ j ≤ k, F32.feq F32.zero (reading (rounds j).hb hw.hwInfo.kind pd₀) = false := by
  classical
  have hi : i < hw.nChNum := (List.getElem?_eq_some_iff.mp hpd₀).1
  -- in the first round with either, the channel still holds 0
  have hfirst (j : ℕ) (hun : ∀ l < j, i ∉ stored (rounds l).hb (objectAt p hw rounds l)) :
      i ∈ stored (rounds j).hb (objectAt p hw rounds j) ↔
        F32.feq F32.zero (reading (rounds j).hb hw.hwInfo.kind pd₀) = false := by
    obtain ⟨pd,hpd⟩ := objectAt_get?_isSome p rounds (k := j) hi
    have hzero := objectAt_zero p hboot rounds hpd hun
    rw [← objectAt_reading p hw rounds hpd hpd₀,← hzero]
    constructor
    · rintro ⟨pd',hpd',he⟩
      rw [hpd,Option.some.injEq] at hpd'
      rw [hpd']
      exact he
    · intro he
      exact ⟨pd,hpd,he⟩
  constructor
  · rintro ⟨j,hj,hst⟩
    have hex : ∃ j, i ∈ stored (rounds j).hb (objectAt p hw rounds j) := ⟨j,hst⟩
    refine ⟨Nat.find hex,(Nat.find_min' hex hst).trans hj,?_⟩
    exact (hfirst _ fun l hl => Nat.find_min hex hl).mp (Nat.find_spec hex)
  · rintro ⟨j,hj,hread⟩
    by_contra hno
    push Not at hno
    exact hno j hj ((hfirst j fun l hl => hno l (hl.le.trans hj)).mpr hread)

theorem paramTimeStr_zero {pd : HwCache} (h : pd.paramTime = CharArray.zero 64) :
    pd.paramTimeStr.bytes = [] := by
  rw [HwCache.paramTimeStr,h]
  rfl

theorem text_ne_nil (t : SysTime) : t.text.bytes ≠ [] := by
  simp [SysTime.text]

theorem measuredEntry_of_stored {hw : Hardware} (hboot : Booted hw) (rounds : ℕ → Round) {i k : ℕ}
    {pd : HwCache} (hpd : (monitoredAt p hw rounds k).pCache[i]? = some pd)
    (hst : ∃ j ≤ k, i ∈ stored (rounds j).hb (objectAt p hw rounds j)) :
    MeasuredEntry p hw rounds k i (entryOf p (monitoredAt p hw rounds k).hwInfo.kind pd) := by
  rcases monitoredAt_history p hboot rounds i k hpd with ⟨j,hj,hstore⟩ | ⟨hun,-⟩
  · refine ⟨pd,hpd,rfl,?_,j,hj,hstore⟩
    change pd.paramTimeStr.bytes ≠ []
    rw [hstore.2.2]
    exact text_ne_nil _
  · obtain ⟨j,hj,hj'⟩ := hst
    exact absurd hj' (hun j hj)

theorem documentAt_params {hw : Hardware} {rounds : ℕ → Round} {k : ℕ} {text : Bytes}
    (h : documentAt p hw rounds k = some text) :
    (rounds k).pUser = true ∧ text = (docOf p (monitoredAt p hw rounds k).hwInfo.kind
      (monitoredAt p hw rounds k).hwInfo (monitoredAt p hw rounds k).pCache).toJson.print p := by
  rw [documentAt_eq] at h
  split at h
  · rename_i hc
    exact ⟨hc.1,(Option.some.inj h).symm⟩
  · cases h

theorem toJson_print_inj {d d' : Doc} (h : d.toJson.print p = d'.toJson.print p) : d = d' := by
  have hd := d.read_print p
  rw [h,d'.read_print p] at hd
  exact (Option.some.inj hd).symm

theorem reportsMeasured_of_read {hw : Hardware} (hboot : Booted hw) {rounds : ℕ → Round}
    (hread : ReadBeforeReport hw rounds) (k : ℕ) : ReportsMeasured p hw rounds k := by
  intro text htext
  obtain ⟨huser,rfl⟩ := documentAt_params p htext
  refine ⟨_,(monitoredAt p hw rounds k).pCache.findIdxs pending,rfl,List.pairwise_findIdxs,?_⟩
  refine (forall₂_findIdxs pending _ _).imp ?_
  rintro i e ⟨pd,hpd,rfl⟩
  have hi : i < hw.nChNum := by
    have hlt := (List.getElem?_eq_some_iff.mp hpd).1
    rw [← nChNum,monitoredAt,hwHeartbeat,hwParamMonitor_nChNum,(objectAt_fixed p hw rounds k).2] at hlt
    exact hlt
  have hpd₀ : hw.pCache[i]? = some hw.pCache[i] := List.getElem?_eq_getElem hi
  exact measuredEntry_of_stored p hboot rounds hpd
    ((stored_by_iff p hboot rounds hpd₀).mpr (hread k huser i _ hpd₀))

/-- The first round that may report finds every channel pending. -/
theorem pending_first {hw : Hardware} (hboot : Booted hw) {rounds : ℕ → Round} {k : ℕ}
    (hnone : ∀ l < k, (rounds l).pUser = false) {pd : HwCache}
    (hpd : pd ∈ (monitoredAt p hw rounds k).pCache) : pd.status = .uptare := by
  have hquiet : (marking p hw rounds).Quiet 0 k := by
    intro l _ hl hflush
    change (documentAt p hw rounds l).isSome = true at hflush
    rw [documentAt_eq,if_neg (by simp [hnone l hl])] at hflush
    cases hflush
  obtain ⟨i,hi,rfl⟩ := List.mem_iff_getElem.mp hpd
  have hn : i < hw.nChNum := by
    rw [← nChNum,monitoredAt,hwHeartbeat,hwParamMonitor_nChNum,(objectAt_fixed p hw rounds k).2] at hi
    exact hi
  have hmark : i ∈ (marking p hw rounds).marked k := by
    refine ((marking p hw rounds).mem_marked_iff k i).mpr (Or.inl ⟨?_,hquiet⟩)
    change i ∈ marks hw
    rw [marks_booted hboot]
    exact hn
  obtain ⟨pd',hpd',hst⟩ := hmark
  change (monitoredAt p hw rounds k).pCache[i]? = some pd' at hpd'
  rw [List.getElem?_eq_getElem hi,Option.some.injEq] at hpd'
  rw [hpd']
  exact hst

theorem read_of_reportsMeasured {hw : Hardware} (hboot : Booted hw) {rounds : ℕ → Round}
    (hall : ∀ k, ReportsMeasured p hw rounds k) : ReadBeforeReport hw rounds := by
  classical
  intro k huser i pd₀ hpd₀
  have hex : ∃ l, (rounds l).pUser = true := ⟨k,huser⟩
  let k₀ := Nat.find hex
  have hk₀ : (rounds k₀).pUser = true := Nat.find_spec hex
  have hpending {pd : HwCache} (hpd : pd ∈ (monitoredAt p hw rounds k₀).pCache) : pd.status = .uptare :=
    pending_first p hboot (fun l hl => by simpa using Nat.find_min hex hl) hpd
  have hi : i < hw.nChNum := (List.getElem?_eq_some_iff.mp hpd₀).1
  obtain ⟨pd,hpd⟩ : ∃ pd, (monitoredAt p hw rounds k₀).pCache[i]? = some pd := by
    obtain ⟨pd,hpd⟩ := objectAt_get?_isSome p rounds (k := k₀) hi
    exact ⟨_,by rw [monitoredAt,hwHeartbeat,hwParamMonitor_get?,hpd,Option.map_some]⟩
  have hmem := List.mem_of_getElem? hpd
  have hdoc : documentAt p hw rounds k₀ = some (reportText p (monitoredAt p hw rounds k₀)).bytes := by
    rw [documentAt_eq,if_pos ⟨hk₀,pd,hmem,hpending hmem⟩]
  obtain ⟨d,channels,htext,-,hparams⟩ := hall k₀ _ hdoc
  obtain rfl := toJson_print_inj p htext
  have hentry : entryOf p (monitoredAt p hw rounds k₀).hwInfo.kind pd ∈
      (docOf p (monitoredAt p hw rounds k₀).hwInfo.kind (monitoredAt p hw rounds k₀).hwInfo
        (monitoredAt p hw rounds k₀).pCache).params :=
    List.mem_map.mpr ⟨pd,List.mem_filter.mpr ⟨hmem,by simp [pending,hpending hmem]⟩,rfl⟩
  obtain ⟨n,hn,hget⟩ := List.mem_iff_getElem.mp hentry
  have hmeasured := hparams.get (hparams.length_eq ▸ hn) hn
  obtain ⟨-,-,-,htime,-⟩ := hmeasured
  rw [List.get_eq_getElem,hget] at htime
  -- a channel that was never stored has an empty time
  rcases monitoredAt_history p hboot rounds i k₀ hpd with ⟨j,hj,hst,-⟩ | ⟨-,-,hempty⟩
  · obtain ⟨j',hj',hread⟩ := (stored_by_iff p hboot rounds hpd₀).mp ⟨j,hj,hst⟩
    exact ⟨j',hj'.trans (Nat.find_min' hex huser),hread⟩
  · exact absurd (paramTimeStr_zero hempty) htime

/-- In a run of the loop every reported value was measured exactly when, before the first
document, every channel has been read as something else than 0. -/
theorem reports_measured_iff {hw : Hardware} (hboot : Booted hw) (rounds : ℕ → Round) :
    (∀ k, ReportsMeasured p hw rounds k) ↔ ReadBeforeReport hw rounds :=
  ⟨read_of_reportsMeasured p hboot,fun hread k => reportsMeasured_of_read p hboot hread k⟩

theorem reports_measured_port_one :
    ∃ hw, cJSONParseMainInfo (oneParam "port" (.createNumber 1 0)) (hwInfoInit curDevice .zero) = some hw ∧
      hw.nChNum = 1 ∧ ∀ k, ReportsMeasured .sample hw lateRounds k := by
  obtain ⟨hw,hw',hn,hkind⟩ := port_one_loads
  refine ⟨hw,hw',hn,(reports_measured_iff .sample (Booted.configured hw') lateRounds).mpr ?_⟩
  intro k _ i pd hpd
  refine ⟨0,Nat.zero_le k,?_⟩
  have hread : reading (lateRounds 0).hb hw.hwInfo.kind pd = F32.negOne := reading_badHeartbeat _ pd
  rw [hread]
  decide

/-- Rounds in which everything reads as 0 and `p_user` is there. -/
def zeroRounds (_ : ℕ) : Round where
  hb :=
    { badHeartbeat with
      real := ⟨⟨.zero,.zero,.zero,.zero,.zero,.zero,.zero⟩,fun _ => .zero,fun _ => .zero,fun _ => .zero⟩
      rdata := .zero }
  pUser := true

/-- A current channel that reads 0 from the start is reported with an empty time. -/
theorem zero_reported_unmeasured :
    ∃ hw, cJSONParseMainInfo (oneParam "port" (.createNumber 1 0)) (hwInfoInit curDevice .zero) = some hw ∧
      hw.nChNum = 1 ∧ ¬ ∀ k, ReportsMeasured .sample hw zeroRounds k := by
  obtain ⟨hw,hw',hn,hkind⟩ := port_one_loads
  refine ⟨hw,hw',hn,fun hall => ?_⟩
  have hlen : 0 < hw.pCache.length := by rw [← nChNum,hn]; decide
  have hpd : hw.pCache[0]? = some hw.pCache[0] := List.getElem?_eq_getElem hlen
  obtain ⟨j,-,hread⟩ := read_of_reportsMeasured .sample (Booted.configured hw') hall 0 rfl 0 _ hpd
  have hzero : reading (zeroRounds j).hb .cur hw.pCache[0] = F32.zero := rfl
  rw [hkind,hzero] at hread
  exact absurd hread (by decide)

end ReportedValues
end WddProc
