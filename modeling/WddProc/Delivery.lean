import WddProc.Measurement
import WddProc.Sending

/-!
# Updates on their way to the host

A stored value is pending, in a frame that is about to be sent, or delivered.
The status says only the first; this module finds the steps that lose the others.
-/

namespace WddProc
namespace Delivery

open Hardware Report SrvWebsocket FrameSize Link Trace Sending

variable (p : Platform)

def changedBy (i : ℕ) (s : State) : Event → Bool
  | .heartbeat hb => s.hw.pCache[i]?.any fun pd => !F32.feq pd.val (reading hb s.hw.hwInfo.kind pd)
  | _ => false

/-- The monitor has changed channel `i` in the run. -/
def changed (i : ℕ) (h : History State Event) : Bool := h.any fun (s,e) => changedBy i s e

/-- A receiver of the message reads the entry. -/
def Carries (msg : Bytes) (e : Entry) : Prop := ∃ d, readReport p msg = some d ∧ e ∈ d.params

/-- The entry stands in `p_user` and a callback is requested on a live connection. -/
def InFlight (s : State) (e : Entry) : Prop :=
  s.asked = true ∧ s.wsiMulti = true ∧ ∃ m, s.pUser = some m ∧ Carries p (cstr m) e

/-- The entry is in a message that was handed to `lws_write`. -/
def Delivered (h : History State Event) (e : Entry) : Prop := ∃ msg ∈ messages h, Carries p msg e

def entry (s : State) (pd : HwCache) : Entry := entryOf p s.hw.hwInfo.kind pd

/-- The last stored value of every changed channel is pending, in flight or delivered. -/
def NothingLost (h : History State Event) (s : State) : Prop :=
  ∀ i pd, s.hw.pCache[i]? = some pd → changed i h = true →
    pd.status = .uptare ∨ InFlight p s (entry p s pd) ∨ Delivered p h (entry p s pd)

/-- The last stored value of a changed channel, which is not pending and not delivered. -/
def Exposed (h : History State Event) (s : State) (en : Entry) : Prop :=
  ∃ i pd, s.hw.pCache[i]? = some pd ∧ changed i h = true ∧ pd.status ≠ .uptare ∧
    entry p s pd = en ∧ ¬ Delivered p h en

/-- The last stored value of a changed channel, which is pending and not delivered. -/
def Waiting (h : History State Event) (s : State) (en : Entry) : Prop :=
  ∃ i pd, s.hw.pCache[i]? = some pd ∧ changed i h = true ∧ pd.status = .uptare ∧
    entry p s pd = en ∧ ¬ Delivered p h en

/-- Whoever overwrites `p_user` or drops the request does so while no value depends on
it, unless the new text has that value too, and waiting values are packed for a connection. -/
def Careful (h : History State Event) (s : State) : Event → Prop
  | .pack => packs s = true →
      (∀ en, Exposed p h s en → ∃ pd ∈ s.hw.pCache, pd.status = .uptare ∧ entry p s pd = en) ∧
      (s.wsiMulti = true ∨ ∀ en, ¬ Waiting p h s en)
  | .receive frag _ _ => ∀ en, Exposed p h s en → Carries p (cstr frag) en
  | .closed => ∀ en, ¬ Exposed p h s en
  | .consume => handles s = true → ∀ en, ¬ Exposed p h s en
  | _ => True

variable {p}

theorem changed_cons (i : ℕ) (s : State) (e : Event) (h : History State Event) :
    changed i ((s,e) :: h) = (changedBy i s e || changed i h) := rfl

theorem Delivered.cons {h : History State Event} {en : Entry} (hd : Delivered p h en)
    (s : State) (e : Event) : Delivered p ((s,e) :: h) en := by
  obtain ⟨msg,hmsg,hc⟩ := hd
  exact ⟨msg,by simp [messages_cons,hmsg],hc⟩

theorem Delivered.of_cons {h : History State Event} {s : State} {e : Event} {en : Entry}
    (hs : sentBy s e = none) (hd : Delivered p ((s,e) :: h) en) : Delivered p h en := by
  obtain ⟨msg,hmsg,hc⟩ := hd
  exact ⟨msg,by simpa [messages_cons,hs] using hmsg,hc⟩

theorem not_carries_nil (en : Entry) : ¬ Carries p [] en := by
  rintro ⟨d,hd,-⟩
  have hnone : Uplink.readFrame [] = none := by decide
  rw [readReport,hnone] at hd
  cases hd

theorem carries_reportFrame (hw : Hardware) (en : Entry) :
    Carries p (reportFrame p hw) en ↔
      ∃ pd ∈ hw.pCache, pd.status = .uptare ∧ entryOf p hw.hwInfo.kind pd = en := by
  simp [Carries,readReport_reportFrame,docOf,pending,and_assoc]

theorem NothingLost.inFlight {h : History State Event} {s : State} (hI : NothingLost p h s)
    {en : Entry} (hex : Exposed p h s en) : InFlight p s en := by
  obtain ⟨i,pd,hpd,hc,hst,rfl,hd⟩ := hex
  rcases hI i pd hpd hc with hp | hf | hd'
  · exact absurd hp hst
  · exact hf
  · exact absurd hd' hd

theorem nothingLost_iff {h : History State Event} {s t : State} {e : Event} (hhw : t.hw = s.hw)
    (hch : ∀ i, changedBy i s e = false) :
    NothingLost p ((s,e) :: h) t ↔
      ∀ en, Exposed p h s en → InFlight p t en ∨ Delivered p ((s,e) :: h) en := by
  have hentry (pd : HwCache) : entry p t pd = entry p s pd := by rw [entry,entry,hhw]
  constructor
  · rintro hI en ⟨i,pd,hpd,hc,hst,rfl,-⟩
    rcases hI i pd (hhw ▸ hpd) (by rw [changed_cons,hc,Bool.or_true]) with hp | hrest
    · exact absurd hp hst
    · exact hentry pd ▸ hrest
  · intro hall i pd hpd hc
    rw [hhw] at hpd
    rw [changed_cons,hch,Bool.false_or] at hc
    rw [hentry]
    by_cases hst : pd.status = .uptare
    · exact Or.inl hst
    · by_cases hd : Delivered p h (entry p s pd)
      · exact Or.inr (Or.inr (hd.cons s e))
      · exact Or.inr (hall _ ⟨i,pd,hpd,hc,hst,rfl,hd⟩)

theorem nothingLost_iff_inFlight {h : History State Event} {s t : State} {e : Event} (hhw : t.hw = s.hw)
    (hch : ∀ i, changedBy i s e = false) (hsent : sentBy s e = none) :
    NothingLost p ((s,e) :: h) t ↔ ∀ en, Exposed p h s en → InFlight p t en := by
  rw [nothingLost_iff hhw hch]
  refine forall₂_congr fun en hex => or_iff_left fun hd => ?_
  obtain ⟨i,pd,-,-,-,rfl,hno⟩ := hex
  exact hno (hd.of_cons hsent)

theorem nothingLost_idle {h : History State Event} {s t : State} {e : Event} (hI : NothingLost p h s)
    (hhw : t.hw = s.hw) (hch : ∀ i, changedBy i s e = false)
    (hkeep : t.pUser = s.pUser ∧ t.asked = s.asked ∧ t.wsiMulti = s.wsiMulti) :
    NothingLost p ((s,e) :: h) t := by
  rw [nothingLost_iff hhw hch]
  intro en hex
  left
  have hf := hI.inFlight hex
  rwa [InFlight,hkeep.1,hkeep.2.1,hkeep.2.2]

theorem heartbeat_nothingLost {h : History State Event} {s : State} (hI : NothingLost p h s)
    (hb : Heartbeat) :
    NothingLost p ((s,.heartbeat hb) :: h) { s with hw := hwHeartbeat hb s.hw } := by
  have hentry (pd : HwCache) : entry p { s with hw := hwHeartbeat hb s.hw } pd = entry p s pd := by
    simp only [entry,hwHeartbeat,hwParamMonitor_kind]
  intro i pd' hpd' hc
  rw [hwHeartbeat,hwParamMonitor_get?] at hpd'
  obtain ⟨pd,hpd,rfl⟩ := Option.map_eq_some_iff.mp hpd'
  rcases storeVal_cases hb i pd (reading hb s.hw.hwInfo.kind pd) with ⟨heq,hsame⟩ | ⟨-,-,hst,-⟩
  · have hch : changedBy i s (.heartbeat hb) = false := by simp [changedBy,hpd,heq]
    rw [changed_cons,hch,Bool.false_or] at hc
    rw [hsame,hentry]
    rcases hI i pd hpd hc with hp | ⟨hasked,hwsi,hm⟩ | hd
    · exact Or.inl hp
    · exact Or.inr (Or.inl ⟨hasked,hwsi,hm⟩)
    · exact Or.inr (Or.inr (hd.cons _ _))
  · exact Or.inl hst

@[simp] theorem entryOf_sent (kind : HwDevKind) (pd : HwCache) :
    entryOf p kind (sent pd) = entryOf p kind pd := by
  unfold sent
  split <;> rfl

theorem pack_nothingLost_iff {h : History State Event} {s : State} (hI : NothingLost p h s)
    (hp : packs s = true) (dbuf rest : Bytes) :
    Careful p h s .pack ↔ NothingLost p ((s,.pack) :: h) (packed p s dbuf rest) := by
  have hget (i : ℕ) : (packed p s dbuf rest).hw.pCache[i]? = s.hw.pCache[i]?.map sent := by
    simp [packed,markSent]
  have hentry (pd : HwCache) : entry p (packed p s dbuf rest) (sent pd) = entry p s pd :=
    entryOf_sent _ _
  have hflight (en : Entry) : InFlight p (packed p s dbuf rest) en ↔ s.wsiMulti = true ∧
      ∃ pd ∈ s.hw.pCache, pd.status = .uptare ∧ entry p s pd = en := by
    have hcarries := carries_reportFrame (p := p) s.hw en
    simp [InFlight,packed,cstr_reportFrame,hcarries,entry]
    tauto
  have hold {en : Entry} (hd : Delivered p ((s,.pack) :: h) en) : Delivered p h en := hd.of_cons rfl
  constructor
  · intro hC i pd' hpd' hc
    obtain ⟨hex,hwait⟩ := hC hp
    rw [hget] at hpd'
    obtain ⟨pd,hpd,rfl⟩ := Option.map_eq_some_iff.mp hpd'
    change changed i h = true at hc
    rw [hentry]
    by_cases hd : Delivered p h (entry p s pd)
    · exact Or.inr (Or.inr (hd.cons _ _))
    · right
      left
      rw [hflight]
      by_cases hst : pd.status = .uptare
      · refine ⟨hwait.resolve_right fun hno => ?_,pd,List.mem_of_getElem? hpd,hst,rfl⟩
        exact hno _ ⟨i,pd,hpd,hc,hst,rfl,hd⟩
      · have hexp : Exposed p h s (entry p s pd) := ⟨i,pd,hpd,hc,hst,rfl,hd⟩
        exact ⟨(hI.inFlight hexp).2.1,hex _ hexp⟩
  · intro hI' _
    constructor
    · rintro en ⟨i,pd,hpd,hc,hst,rfl,hd⟩
      rcases hI' i (sent pd) (by rw [hget,hpd]; rfl) hc with hp' | hf | hd'
      · simp [sent,hst] at hp'
      · exact ((hflight _).mp (hentry pd ▸ hf)).2
      · exact absurd (hold (hentry pd ▸ hd')) hd
    · by_contra hno
      simp only [not_or,not_forall,not_not] at hno
      obtain ⟨hw,en,i,pd,hpd,hc,hst,rfl,hd⟩ := hno
      rcases hI' i (sent pd) (by rw [hget,hpd]; rfl) hc with hp' | hf | hd'
      · simp [sent,hst] at hp'
      · exact hw ((hflight _).mp hf).1
      · exact hd (hold (hentry pd ▸ hd'))

/-- A careful step is exactly one that loses nothing. -/
theorem step_nothingLost_iff {h : History State Event} {s t : State} {e : Event}
    (hI : NothingLost p h s) (hs : step p s e = some t) :
    Careful p h s e ↔ NothingLost p ((s,e) :: h) t := by
  cases e with
  | heartbeat hb =>
    cases hs
    exact iff_of_true trivial (heartbeat_nothingLost hI hb)
  | pack =>
    cases hp : packs s with
    | false =>
      rw [step_pack_idle p hp] at hs
      cases hs
      exact iff_of_true (fun h' => absurd (hp.symm.trans h') (by decide))
        (nothingLost_idle hI rfl (fun _ => rfl) ⟨rfl,rfl,rfl⟩)
    | true =>
      obtain ⟨m,dbuf,rest,-,-,rfl⟩ := step_pack p hp hs
      exact pack_nothingLost_iff hI hp dbuf rest
  | connect mem =>
    cases hs
    refine iff_of_true trivial ?_
    cases hw : s.wsiMulti with
    | true => exact nothingLost_idle hI (by simp [wsProtRegist,hw]) (fun _ => rfl) (by simp [wsProtRegist,hw])
    | false =>
      -- nothing is in flight without a connection, so nothing is exposed
      rw [nothingLost_iff (by simp [wsProtRegist,hw]) fun _ => rfl]
      intro en hex
      exact absurd ((hI.inFlight hex).2.1.symm.trans hw) (by decide)
  | established =>
    rw [step_established p hs]
    exact iff_of_true trivial (nothingLost_idle hI rfl (fun _ => rfl) ⟨rfl,rfl,rfl⟩)
  | receive frag first fin =>
    obtain ⟨hlen,rest,rfl⟩ := step_receive p hs
    have hhw : (received s frag rest).hw = s.hw := rfl
    rw [nothingLost_iff_inFlight hhw (fun _ => rfl) rfl]
    refine forall₂_congr fun en hex => ?_
    obtain ⟨hasked,hwsi,-⟩ := hI.inFlight hex
    have hcstr := cstr_received hlen rest
    rw [List.append_assoc] at hcstr
    simp [InFlight,received,hasked,hwsi,hcstr]
  | writeable =>
    obtain ⟨m,hm,hsend,rfl⟩ := step_writeable p hs
    have hhw : (transmitted s).hw = s.hw := rfl
    have hch (i : ℕ) : changedBy i s .writeable = false := rfl
    refine iff_of_true trivial ?_
    rw [nothingLost_iff hhw hch]
    intro en hex
    obtain ⟨-,-,m',hm',hc⟩ := hI.inFlight hex
    rw [hm,Option.some.injEq] at hm'
    subst hm'
    exact Or.inr ⟨cstr m,by simp [messages_cons,sentBy,hm,hsend],hc⟩
  | closed =>
    have hhw : (clientClosed s).hw = s.hw := rfl
    rw [step_closed p hs,nothingLost_iff_inFlight hhw (fun _ => rfl) rfl]
    simp [Careful,InFlight,clientClosed]
  | consume =>
    cases hh : handles s with
    | false =>
      rw [step_consume_idle p hh] at hs
      cases hs
      exact iff_of_true (fun h' => absurd (hh.symm.trans h') (by decide))
        (nothingLost_idle hI rfl (fun _ => rfl) ⟨rfl,rfl,rfl⟩)
    | true =>
      obtain ⟨m,hm,rfl⟩ := step_consume p hh hs
      have hhw : (cleared s m).hw = s.hw := rfl
      rw [nothingLost_iff_inFlight hhw (fun _ => rfl) rfl]
      simp [Careful,hh,InFlight,cleared,hm,not_carries_nil]

theorem nothingLost_nil (s : State) : NothingLost p [] s := by
  intro i pd _ hc
  cases hc

/-- In no state of a run has an update been lost, exactly when all its steps are careful. -/
theorem nothing_lost_iff {s₀ s : State} {h : History State Event} (hr : Exec (step p) s₀ h s) :
    Always (NothingLost p) h s ↔ Meets (Careful p) h :=
  Exec.always_iff (nothingLost_nil s₀) (fun _ _ _ _ hI hs => step_nothingLost_iff hI hs) hr

def monitored : Hardware := hwHeartbeat Measurement.badHeartbeat sampleObject

theorem monitored_pending : ∀ pd ∈ monitored.pCache, pd.status = .uptare := by decide

theorem monitored_fits : (reportFrame .sample monitored).length < DBUF_LEN := by
  have hcost : reportCost .sample monitored ≤ 102360 := by decide
  rw [reportFrame_length,DBUF_LEN]
  omega

def reported : History State Event :=
  [(connected monitored memory,.pack),
    (connected sampleObject memory,.heartbeat Measurement.badHeartbeat),
    (wsProtRegist (start sampleObject) memory.1,.established),(start sampleObject,.connect memory)]

theorem reported_run : ∃ dbuf rest,
    WS_TX_MAX_LEN ≤ (reportFrame .sample monitored ++ 0 :: rest).length ∧
      Exec (step .sample) (start sampleObject) reported
        (packed .sample (connected monitored memory) dbuf rest) := by
  have hany : monitored.pCache.any pending = true := by decide
  obtain ⟨dbuf,rest,hlen,hs⟩ := step_pack_connected .sample memory hany monitored_fits
  have hbeat : step .sample (connected sampleObject memory) (.heartbeat Measurement.badHeartbeat) =
      some (connected monitored memory) :=
    step_heartbeat_connected .sample Measurement.badHeartbeat sampleObject memory
  have hrun := Exec.succ (connected_run .sample sampleObject memory) hbeat
  exact ⟨dbuf,rest,hlen,Exec.succ hrun hs⟩

theorem nothing_lost_sample : ∃ s t,
    Exec (step .sample) (start sampleObject) ((s,.writeable) :: reported) t ∧
      Always (NothingLost .sample) ((s,.writeable) :: reported) t := by
  obtain ⟨dbuf,rest,-,hr⟩ := reported_run
  have hlen := strlen_reportFrame_le .sample monitored_fits rest
  have hsent := Exec.succ hr (step_writeable_of_fits .sample rfl hlen rfl rfl)
  refine ⟨_,_,hsent,(nothing_lost_iff hsent).mpr
    ⟨trivial,fun _ => ⟨?_,Or.inl rfl⟩,trivial,trivial,trivial,trivial⟩⟩
  rintro en ⟨i,pd,hpd,-,hst,-⟩
  exact absurd (monitored_pending pd (List.mem_of_getElem? hpd)) hst

/-- A message received before the callback overwrites the only copy of the values. -/
theorem received_loses_update : ∃ h t, Exec (step .sample) (start sampleObject) h t ∧
    ¬ Always (NothingLost .sample) h t := by
  obtain ⟨dbuf,rest,hlen,hr⟩ := reported_run
  have hx : ([120] : Bytes).length ≤ RX_BUFFER_LEN := by decide
  have hrecv := Exec.succ hr (step_receive_of_fits .sample true true rfl hlen hx rfl rfl)
  refine ⟨_,_,hrecv,fun hall => ?_⟩
  obtain ⟨pd,hpd⟩ : ∃ pd, (markSent monitored).pCache[0]? = some pd := ⟨_,rfl⟩
  have hc : changed 0 reported = true := by decide
  have hused : ∀ pd ∈ (markSent monitored).pCache, pd.status = .used := by decide
  rcases hall.last 0 pd hpd hc with hst | ⟨-,-,m,hm,d,hd,-⟩ | ⟨msg,hmsg,-⟩
  · rw [hused pd (List.mem_of_getElem? hpd)] at hst
    cases hst
  · have hnone : readReport .sample [120] = none := by decide
    have hcstr (rest : Bytes) := (cstr_received hx rest).trans (by decide : cstr [120] = [120])
    rw [← Option.some.inj hm,hcstr,hnone] at hd
    cases hd
  · change msg ∈ ([] : List Bytes) at hmsg
    cases hmsg

end Delivery
end WddProc
