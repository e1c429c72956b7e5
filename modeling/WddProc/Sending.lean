import WddProc.FrameSize
import WddProc.Link

/-!
# What is sent and how often

Nothing records whether the frame in `p_user` has been sent, or whether it is
still a frame. Messages are frames as long as every writeable callback finds one,
and frames are sent once exactly when every callback finds an unsent one.
-/

namespace WddProc
namespace Sending

open Hardware Report SrvWebsocket FrameSize Link Trace

variable (p : Platform)

/-- A writeable callback finds a frame in `p_user`. -/
def FindsFrame (h : History State Event) (_ : State) (e : Event) : Prop :=
  e = .writeable → ∃ text, lastWrite p h = some (.frame text)

/-- Every message handed to `lws_write` is a frame made before. -/
def SendsFrame (h : History State Event) (s : State) (e : Event) : Prop :=
  ∀ msg, sentBy s e = some msg → msg ∈ frames p h

theorem sentBy_eq_some {s : State} {e : Event} {msg : Bytes} (h : sentBy s e = some msg) :
    e = .writeable ∧ ∃ m, s.pUser = some m ∧ cstr m = msg := by
  cases e with
  | writeable =>
    obtain ⟨m,hm,hmsg⟩ := Option.bind_eq_some_iff.mp h
    exact ⟨rfl,m,hm,(wsSendMsg_eq_some hmsg).symm⟩
  | _ => cases h

theorem step_sendsFrame {s₀ s : State} {h : History State Event} (hr : Exec (step p) s₀ h s)
    {e : Event} (hC : FindsFrame p h s e) : SendsFrame p h s e := by
  intro msg hmsg
  obtain ⟨he,m,hm,rfl⟩ := sentBy_eq_some hmsg
  obtain ⟨text,htext⟩ := hC he
  obtain ⟨hmem,m',hm',rfl⟩ := lastWrite_frame p hr htext
  rw [hm,Option.some.injEq] at hm'
  exact hm' ▸ hmem

/-- In a run whose writeable callbacks all find a frame, every message is one. -/
theorem run_sendsFrame {s₀ s : State} {h : History State Event} (hr : Exec (step p) s₀ h s)
    (hC : Meets (FindsFrame p) h) : Meets (SendsFrame p) h := by
  induction hr with
  | refl => trivial
  | succ hr hs ih => exact ⟨step_sendsFrame p hr hC.1,ih hC.2⟩

def sampleObject : Hardware := hwInfoInit (RtuInfo.device (CString.lit "ENV:DA_IO_01") 1) .zero

def memory : CharArray (LWS_PRE + WS_TX_MAX_LEN) := CharArray.zero _

theorem sample_pending : sampleObject.pCache.any pending = true := by decide

theorem sample_fits : (reportFrame .sample sampleObject).length < DBUF_LEN := by
  have hcost : reportCost .sample sampleObject ≤ 102360 := by decide
  rw [reportFrame_length,DBUF_LEN]
  omega

def framed : History State Event :=
  [(connected sampleObject memory,.pack),(wsProtRegist (start sampleObject) memory.1,.established),
    (start sampleObject,.connect memory)]

theorem framed_run : ∃ dbuf rest,
    WS_TX_MAX_LEN ≤ (reportFrame .sample sampleObject ++ 0 :: rest).length ∧
      Exec (step .sample) (start sampleObject) framed
        (packed .sample (connected sampleObject memory) dbuf rest) := by
  obtain ⟨dbuf,rest,hlen,hs⟩ := step_pack_connected .sample memory sample_pending sample_fits
  exact ⟨dbuf,rest,hlen,Exec.succ (connected_run .sample sampleObject memory) hs⟩

theorem written_framed : written .sample (connected sampleObject memory) .pack =
    some (.frame (reportFrame .sample sampleObject)) := by
  have hp : packs (connected sampleObject memory) = true := by
    simpa [packs,connected,start] using sample_pending
  simp only [written,hp,if_true]
  rfl

theorem sent_run : ∃ s t, Exec (step .sample) (start sampleObject) ((s,.writeable) :: framed) t := by
  obtain ⟨dbuf,rest,-,hr⟩ := framed_run
  have hlen := strlen_reportFrame_le .sample sample_fits rest
  exact ⟨_,_,Exec.succ hr (step_writeable_of_fits .sample rfl hlen rfl rfl)⟩

theorem run_sendsFrame_sample : ∃ s t,
    Exec (step .sample) (start sampleObject) ((s,.writeable) :: framed) t ∧
      Meets (SendsFrame .sample) ((s,.writeable) :: framed) := by
  obtain ⟨s,t,hr⟩ := sent_run
  refine ⟨s,t,hr,run_sendsFrame .sample hr ⟨?_,?_⟩⟩
  · intro _
    exact ⟨_,by rw [framed,lastWrite_cons,written_framed,Option.some_or]⟩
  · simp [framed,FindsFrame]

/-- A message received between packing and the callback is echoed. -/
theorem received_is_echoed : ∃ h t, Exec (step .sample) (start sampleObject) h t ∧
    ¬ Meets (SendsFrame .sample) h := by
  obtain ⟨dbuf,rest,hlen,hr⟩ := framed_run
  have hx : ([120] : Bytes).length ≤ RX_BUFFER_LEN := by decide
  have hcstr (rest : Bytes) := (cstr_received hx rest).trans (by decide : cstr [120] = [120])
  have hrecv := Exec.succ hr (step_receive_of_fits .sample true true rfl hlen hx rfl rfl)
  have hshort (rest : Bytes) :
      strlen ([120] ++ List.replicate (WS_TX_MAX_LEN - ([120] : Bytes).length) 0 ++ rest) ≤ WS_TX_MAX_LEN := by
    rw [strlen,hcstr]
    decide
  have hsend := Exec.succ hrecv (step_writeable_of_fits .sample rfl (hshort _) rfl rfl)
  refine ⟨_,_,hsend,fun hmeets => ?_⟩
  have hmem := hmeets.1 [120] ((sentBy_of_fits rfl (hshort _)).trans (congrArg some (hcstr _)))
  have hone : frames .sample framed = [reportFrame .sample sampleObject] := by
    rw [framed,frames_cons,framedBy,written_framed]
    rfl
  change [120] ∈ frames .sample framed at hmem
  rw [hone,List.mem_singleton] at hmem
  have hlong := reportFrame_length .sample sampleObject
  rw [← hmem,List.length_singleton] at hlong
  omega

/-- The last write was a frame and nothing has been sent since. -/
def unsent : History State Event → Bool
  | [] => false
  | (s,e) :: h =>
    match written p s e,e with
    | some (.frame _),_ => true
    | some _,_ => false
    | none,.writeable => false
    | none,_ => unsent h

/-- How often each frame has been handed to `lws_write`, newest frame first. -/
def sends : History State Event → List ℕ
  | [] => []
  | (s,e) :: h =>
    match written p s e,e,lastWrite p h with
    | some (.frame _),_,_ => 0 :: sends h
    | none,.writeable,some (.frame _) => (sends h).modifyHead (· + 1)
    | _,_,_ => sends h

/-- A writeable callback finds an unsent frame. -/
def FindsUnsent (h : History State Event) (_ : State) (e : Event) : Prop :=
  e = .writeable → unsent p h = true

/-- Without an unsent frame nothing is sent. -/
def SendsNothing (h : History State Event) (s : State) (e : Event) : Prop :=
  unsent p h = false → sentBy s e = none

theorem written_writeable (s : State) : written p s .writeable = none := rfl

theorem sends_of_unsent {h : History State Event} (hu : unsent p h = true) :
    ∃ ns, sends p h = 0 :: ns := by
  induction h with
  | nil => cases hu
  | cons x h ih =>
    obtain ⟨s,e⟩ := x
    cases hw : written p s e with
    | some w => cases w <;> simp_all [unsent,sends]
    | none => cases e <;> simp_all [unsent,sends]

theorem sends_le_one {h : History State Event} (hC : Meets (FindsUnsent p) h) :
    ∀ n ∈ sends p h, n ≤ 1 := by
  induction h with
  | nil => simp [sends]
  | cons x h ih =>
    obtain ⟨s,e⟩ := x
    have hh := ih hC.2
    by_cases he : e = .writeable
    · subst he
      obtain ⟨ns,hns⟩ := sends_of_unsent p (hC.1 rfl)
      simp only [sends,written_writeable]
      split <;> simp_all
    · cases hw : written p s e with
      | some w => cases w <;> simp_all [sends]
      | none => cases e <;> simp_all [sends]

/-- Every frame is sent at most once and nothing is sent without an unsent frame,
exactly in the runs whose writeable callbacks all find an unsent frame. -/
theorem at_most_once_iff {s₀ s : State} {h : History State Event} (hr : Exec (step p) s₀ h s) :
    (∀ n ∈ sends p h, n ≤ 1) ∧ Meets (SendsNothing p) h ↔ Meets (FindsUnsent p) h := by
  constructor
  · rintro ⟨-,hnothing⟩
    induction hr with
    | refl => trivial
    | succ hr hs ih =>
      rename_i h s t e
      refine ⟨?_,ih hnothing.2⟩
      rintro rfl
      by_contra hu
      obtain ⟨m,hm,hsend,-⟩ := step_writeable p hs
      have hnone := hnothing.1 (by simpa using hu)
      simp [sentBy,hm,hsend] at hnone
  · intro hC
    refine ⟨sends_le_one p hC,Meets.mono ?_ hC⟩
    intro h s e hfinds hu
    cases e with
    | writeable => simp [hfinds rfl] at hu
    | _ => rfl

theorem at_most_once_sample : ∃ s t,
    Exec (step .sample) (start sampleObject) ((s,.writeable) :: framed) t ∧
      (∀ n ∈ sends .sample ((s,.writeable) :: framed), n ≤ 1) ∧
      Meets (SendsNothing .sample) ((s,.writeable) :: framed) := by
  obtain ⟨s,t,hr⟩ := sent_run
  refine ⟨s,t,hr,(at_most_once_iff .sample hr).mpr ⟨?_,?_⟩⟩
  · intro _
    simp only [framed,unsent,written_framed]
  · simp [framed,FindsUnsent]

/-- A second callback sends the frame again. -/
theorem frame_is_sent_twice : ∃ h t, Exec (step .sample) (start sampleObject) h t ∧
    ¬ ((∀ n ∈ sends .sample h, n ≤ 1) ∧ Meets (SendsNothing .sample) h) := by
  obtain ⟨dbuf,rest,-,hr⟩ := framed_run
  have hlen := strlen_reportFrame_le .sample sample_fits rest
  have hfirst := Exec.succ hr (step_writeable_of_fits .sample rfl hlen rfl rfl)
  have hsecond := Exec.succ hfirst (step_writeable_of_fits .sample rfl hlen rfl rfl)
  refine ⟨_,_,hsecond,fun hprop => ?_⟩
  have hnothing := hprop.2.1 rfl
  rw [sentBy_of_fits rfl hlen] at hnothing
  cases hnothing

end Sending
end WddProc
