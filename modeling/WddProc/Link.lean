import WddProc.SrvWebsocket
import WddProc.Trace

/-!
# The link to the host

The main thread, the callbacks of the service thread and the worker share one
buffer. Their steps are atomic and come in any order; a step has no result when
it writes past a buffer or when its callback cannot happen in the state.
-/

namespace WddProc
namespace Link

open Hardware Report SrvWebsocket Trace

variable (p : Platform)

inductive UserState
  | null | rx | tx
  deriving DecidableEq

/-- The object, `dbuf`, and the session `ws_prot[0]`; `asked` is a requested callback
that has not come yet. -/
structure State where
  hw : Hardware
  dbuf : Bytes
  pUser : Option Bytes
  userLen : ℕ
  userState : UserState
  wsiMulti : Bool
  established : Bool
  asked : Bool

inductive Event
  | heartbeat (hb : Heartbeat)
  | pack
  | connect (mem : CharArray (LWS_PRE + WS_TX_MAX_LEN))
  | established
  | receive (frag : Bytes) (first fin : Bool)
  | writeable
  | closed
  | consume

/-- The receive buffer size of the protocol. -/
def RX_BUFFER_LEN : ℕ := 4096

/-- `ws_heartbeat`. -/
def wsHeartbeat (s : State) : Option State :=
  if hwLookCacheStatus (s.hw.pCache.map some) = HwDataStatus.uptare.toNat then do
    let (hw,dbuf,m) ← wsDataPackAndSend p s.hw s.dbuf s.pUser
    some { s with hw := hw, dbuf := dbuf, pUser := m, asked := s.asked || m.isSome && s.wsiMulti }
  else some s

/-- `ws_prot_regist` for the first protocol; `mem` is what `malloc` returns. -/
def wsProtRegist (s : State) (mem : Bytes) : State :=
  if s.wsiMulti then s else { s with pUser := some mem, wsiMulti := true, asked := false }

/-- `LWS_CALLBACK_CLIENT_RECEIVE`. -/
def clientReceive (s : State) (frag : Bytes) : Option State := do
  let m ← memset0 (← s.pUser) WS_TX_MAX_LEN
  let m ← poke m 0 frag
  some { s with pUser := some m, userLen := frag.length, userState := .rx }

/-- `LWS_CALLBACK_CLIENT_WRITEABLE`. A short `lws_write` only leads to a later close. -/
def clientWriteable (s : State) : Option State := do
  let m ← s.pUser
  let _ ← wsSendMsg m (strlen m)
  some { s with asked := false }

/-- `LWS_CALLBACK_CLIENT_CLOSED`, also for a failed connection. -/
def clientClosed (s : State) : State :=
  { s with wsiMulti := false, established := false, asked := false }

def handles (s : State) : Bool := s.established && s.wsiMulti && s.userState == .rx

/-- One round of `test_callbake_msgHandle`. -/
def msgHandle (s : State) : Option State :=
  if handles s then do
    let m ← memset0 (← s.pUser) WS_TX_MAX_LEN
    some { s with pUser := some m, userState := .null }
  else some s

def step (s : State) : Event → Option State
  | .heartbeat hb => some { s with hw := hwHeartbeat hb s.hw }
  | .pack => wsHeartbeat p s
  | .connect mem => some (wsProtRegist s mem.1)
  | .established => if s.wsiMulti then some { s with established := true } else none
  | .receive frag _ _ =>
    if s.wsiMulti && s.established && frag.length ≤ RX_BUFFER_LEN then clientReceive s frag else none
  | .writeable => if s.wsiMulti && s.established then clientWriteable s else none
  | .closed => if s.wsiMulti then some (clientClosed s) else none
  | .consume => msgHandle s

/-- Before the first step: the object as the loop finds it and zeroed globals. -/
def start (hw : Hardware) : State where
  hw := hw
  dbuf := List.replicate DBUF_LEN 0
  pUser := none
  userLen := 0
  userState := .null
  wsiMulti := false
  established := false
  asked := false

def packed (s : State) (dbuf rest : Bytes) : State :=
  { s with
    hw := markSent s.hw
    dbuf := dbuf
    pUser := some (reportFrame p s.hw ++ 0 :: rest)
    asked := s.asked || s.wsiMulti }

def received (s : State) (frag rest : Bytes) : State :=
  { s with
    pUser := some (frag ++ List.replicate (WS_TX_MAX_LEN - frag.length) 0 ++ rest)
    userLen := frag.length
    userState := .rx }

def transmitted (s : State) : State := { s with asked := false }

def cleared (s : State) (m : Bytes) : State := { s with pUser := some m, userState := .null }

/-- The main thread makes a frame in this state. -/
def packs (s : State) : Bool := s.pUser.isSome && s.hw.pCache.any pending

theorem looks_iff (hw : Hardware) :
    hwLookCacheStatus (hw.pCache.map some) = HwDataStatus.uptare.toNat ↔ hw.pCache.any pending = true := by
  rw [hwLookCacheStatus_eq_uptare]
  simp [pending]

theorem step_pack_idle {s : State} (h : packs s = false) : step p s .pack = some s := by
  cases hu : s.pUser with
  | none =>
    have hs : { s with pUser := none, asked := s.asked } = s := by rw [← hu]
    simp only [step,wsHeartbeat,wsDataPackAndSend,hu]
    split
    · simpa using hs
    · rfl
  | some m =>
    have hlook : ¬ hwLookCacheStatus (s.hw.pCache.map some) = HwDataStatus.uptare.toNat := by
      rw [looks_iff]
      simpa [packs,hu] using h
    simp [step,wsHeartbeat,hlook]

theorem step_pack {s t : State} (h : packs s = true) (hs : step p s .pack = some t) :
    ∃ m dbuf rest, s.pUser = some m ∧ (reportFrame p s.hw ++ 0 :: rest).length = m.length ∧
      t = packed p s dbuf rest := by
  simp only [packs,Bool.and_eq_true,Option.isSome_iff_exists] at h
  obtain ⟨⟨m,hm⟩,hp⟩ := h
  have hlook := (looks_iff s.hw).mpr hp
  simp only [step,wsHeartbeat,if_pos hlook,hm,wsDataPackAndSend_eq,Option.bind_eq_bind] at hs
  split at hs
  · rename_i hfit
    simp only [Option.bind_some,Option.some.injEq] at hs
    refine ⟨m,_,m.drop ((reportFrame p s.hw).length + 1),hm,?_,hs.symm⟩
    rw [List.length_append,List.length_cons,List.length_drop]
    omega
  · cases hs

theorem step_pack_of_fits {s : State} {m : Bytes} (hm : s.pUser = some m)
    (hp : s.hw.pCache.any pending = true) (hd : (reportFrame p s.hw).length < s.dbuf.length)
    (hl : (reportFrame p s.hw).length < m.length) : ∃ t, step p s .pack = some t := by
  have hlook := (looks_iff s.hw).mpr hp
  rw [← Option.isSome_iff_exists]
  simp [step,wsHeartbeat,hlook,hm,wsDataPackAndSend_eq,hd,hl]

theorem clientReceive_eq {s : State} {m frag : Bytes} (hm : s.pUser = some m)
    (hlen : WS_TX_MAX_LEN ≤ m.length) (hfrag : frag.length ≤ RX_BUFFER_LEN) :
    clientReceive s frag = some (received s frag (m.drop WS_TX_MAX_LEN)) := by
  have hle : RX_BUFFER_LEN ≤ WS_TX_MAX_LEN := by decide
  have hpoke := poke_append [] (List.replicate WS_TX_MAX_LEN 0 ++ m.drop WS_TX_MAX_LEN) frag
  have hdrop : (List.replicate WS_TX_MAX_LEN (0 : UInt8) ++ m.drop WS_TX_MAX_LEN).drop frag.length =
      List.replicate (WS_TX_MAX_LEN - frag.length) 0 ++ m.drop WS_TX_MAX_LEN := by
    rw [List.drop_append_of_le_length (by rw [List.length_replicate]; omega),List.drop_replicate]
  rw [List.nil_append,List.nil_append,List.length_nil,if_pos (by
    rw [List.length_append,List.length_replicate]
    omega),hdrop] at hpoke
  simp only [clientReceive,hm,Option.bind_eq_bind,Option.bind_some,memset0_eq,if_pos hlen,hpoke,
    List.append_assoc,received]

theorem cstr_received {frag : Bytes} (hlen : frag.length ≤ RX_BUFFER_LEN) (rest : Bytes) :
    cstr (frag ++ List.replicate (WS_TX_MAX_LEN - frag.length) 0 ++ rest) = cstr frag := by
  have hle : RX_BUFFER_LEN < WS_TX_MAX_LEN := by decide
  obtain ⟨k,hk⟩ : ∃ k, WS_TX_MAX_LEN - frag.length = k + 1 :=
    ⟨WS_TX_MAX_LEN - frag.length - 1,by omega⟩
  rw [hk,List.replicate_succ,List.append_assoc,List.cons_append]
  exact cstr_append_nul_block _ _

theorem step_receive {s t : State} {frag : Bytes} {first fin : Bool}
    (hs : step p s (.receive frag first fin) = some t) :
    frag.length ≤ RX_BUFFER_LEN ∧ ∃ rest, t = received s frag rest := by
  simp only [step] at hs
  split at hs
  · rename_i h
    simp only [Bool.and_eq_true,decide_eq_true_eq] at h
    cases hm : s.pUser with
    | none => simp [clientReceive,hm] at hs
    | some m =>
      by_cases hlen : WS_TX_MAX_LEN ≤ m.length
      · rw [clientReceive_eq hm hlen h.2,Option.some.injEq] at hs
        exact ⟨h.2,_,hs.symm⟩
      · simp [clientReceive,hm,memset0_eq,hlen] at hs
  · cases hs

/-- The string in `p_user` is what `lws_write` is given. -/
theorem step_writeable {s t : State} (hs : step p s .writeable = some t) :
    ∃ m, s.pUser = some m ∧ wsSendMsg m (strlen m) = some (cstr m) ∧ t = transmitted s := by
  simp only [step] at hs
  split at hs
  · simp only [clientWriteable,Option.bind_eq_bind,Option.bind_eq_some_iff] at hs
    obtain ⟨m,hm,msg,hmsg,ht⟩ := hs
    obtain rfl := wsSendMsg_eq_some hmsg
    exact ⟨m,hm,hmsg,(Option.some.inj ht).symm⟩
  · cases hs

theorem step_closed {s t : State} (hs : step p s .closed = some t) : t = clientClosed s := by
  simp only [step] at hs
  split at hs
  · exact (Option.some.inj hs).symm
  · cases hs

theorem step_established {s t : State} (hs : step p s .established = some t) :
    t = { s with established := true } := by
  simp only [step] at hs
  split at hs
  · exact (Option.some.inj hs).symm
  · cases hs

theorem step_consume_idle {s : State} (h : handles s = false) : step p s .consume = some s := by
  simp [step,msgHandle,h]

theorem step_consume {s t : State} (h : handles s = true) (hs : step p s .consume = some t) :
    ∃ m, cstr m = [] ∧ t = cleared s m := by
  simp only [step,msgHandle,h,if_true,Option.bind_eq_bind,Option.bind_eq_some_iff] at hs
  obtain ⟨m₀,-,m,hm,ht⟩ := hs
  rw [memset0_eq] at hm
  split at hm
  · refine ⟨m,?_,(Option.some.inj ht).symm⟩
    rw [← Option.some.inj hm]
    exact cstr_zero_cons _
  · cases hm

/-- What a step leaves in `p_user`. -/
inductive Write
  | frame (text : Bytes)
  | fragment (frag : Bytes) (first fin : Bool)
  | cleared
  | memory

/-- The write of a step, if it writes `p_user`. -/
def written (s : State) : Event → Option Write
  | .pack => if packs s then some (.frame (reportFrame p s.hw)) else none
  | .connect _ => if s.wsiMulti then none else some .memory
  | .receive frag first fin => some (.fragment frag first fin)
  | .consume => if handles s then some .cleared else none
  | _ => none

def lastWrite (h : History State Event) : Option Write := h.findSome? fun (s,e) => written p s e

/-- The message of a step that calls `lws_write`. -/
def sentBy (s : State) : Event → Option Bytes
  | .writeable => s.pUser.bind fun m => wsSendMsg m (strlen m)
  | _ => none

/-- All messages handed to `lws_write`, newest first. -/
def messages (h : History State Event) : List Bytes := h.filterMap fun (s,e) => sentBy s e

def framedBy (s : State) (e : Event) : Option Bytes :=
  match written p s e with
  | some (.frame text) => some text
  | _ => none

/-- All frames that `ws_format_uplink_data` made, newest first. -/
def frames (h : History State Event) : List Bytes := h.filterMap fun (s,e) => framedBy p s e

theorem frames_cons (s : State) (e : Event) (h : History State Event) :
    frames p ((s,e) :: h) = (framedBy p s e).toList ++ frames p h := by
  simp only [frames,List.filterMap_cons]
  cases framedBy p s e <;> rfl

theorem messages_cons (s : State) (e : Event) (h : History State Event) :
    messages ((s,e) :: h) = (sentBy s e).toList ++ messages h := by
  simp only [messages,List.filterMap_cons]
  cases sentBy s e <;> rfl

theorem lastWrite_cons (s : State) (e : Event) (h : History State Event) :
    lastWrite p ((s,e) :: h) = (written p s e).or (lastWrite p h) := by
  simp only [lastWrite,List.findSome?_cons]
  cases written p s e <;> rfl

/-- Which steps write, and what. -/
theorem written_cases {s : State} {e : Event} {w : Write} (h : written p s e = some w) :
    (e = .pack ∧ packs s = true ∧ w = .frame (reportFrame p s.hw)) ∨
    (∃ mem, e = .connect mem ∧ w = .memory) ∨
    (∃ frag first fin, e = .receive frag first fin ∧ w = .fragment frag first fin) ∨
    (e = .consume ∧ handles s = true ∧ w = .cleared) := by
  cases e with
  | pack =>
    obtain ⟨hp,hw⟩ := Option.ite_none_right_eq_some.mp h
    exact Or.inl ⟨rfl,hp,(Option.some.inj hw).symm⟩
  | connect mem =>
    obtain ⟨-,hw⟩ := Option.ite_none_left_eq_some.mp h
    exact Or.inr (Or.inl ⟨mem,rfl,(Option.some.inj hw).symm⟩)
  | receive frag first fin =>
    exact Or.inr (Or.inr (Or.inl ⟨frag,first,fin,rfl,(Option.some.inj h).symm⟩))
  | consume =>
    obtain ⟨hh,hw⟩ := Option.ite_none_right_eq_some.mp h
    exact Or.inr (Or.inr (Or.inr ⟨rfl,hh,(Option.some.inj hw).symm⟩))
  | heartbeat hb => cases h
  | established => cases h
  | writeable => cases h
  | closed => cases h

theorem written_frame {s : State} {e : Event} {text : Bytes}
    (h : written p s e = some (.frame text)) : e = .pack ∧ packs s = true ∧ text = reportFrame p s.hw := by
  rcases written_cases p h with ⟨he,hp,hw⟩ | ⟨mem,-,hw⟩ | ⟨frag,first,fin,-,hw⟩ | ⟨-,-,hw⟩
  · cases hw
    exact ⟨he,hp,rfl⟩
  all_goals cases hw

theorem written_fragment {s : State} {e : Event} {frag : Bytes} {first fin : Bool}
    (h : written p s e = some (.fragment frag first fin)) : e = .receive frag first fin := by
  rcases written_cases p h with ⟨-,-,hw⟩ | ⟨mem,-,hw⟩ | ⟨frag',first',fin',he,hw⟩ | ⟨-,-,hw⟩
  case inr.inr.inl =>
    cases hw
    exact he
  all_goals cases hw

/-- A step that writes nothing keeps the buffer and what is known about it. -/
theorem step_unwritten {s t : State} {e : Event} (h : written p s e = none) (hs : step p s e = some t) :
    t.pUser = s.pUser ∧ t.userLen = s.userLen ∧ t.userState = s.userState := by
  cases e with
  | heartbeat hb =>
    cases hs
    exact ⟨rfl,rfl,rfl⟩
  | pack =>
    have hp : packs s = false := by simpa [written] using h
    rw [step_pack_idle p hp] at hs
    cases hs
    exact ⟨rfl,rfl,rfl⟩
  | connect mem =>
    have hw : s.wsiMulti = true := by simpa [written] using h
    simp only [step,wsProtRegist,hw,if_true,Option.some.injEq] at hs
    subst hs
    exact ⟨rfl,rfl,rfl⟩
  | established =>
    rw [step_established p hs]
    exact ⟨rfl,rfl,rfl⟩
  | receive frag first fin => cases h
  | writeable =>
    obtain ⟨m,-,-,rfl⟩ := step_writeable p hs
    exact ⟨rfl,rfl,rfl⟩
  | closed =>
    rw [step_closed p hs]
    exact ⟨rfl,rfl,rfl⟩
  | consume =>
    have hh : handles s = false := by simpa [written] using h
    rw [step_consume_idle p hh] at hs
    cases hs
    exact ⟨rfl,rfl,rfl⟩

theorem step_userState {s t : State} {e : Event} (hs : step p s e = some t)
    (hreceive : ∀ frag first fin, e ≠ .receive frag first fin) (hconsume : e ≠ .consume) :
    t.userState = s.userState := by
  cases hw : written p s e with
  | none => exact (step_unwritten p hw hs).2.2
  | some w =>
    rcases written_cases p hw with ⟨rfl,hp,-⟩ | ⟨mem,rfl,-⟩ | ⟨frag,first,fin,he,-⟩ | ⟨he,-,-⟩
    · obtain ⟨m,dbuf,rest,-,-,rfl⟩ := step_pack p hp hs
      rfl
    · cases hs
      unfold wsProtRegist
      split <;> rfl
    · exact absurd he (hreceive frag first fin)
    · exact absurd he hconsume

/-- A frame that is the last write was made in the run and stands in `p_user`. -/
theorem lastWrite_frame {s₀ s : State} {h : History State Event} (hr : Exec (step p) s₀ h s)
    {text : Bytes} (hw : lastWrite p h = some (.frame text)) :
    text ∈ frames p h ∧ ∃ m, s.pUser = some m ∧ cstr m = text := by
  induction hr with
  | refl => cases hw
  | succ hr hs ih =>
    rename_i h s t e
    rw [lastWrite_cons] at hw
    cases hwr : written p s e with
    | none =>
      rw [hwr,Option.none_or] at hw
      obtain ⟨hmem,hm⟩ := ih hw
      rw [(step_unwritten p hwr hs).1]
      exact ⟨by simpa [frames_cons,framedBy,hwr] using hmem,hm⟩
    | some w =>
      rw [hwr,Option.some_or,Option.some.injEq] at hw
      subst hw
      obtain ⟨rfl,hp,rfl⟩ := written_frame p hwr
      obtain ⟨m,dbuf,rest,-,-,rfl⟩ := step_pack p hp hs
      exact ⟨by simp [frames_cons,framedBy,hwr],_,rfl,cstr_reportFrame p s.hw rest⟩

/-- The state after the connection is established. -/
def connected (hw : Hardware) (mem : CharArray (LWS_PRE + WS_TX_MAX_LEN)) : State :=
  { start hw with pUser := some mem.1, wsiMulti := true, established := true }

theorem connected_run (hw : Hardware) (mem : CharArray (LWS_PRE + WS_TX_MAX_LEN)) :
    Exec (step p) (start hw) [(wsProtRegist (start hw) mem.1,.established),(start hw,.connect mem)]
      (connected hw mem) :=
  Exec.succ (Exec.succ Exec.refl rfl) rfl

theorem step_heartbeat_connected (hb : Heartbeat) (hw : Hardware)
    (mem : CharArray (LWS_PRE + WS_TX_MAX_LEN)) :
    step p (connected hw mem) (.heartbeat hb) = some (connected (hwHeartbeat hb hw) mem) := rfl

theorem step_pack_connected {hw : Hardware} (mem : CharArray (LWS_PRE + WS_TX_MAX_LEN))
    (hp : hw.pCache.any pending = true) (hfit : (reportFrame p hw).length < DBUF_LEN) :
    ∃ dbuf rest, WS_TX_MAX_LEN ≤ (reportFrame p hw ++ 0 :: rest).length ∧
      step p (connected hw mem) .pack = some (packed p (connected hw mem) dbuf rest) := by
  have hd : (reportFrame p hw).length < (connected hw mem).dbuf.length := by
    simpa [connected,start] using hfit
  have hm : (reportFrame p hw).length < mem.1.length := by
    have hle : DBUF_LEN = WS_TX_MAX_LEN := rfl
    rw [mem.2]
    omega
  obtain ⟨t,ht⟩ := step_pack_of_fits p (s := connected hw mem) rfl hp hd hm
  have hpacks : packs (connected hw mem) = true := by simpa [packs,connected,start] using hp
  obtain ⟨m,dbuf,rest,hmem,hlen,rfl⟩ := step_pack p hpacks ht
  cases hmem
  refine ⟨dbuf,rest,?_,ht⟩
  change (reportFrame p hw ++ 0 :: rest).length = _ at hlen
  rw [hlen,mem.2]
  exact Nat.le_add_left _ _

theorem step_writeable_of_fits {s : State} {m : Bytes} (hm : s.pUser = some m)
    (hlen : strlen m ≤ WS_TX_MAX_LEN) (hw : s.wsiMulti = true) (he : s.established = true) :
    step p s .writeable = some (transmitted s) := by
  simp [step,clientWriteable,hm,wsSendMsg_strlen,hlen,hw,he,transmitted]

theorem sentBy_of_fits {s : State} {m : Bytes} (hm : s.pUser = some m) (hlen : strlen m ≤ WS_TX_MAX_LEN) :
    sentBy s .writeable = some (cstr m) := by
  rw [sentBy,hm,Option.bind_some,wsSendMsg_strlen,if_pos hlen]

theorem step_receive_of_fits {s : State} {m frag : Bytes} (first fin : Bool) (hm : s.pUser = some m)
    (hlen : WS_TX_MAX_LEN ≤ m.length) (hfrag : frag.length ≤ RX_BUFFER_LEN)
    (hw : s.wsiMulti = true) (he : s.established = true) :
    step p s (.receive frag first fin) = some (received s frag (m.drop WS_TX_MAX_LEN)) := by
  rw [← clientReceive_eq hm hlen hfrag]
  simp [step,hw,he,hfrag]

end Link
end WddProc
