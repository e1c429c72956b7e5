import WddProc.Link
import WddProc.Mailbox

/-!
# Messages from the host

A receive callback and the worker pass messages through `p_user` as through a
mailbox with one slot. They agree with the mailbox as long as the worker only
finds whole messages that nothing has overwritten.
-/

namespace WddProc
namespace Downlink

open Hardware Report SrvWebsocket Link Trace

variable (p : Platform)

/-- What should be between host and worker: the fragments of an unfinished message and the
mailbox of finished ones. -/
structure Mail where
  begun : Bytes
  box : Mailbox Bytes

def looks (s : State) : Bool := s.established && s.wsiMulti

def mailStep (s : State) (e : Event) (m : Mail) : Mail :=
  match e with
  | .receive frag first fin =>
    let msg := (if first then [] else m.begun) ++ frag
    if fin then ⟨[],m.box.put msg⟩ else ⟨msg,m.box⟩
  | .consume => if looks s then ⟨m.begun,m.box.take⟩ else m
  | _ => m

def mail : History State Event → Mail
  | [] => ⟨[],Mailbox.empty⟩
  | (s,e) :: h => mailStep s e (mail h)

/-- The buffer holds exactly this message. -/
def Holds (s : State) (msg : Bytes) : Prop :=
  s.userLen = msg.length ∧
    ∃ rest, s.pUser = some (msg ++ List.replicate (WS_TX_MAX_LEN - msg.length) 0 ++ rest)

/-- The bytes that the worker handles in a step. -/
def handledBy (s : State) : Event → Option Bytes
  | .consume => if handles s then s.pUser.map fun m => m.take s.userLen else none
  | _ => none

def handled (h : History State Event) : List Bytes := h.filterMap fun (s,e) => handledBy s e

/-- When the worker handles, the buffer was last written with a message in one piece. -/
def FindsWhole (h : History State Event) (s : State) (e : Event) : Prop :=
  e = .consume → handles s = true → ∃ frag, lastWrite p h = some (.fragment frag true true)

/-- When the worker handles, the buffer holds the message that waits in the mailbox. -/
def HandlesWaiting (h : History State Event) (s : State) (e : Event) : Prop :=
  e = .consume → handles s = true → ∃ k msg, (mail h).box.slot = some (k,msg) ∧ Holds s msg

theorem handles_iff (s : State) : handles s = true ↔ looks s = true ∧ s.userState = .rx := by
  simp [handles,looks]

theorem handled_cons (s : State) (e : Event) (h : History State Event) :
    handled ((s,e) :: h) = (handledBy s e).toList ++ handled h := by
  simp only [handled,List.filterMap_cons]
  cases handledBy s e <;> rfl

theorem Holds.take {s : State} {msg m : Bytes} (h : Holds s msg) (hm : s.pUser = some m) :
    m.take s.userLen = msg := by
  obtain ⟨hlen,rest,hrest⟩ := h
  rw [hm,Option.some.injEq] at hrest
  rw [hrest,hlen]
  simp

theorem announced {s₀ s : State} {h : History State Event} (hr : Exec (step p) s₀ h s)
    (hslot : (mail h).box.slot ≠ none) : s.userState = .rx := by
  induction hr with
  | refl => exact absurd rfl hslot
  | succ hr hs ih =>
    rename_i h s t e
    cases e with
    | receive frag first fin =>
      obtain ⟨-,rest,rfl⟩ := step_receive p hs
      rfl
    | consume =>
      cases hl : looks s with
      | true => simp [mail,mailStep,hl] at hslot
      | false =>
        have hh : handles s = false := by
          rw [← Bool.not_eq_true,handles_iff,hl]
          simp
        rw [step_consume_idle p hh] at hs
        cases hs
        exact ih (by simpa [mail,mailStep,hl] using hslot)
    | _ =>
      rw [step_userState p hs (by simp) (by simp)]
      exact ih hslot

theorem whole_waits {s₀ s : State} {h : History State Event} (hr : Exec (step p) s₀ h s) {frag : Bytes}
    (hw : lastWrite p h = some (.fragment frag true true)) :
    s.userState = .rx ∧ Holds s frag ∧ ∃ k, (mail h).box.slot = some (k,frag) := by
  induction hr with
  | refl => cases hw
  | succ hr hs ih =>
    rename_i h s t e
    rw [lastWrite_cons] at hw
    cases hwr : written p s e with
    | some w =>
      rw [hwr,Option.some_or,Option.some.injEq] at hw
      subst hw
      obtain rfl := written_fragment p hwr
      obtain ⟨-,rest,rfl⟩ := step_receive p hs
      exact ⟨rfl,⟨rfl,rest,rfl⟩,_,rfl⟩
    | none =>
      rw [hwr,Option.none_or] at hw
      obtain ⟨hrx,⟨hlen,rest,hrest⟩,k,hk⟩ := ih hw
      obtain ⟨hu,hl,hst⟩ := step_unwritten p hwr hs
      refine ⟨hst.trans hrx,⟨hl.trans hlen,rest,hu.trans hrest⟩,k,?_⟩
      cases e with
      | receive frag' first fin => cases hwr
      | consume =>
        -- a worker that looks would have handled the message
        have hlook : looks s = false := by
          by_contra hno
          have hh : handles s = true := (handles_iff s).mpr ⟨by simpa using hno,hrx⟩
          simp [written,hh] at hwr
        simpa [mail,mailStep,hlook] using hk
      | _ => exact hk

theorem step_handlesWaiting {s₀ s : State} {h : History State Event} (hr : Exec (step p) s₀ h s)
    {e : Event} (hC : FindsWhole p h s e) : HandlesWaiting h s e := by
  intro he hh
  obtain ⟨frag,hfrag⟩ := hC he hh
  obtain ⟨-,hholds,k,hk⟩ := whole_waits p hr hfrag
  exact ⟨k,frag,hk,hholds⟩

/-- What the worker handles is what is taken from the mailbox. -/
theorem handled_eq_taken {s₀ s : State} {h : History State Event} (hr : Exec (step p) s₀ h s)
    (hC : Meets (FindsWhole p) h) : handled h = (mail h).box.taken.map Prod.snd := by
  induction hr with
  | refl => rfl
  | succ hr hs ih =>
    rename_i h s t e
    rw [handled_cons,ih hC.2]
    cases e with
    | receive frag first fin => cases fin <;> rfl
    | consume =>
      cases hh : handles s with
      | true =>
        obtain ⟨k,msg,hslot,hholds⟩ := step_handlesWaiting p hr hC.1 rfl hh
        obtain ⟨m,hm⟩ : ∃ m, s.pUser = some m := ⟨_,hholds.2.choose_spec⟩
        have hl := ((handles_iff s).mp hh).1
        have hby : handledBy s .consume = some msg := by
          rw [handledBy,if_pos hh,hm,Option.map_some,hholds.take hm]
        simp [hby,mail,mailStep,hl,hslot]
      | false =>
        cases hl : looks s with
        | false => simp [handledBy,hh,mail,mailStep,hl]
        | true =>
          have hslot : (mail h).box.slot = none := by
            by_contra hsome
            have hrx := announced p hr hsome
            exact absurd ((handles_iff s).mpr ⟨hl,hrx⟩) (by simp [hh])
          simp [handledBy,hh,mail,mailStep,hl,hslot]
    | _ => rfl

/-- In a run in which the worker finds whole messages only, it handles exactly the waiting
message each time, and every received message is waiting, handled once or replaced by a
later one, and only one of these. -/
theorem downlink_integrity {s₀ s : State} {h : History State Event} (hr : Exec (step p) s₀ h s)
    (hC : Meets (FindsWhole p) h) :
    Meets HandlesWaiting h ∧ handled h = (mail h).box.taken.map Prod.snd ∧
      ((mail h).box.slot.toList.map Prod.fst ++ (mail h).box.taken.map Prod.fst ++
        (mail h).box.replaced.map Prod.fst).Perm (List.range (mail h).box.received.length) ∧
      ∀ r ∈ (mail h).box.replaced, r.1 < r.2 ∧ r.2 < (mail h).box.received.length := by
  refine ⟨?_,handled_eq_taken p hr hC,(mail h).box.accounts,(mail h).box.later⟩
  induction hr with
  | refl => trivial
  | succ hr hs ih => exact ⟨step_handlesWaiting p hr hC.1,ih hC.2⟩

theorem received_length (frag rest : Bytes) :
    WS_TX_MAX_LEN ≤ (frag ++ List.replicate (WS_TX_MAX_LEN - frag.length) 0 ++ rest).length := by
  simp only [List.length_append,List.length_replicate]
  omega

theorem consume_run {s₀ s : State} {h : History State Event} {frag rest : Bytes}
    (hr : Exec (step p) s₀ h (received s frag rest)) (hw : s.wsiMulti = true) (he : s.established = true) :
    ∃ t, Exec (step p) s₀ ((received s frag rest,.consume) :: h) t := by
  have hh : handles (received s frag rest) = true := by simp [handles,received,hw,he]
  have hsome : (step p (received s frag rest) .consume).isSome := by
    have hlen := received_length frag rest
    simp only [step,msgHandle,hh,if_true]
    simp only [received,Option.bind_eq_bind,Option.bind_some,memset0_eq,if_pos hlen,Option.isSome_some]
  obtain ⟨t,ht⟩ := Option.isSome_iff_exists.mp hsome
  exact ⟨t,Exec.succ hr ht⟩

def object : Hardware := hwInfoInit (RtuInfo.device (CString.lit "COL:DA_IO_01") 1) .zero

theorem memory_length : WS_TX_MAX_LEN ≤ (CharArray.zero (LWS_PRE + WS_TX_MAX_LEN)).1.length := by
  rw [(CharArray.zero _).2]
  exact Nat.le_add_left _ _

theorem downlink_sample : ∃ h t, Exec (step .sample) (start object) h t ∧ handled h = [utf8 "a"] := by
  have hfrag : (utf8 "a").length ≤ RX_BUFFER_LEN := by decide
  have hrun := connected_run .sample object (CharArray.zero _)
  have hrecv := Exec.succ hrun (step_receive_of_fits .sample true true rfl memory_length hfrag rfl rfl)
  obtain ⟨t,hdone⟩ := consume_run .sample hrecv rfl rfl
  have hint := downlink_integrity .sample hdone
    ⟨fun _ _ => ⟨utf8 "a",rfl⟩,by simp [FindsWhole],by simp [FindsWhole],by simp [FindsWhole],trivial⟩
  exact ⟨_,_,hdone,hint.2.1⟩

/-- The second fragment of a message overwrites the first one. -/
theorem fragments_are_lost : ∃ h t, Exec (step .sample) (start object) h t ∧ ¬ Meets HandlesWaiting h := by
  have hfrag : (utf8 "a").length ≤ RX_BUFFER_LEN ∧ (utf8 "b").length ≤ RX_BUFFER_LEN := by decide
  have hrun := connected_run .sample object (CharArray.zero _)
  have hfirst := Exec.succ hrun (step_receive_of_fits .sample true false rfl memory_length hfrag.1 rfl rfl)
  have hsecond := Exec.succ hfirst
    (step_receive_of_fits .sample false true rfl (received_length _ _) hfrag.2 rfl rfl)
  obtain ⟨t,hdone⟩ := consume_run .sample hsecond rfl rfl
  refine ⟨_,_,hdone,fun hmeets => ?_⟩
  obtain ⟨k,msg,hslot,hlen,-⟩ := hmeets.1 rfl rfl
  cases hslot
  exact absurd hlen (by decide)

end Downlink
end WddProc
