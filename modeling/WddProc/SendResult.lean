import WddProc.SrvWebsocket

/-!
# The result of a send

The callback that sends compares the `int` of `lws_write` with a `size_t`, so that the
negative results, which report a dead connection, count as large ones.
-/

namespace WddProc
namespace SendResult

open SrvWebsocket

/-- The conversion of an `int` to `size_t`. -/
def toSizeT (z : Int32) : ℕ := (z.toInt % 2^64).toNat

/-- `_ws_send_msg` where `lws_write` returns `rlen`; no result when the copy leaves `sbuf`. -/
def wsSendMsgResult (rlen : Int32) (msg : Bytes) (len : ℕ) : Option Int32 :=
  (wsSendMsg msg len).map fun _ => rlen

/-- `LWS_CALLBACK_CLIENT_WRITEABLE` on the session's buffer, with what the callback returns. -/
def clientWriteable (rlen : Int32) (pusr : CharArray (LWS_PRE + WS_TX_MAX_LEN)) : Option Int32 := do
  let rtn ← wsSendMsgResult rlen pusr.1 (strlen pusr.1)
  if toSizeT rtn < strlen pusr.1 then some (-1) else some 0

/-- The callback returns -1 exactly when fewer bytes were taken than it handed over. -/
def FailureNoticed (rlen : Int32) (pusr : CharArray (LWS_PRE + WS_TX_MAX_LEN)) : Prop :=
  clientWriteable rlen pusr = some (if rlen.toInt < strlen pusr.1 then -1 else 0)

theorem clientWriteable_eq (rlen : Int32) (pusr : CharArray (LWS_PRE + WS_TX_MAX_LEN)) :
    clientWriteable rlen pusr =
      if strlen pusr.1 ≤ WS_TX_MAX_LEN then
        some (if toSizeT rlen < strlen pusr.1 then -1 else 0)
      else none := by
  rw [clientWriteable,wsSendMsgResult,wsSendMsg_strlen]
  by_cases h : strlen pusr.1 ≤ WS_TX_MAX_LEN
  · rw [if_pos h,if_pos h,Option.map_some,Option.bind_eq_bind,Option.bind_some]
    split <;> rfl
  · rw [if_neg h,if_neg h]
    rfl

theorem toSizeT_of_nonneg {z : Int32} (h : 0 ≤ z.toInt) : (toSizeT z : ℤ) = z.toInt := by
  have hlt := z.toInt_lt
  unfold toSizeT
  omega

theorem lt_toSizeT_of_neg {z : Int32} (h : z.toInt < 0) : 2^63 < toSizeT z := by
  have hle := z.le_toInt
  unfold toSizeT
  omega

/-- A result that is not negative is judged as the numbers are, a negative one passes for a
complete send. -/
theorem toSizeT_lt_iff (z : Int32) {n : ℕ} (hn : n ≤ WS_TX_MAX_LEN) :
    (toSizeT z < n ↔ z.toInt < n) ↔ 0 ≤ z.toInt := by
  have hsmall : WS_TX_MAX_LEN < 2^63 := by decide
  rcases lt_or_ge z.toInt 0 with hneg | hnonneg
  · have hlarge := lt_toSizeT_of_neg hneg
    constructor
    · intro h
      have hlt := h.mpr (by omega)
      omega
    · intro h
      omega
  · have heq := toSizeT_of_nonneg hnonneg
    constructor
    · intro _
      exact hnonneg
    · intro _
      omega

theorem ite_eq_ite_iff {P Q : Prop} [Decidable P] [Decidable Q] :
    (if P then -1 else 0 : Int32) = (if Q then -1 else 0) ↔ (P ↔ Q) := by
  by_cases hP : P <;> by_cases hQ : Q <;> simp [hP,hQ]

/-- A failed send is noticed, and only that, exactly when the text fits the send buffer and
`lws_write` did not return a negative number. -/
theorem failure_noticed_iff (rlen : Int32) (pusr : CharArray (LWS_PRE + WS_TX_MAX_LEN)) :
    FailureNoticed rlen pusr ↔ strlen pusr.1 ≤ WS_TX_MAX_LEN ∧ 0 ≤ rlen.toInt := by
  rw [FailureNoticed,clientWriteable_eq]
  by_cases h : strlen pusr.1 ≤ WS_TX_MAX_LEN
  · rw [if_pos h,Option.some.injEq,ite_eq_ite_iff,toSizeT_lt_iff rlen h]
    exact (and_iff_right h).symm
  · rw [if_neg h]
    constructor
    · intro hno
      cases hno
    · rintro ⟨hle,-⟩
      exact absurd hle h

/-- One byte to send over a dead connection. -/
theorem dead_connection_unnoticed :
    ¬ FailureNoticed (-1) (CharArray.strncpyFrom (LWS_PRE + WS_TX_MAX_LEN) (CString.lit "x")) := by
  have hlen : strlen (strncpy (LWS_PRE + WS_TX_MAX_LEN) (CString.lit "x").bytes) = 1 := by
    rw [strlen,cstr_strncpy_take,CString.cstr_bytes]
    decide
  have hbytes : (CharArray.strncpyFrom (LWS_PRE + WS_TX_MAX_LEN) (CString.lit "x")).1 =
      strncpy (LWS_PRE + WS_TX_MAX_LEN) (CString.lit "x").bytes := rfl
  rw [FailureNoticed,clientWriteable_eq,hbytes,hlen]
  decide

end SendResult
end WddProc
