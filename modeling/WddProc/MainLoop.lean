import WddProc.Link
import WddProc.Marking
import WddProc.Measurement

/-!
# The main loop

A round of `loop` runs the monitor and then, if some channel is pending and `p_user`
is there, packs a document and marks its channels as used. Over a whole run every
change of a channel comes into the next document and into no later one.
-/

namespace WddProc
namespace MainLoop

open Hardware Report SrvWebsocket Config

variable (p : Platform)

/-- What a round meets: the inputs of the monitor, and whether `p_user` is present. -/
structure Round where
  hb : Heartbeat
  pUser : Bool

/-- `ws_param_monitor` up to the document: the object afterwards and the text, if one is made. -/
def wsParamMonitor (hw : Hardware) (pUser : Bool) : Hardware × Option Bytes :=
  if hwLookCacheStatus (hw.pCache.map some) = HwDataStatus.uptare.toNat then
    if pUser then formatReport p hw else (hw,none)
  else (hw,none)

/-- One round of `loop`. -/
def loopRound (hw : Hardware) (r : Round) : Hardware × Option Bytes :=
  wsParamMonitor p (hwHeartbeat r.hb hw) r.pUser

/-- The object when round `k` begins. -/
def objectAt (hw : Hardware) (rounds : ℕ → Round) : ℕ → Hardware
  | 0 => hw
  | k + 1 => (loopRound p (objectAt hw rounds k) (rounds k)).1

/-- The object that `ws_heartbeat` finds in round `k`. -/
def monitoredAt (hw : Hardware) (rounds : ℕ → Round) (k : ℕ) : Hardware :=
  hwHeartbeat (rounds k).hb (objectAt p hw rounds k)

/-- The document built in round `k`. -/
def documentAt (hw : Hardware) (rounds : ℕ → Round) (k : ℕ) : Option Bytes :=
  (loopRound p (objectAt p hw rounds k) (rounds k)).2

theorem loopRound_eq (hw : Hardware) (r : Round) :
    loopRound p hw r =
      if r.pUser = true ∧ ∃ pd ∈ (hwHeartbeat r.hb hw).pCache, pd.status = .uptare then
        (markSent (hwHeartbeat r.hb hw),some (reportText p (hwHeartbeat r.hb hw)).bytes)
      else (hwHeartbeat r.hb hw,none) := by
  simp only [loopRound,wsParamMonitor,hwLookCacheStatus_eq_uptare,formatReport_eq]
  by_cases hu : r.pUser = true <;>
    by_cases hp : ∃ pd ∈ (hwHeartbeat r.hb hw).pCache, pd.status = .uptare <;> simp [hu,hp]

/-- A heartbeat and a pack step of the link make a round of the loop. -/
theorem step_loopRound {s t : Link.State} {hb : Heartbeat}
    (hs : (Link.step p s (.heartbeat hb)).bind (Link.step p · .pack) = some t) :
    t.hw = (loopRound p s.hw ⟨hb,s.pUser.isSome⟩).1 := by
  change Link.step p { s with hw := hwHeartbeat hb s.hw } .pack = some t at hs
  rw [loopRound_eq]
  cases hp : Link.packs { s with hw := hwHeartbeat hb s.hw } with
  | false =>
    rw [Link.step_pack_idle p hp,Option.some.injEq] at hs
    rw [if_neg (by simpa [Link.packs,pending] using hp),← hs]
  | true =>
    obtain ⟨m,dbuf,rest,-,-,rfl⟩ := Link.step_pack p hp hs
    rw [if_pos (by simpa [Link.packs,pending] using hp)]
    rfl

def marks (hw : Hardware) : Set ℕ := {i | ∃ pd, hw.pCache[i]? = some pd ∧ pd.status = .uptare}

def stored (hb : Heartbeat) (hw : Hardware) : Set ℕ :=
  {i | ∃ pd, hw.pCache[i]? = some pd ∧ F32.feq pd.val (reading hb hw.hwInfo.kind pd) = false}

theorem marks_hwHeartbeat (hb : Heartbeat) (hw : Hardware) :
    marks (hwHeartbeat hb hw) = marks hw ∪ stored hb hw := by
  ext i
  simp only [marks,stored,Set.mem_ofPred_eq,Set.mem_union,hwHeartbeat,hwParamMonitor_get?]
  cases hpd : hw.pCache[i]? with
  | none => simp
  | some pd =>
    rcases storeVal_cases hb i pd (reading hb hw.hwInfo.kind pd) with ⟨he,hst⟩ | ⟨he,-,hst,-⟩
    · simp [he,hst]
    · simp [he,hst]

theorem marks_markSent (hw : Hardware) : marks (markSent hw) = ∅ := by
  ext i
  simp only [marks,markSent,List.getElem?_map,Set.mem_ofPred_eq,Set.mem_empty_iff_false,iff_false]
  rintro ⟨pd,hpd,hst⟩
  obtain ⟨pd₀,-,rfl⟩ := Option.map_eq_some_iff.mp hpd
  unfold sent at hst
  split at hst
  · cases hst
  · exact absurd hst ‹_›

/-- A round keeps the marks it finds after the monitor, or reports them all. -/
theorem marks_loopRound (hw : Hardware) (r : Round) :
    marks (loopRound p hw r).1 =
      {i | i ∈ marks (hwHeartbeat r.hb hw) ∧ ¬ (loopRound p hw r).2.isSome} := by
  rw [loopRound_eq]
  split
  · simp [marks_markSent]
  · simp

theorem marks_booted {hw : Hardware} (h : Booted hw) : marks hw = {i | i < hw.nChNum} := by
  ext i
  constructor
  · rintro ⟨pd,hpd,-⟩
    exact (List.getElem?_eq_some_iff.mp hpd).1
  · intro hi
    exact ⟨hw.pCache[i],List.getElem?_eq_getElem hi,h.status (List.getElem_mem hi)⟩

/-- A run of the loop marks channels and flushes them with its documents. -/
def marking (hw : Hardware) (rounds : ℕ → Round) : Marking ℕ where
  first := marks hw
  changed k := stored (rounds k).hb (objectAt p hw rounds k)
  flushes k := (documentAt p hw rounds k).isSome
  marked k := marks (monitoredAt p hw rounds k)
  marked_zero := marks_hwHeartbeat _ _
  marked_succ k := by
    rw [monitoredAt,marks_hwHeartbeat,objectAt,marks_loopRound]
    rfl

/-- Every channel read of a heartbeat succeeds with a value that is not NaN. -/
def Reads (hb : Heartbeat) (hw : Hardware) : Prop :=
  ∀ pd ∈ hw.pCache, ∃ v,
    getGpioVal hb.real hw.hwInfo.kind pd.valType pd.gpio.io = some v ∧ v.isNaN = false

theorem objectAt_fixed (hw : Hardware) (rounds : ℕ → Round) (k : ℕ) :
    (objectAt p hw rounds k).hwInfo.kind = hw.hwInfo.kind ∧
      (objectAt p hw rounds k).nChNum = hw.nChNum := by
  induction k with
  | zero => exact ⟨rfl,rfl⟩
  | succ k ih =>
    rw [objectAt,loopRound_eq,← ih.1,← ih.2]
    split
    · simp [markSent,nChNum,hwHeartbeat,hwParamMonitor_pCache]
    · simp [hwHeartbeat]

theorem forall₂_findIdxs {α β : Type} (f : α → Bool) (g : α → β) (xs : List α) :
    List.Forall₂ (fun i y => ∃ x, xs[i]? = some x ∧ y = g x) (xs.findIdxs f) ((xs.filter f).map g) := by
  refine List.forall₂_iff_get.mpr ⟨by simp [List.countP_eq_length_filter],fun i hi hi' => ?_⟩
  have hlt : (xs.findIdxs f)[i] < xs.length := List.getElem_findIdxs_lt hi
  refine ⟨xs[(xs.findIdxs f)[i]],List.getElem?_eq_getElem hlt,?_⟩
  simp [List.getElem_filter_eq_getElem_getElem_findIdxs]

theorem documentAt_eq (hw : Hardware) (rounds : ℕ → Round) (k : ℕ) :
    documentAt p hw rounds k =
      if (rounds k).pUser = true ∧ ∃ pd ∈ (monitoredAt p hw rounds k).pCache, pd.status = .uptare then
        some (reportText p (monitoredAt p hw rounds k)).bytes
      else none := by
  rw [documentAt,loopRound_eq]
  exact apply_ite Prod.snd _ _ _

/-- A round without `p_user` and then rounds with it; the reading is always -1. -/
def lateRounds (k : ℕ) : Round := ⟨Measurement.badHeartbeat,decide (0 < k)⟩

end MainLoop
end WddProc
