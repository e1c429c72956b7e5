import WddProc.Trace

/-!
# The worker thread of the sub-protocol

The service thread runs `run_ws_client` with the callbacks of the library inside
its calls; the worker runs `test_callbake_msgHandle`. A worker is known by its
place among all created ones.
-/

namespace WddProc
namespace Threads

open Trace

inductive PthreadStatus
  | filish | run | init
  deriving DecidableEq

/-- The next statement of the worker: the assignment of `PTHREAD_RUN`, the body of its
loop, the test of the loop, or none. -/
inductive WorkerPc
  | start | body | test | exited
  deriving DecidableEq

structure Worker where
  pc : WorkerPc
  joined : Bool
  deriving DecidableEq

/-- Where the service thread is: in its loop, between `ws_prot_regist` and
`ws_prot_pthread_create`, or in `pthread_join` on the way to one of these. -/
inductive ServicePc
  | loop | registered
  | joining (back : Bool)
  deriving DecidableEq

def ServicePc.after (registering : Bool) : ServicePc := if registering then .registered else .loop

/-- `ws_prot[0]` as far as the threads use it. -/
structure State where
  pc : ServicePc
  wsiMulti : Bool
  established : Bool
  pthreadState : PthreadStatus
  pthreadSpam : Option ℕ
  workers : List Worker
  deriving DecidableEq

/-- What `lws_client_connect_via_info` does before it returns. -/
inductive Connect
  | pending
  | failed
  | error
  deriving DecidableEq

inductive Event
  | regist (c : Connect)
  | create (ok : Bool)
  | established
  | connectionError
  | closed
  | joined
  | worker (i : ℕ)
  deriving DecidableEq

/-- `LWS_CALLBACK_CLIENT_CONNECTION_ERROR` and `LWS_CALLBACK_CLIENT_CLOSED`, up to the
call of `pthread_join`. -/
def clientClosed (registering : Bool) (s : State) : State :=
  { s with
    pc := .joining registering
    wsiMulti := false
    established := false
    pthreadState := .filish }

/-- `ws_prot_regist`, as `run_ws_client` and `ws_client_monitor` call it without a connection. -/
def wsProtRegist (s : State) : Connect → State
  | .pending => { s with pc := .registered, wsiMulti := true }
  | .failed => { s with pc := .registered }
  | .error => clientClosed true s

/-- `ws_prot_pthread_create`; a failed `pthread_create` leaves no thread behind. -/
def wsProtPthreadCreate (s : State) (ok : Bool) : State :=
  if !s.wsiMulti then { s with pc := .loop }
  else if ok then
    { s with
      pc := .loop
      pthreadSpam := some s.workers.length
      workers := s.workers ++ [⟨.start,false⟩] }
  else { s with pc := .joining false, pthreadState := .filish, pthreadSpam := none }

def State.spam (s : State) : Option Worker := s.pthreadSpam.bind fun i => s.workers[i]?

/-- `pthread_join` returns when the worker has exited, and when there is nothing to join. -/
def joinReturns (s : State) (registering : Bool) : Option State :=
  match s.pthreadSpam, s.spam with
  | some i, some w =>
    if w.joined then some { s with pc := .after registering }
    else if w.pc = .exited then
      some { s with pc := .after registering, workers := s.workers.set i ⟨.exited,true⟩ }
    else none
  | _, _ => some { s with pc := .after registering }

def State.move (s : State) (i : ℕ) (pc : WorkerPc) : State :=
  { s with workers := s.workers.set i ⟨pc,false⟩ }

/-- One statement of `test_callbake_msgHandle`. -/
def msgHandle (s : State) (i : ℕ) : Option State :=
  match s.workers[i]?.map Worker.pc with
  | some .start => some { s.move i .body with pthreadState := .run }
  | some .body => some (s.move i .test)
  | some .test => some (s.move i (if s.pthreadState = .filish then .exited else .body))
  | _ => none

def step (s : State) : Event → Option State
  | .regist c => if s.pc = .loop ∧ !s.wsiMulti then some (wsProtRegist s c) else none
  | .create ok => if s.pc = .registered then some (wsProtPthreadCreate s ok) else none
  | .established =>
    if s.pc = .loop ∧ s.wsiMulti ∧ !s.established then some { s with established := true } else none
  | .connectionError =>
    if s.pc = .loop ∧ s.wsiMulti ∧ !s.established then some (clientClosed false s) else none
  | .closed => if s.pc = .loop ∧ s.established then some (clientClosed false s) else none
  | .joined =>
    match s.pc with
    | .joining registering => joinReturns s registering
    | _ => none
  | .worker i => msgHandle s i

def start : State where
  pc := .loop
  wsiMulti := false
  established := false
  pthreadState := .init
  pthreadSpam := none
  workers := []

/-- `pthread_spam` names a created thread that has not been joined. -/
def State.Live (s : State) : Prop :=
  ∃ i w, s.pthreadSpam = some i ∧ s.workers[i]? = some w ∧ w.joined = false

inductive Moves (s : State) : Event → State → Prop
  | regist (c : Connect) : s.pc = .loop → s.wsiMulti = false →
      Moves s (.regist c) (wsProtRegist s c)
  | create (ok : Bool) : s.pc = .registered → Moves s (.create ok) (wsProtPthreadCreate s ok)
  | established : s.pc = .loop → s.wsiMulti = true →
      Moves s .established { s with established := true }
  | connectionError : s.pc = .loop → s.wsiMulti = true →
      Moves s .connectionError (clientClosed false s)
  | closed : s.pc = .loop → s.established = true → Moves s .closed (clientClosed false s)
  | nothing (registering : Bool) : s.pc = .joining registering → ¬ s.Live →
      Moves s .joined { s with pc := .after registering }
  | joined (registering : Bool) (i : ℕ) : s.pc = .joining registering → s.pthreadSpam = some i →
      s.workers[i]? = some ⟨.exited,false⟩ →
      Moves s .joined
        { s with pc := .after registering, workers := s.workers.set i ⟨.exited,true⟩ }
  | start (i : ℕ) (j : Bool) : s.workers[i]? = some ⟨.start,j⟩ →
      Moves s (.worker i) { s.move i .body with pthreadState := .run }
  | body (i : ℕ) (j : Bool) : s.workers[i]? = some ⟨.body,j⟩ → Moves s (.worker i) (s.move i .test)
  | again (i : ℕ) (j : Bool) : s.workers[i]? = some ⟨.test,j⟩ → s.pthreadState ≠ .filish →
      Moves s (.worker i) (s.move i .body)
  | exit (i : ℕ) (j : Bool) : s.workers[i]? = some ⟨.test,j⟩ → s.pthreadState = .filish →
      Moves s (.worker i) (s.move i .exited)

theorem moves_of_joinReturns {s t : State} {registering : Bool} (hpc : s.pc = .joining registering)
    (h : joinReturns s registering = some t) : Moves s .joined t := by
  unfold joinReturns at h
  split at h
  · rename_i i w hi hw
    have hwi : s.workers[i]? = some w := by simpa [State.spam,hi] using hw
    split_ifs at h with hj he
    · cases h
      refine Moves.nothing registering hpc ?_
      rintro ⟨i',w',hi',hw',hj'⟩
      simp_all
    · cases h
      refine Moves.joined registering i hpc hi ?_
      obtain ⟨pc,j⟩ := w
      simp_all
  · rename_i hno
    cases h
    refine Moves.nothing registering hpc ?_
    rintro ⟨i,w,hi,hw,-⟩
    exact hno i w hi (by simpa [State.spam,hi] using hw)

theorem moves_of_msgHandle {s t : State} {i : ℕ} (h : msgHandle s i = some t) :
    Moves s (.worker i) t := by
  unfold msgHandle at h
  cases hw : s.workers[i]? with
  | none => simp [hw] at h
  | some w =>
    obtain ⟨pc,j⟩ := w
    cases pc with
    | start =>
      simp only [hw,Option.map_some,Option.some.injEq] at h
      exact h ▸ Moves.start i j hw
    | body =>
      simp only [hw,Option.map_some,Option.some.injEq] at h
      exact h ▸ Moves.body i j hw
    | test =>
      simp only [hw,Option.map_some,Option.some.injEq] at h
      split at h
      · rename_i hf
        exact h ▸ Moves.exit i j hw hf
      · rename_i hf
        exact h ▸ Moves.again i j hw hf
    | exited => simp [hw] at h

theorem moves_of_step {s t : State} {e : Event} (h : step s e = some t) : Moves s e t := by
  cases e with
  | joined =>
    simp only [step] at h
    split at h
    · rename_i registering hpc
      exact moves_of_joinReturns hpc h
    · cases h
  | worker i => exact moves_of_msgHandle h
  | regist c =>
    obtain ⟨hg,ht⟩ := Option.ite_none_right_eq_some.mp h
    cases ht
    exact Moves.regist c hg.1 (by simpa using hg.2)
  | create ok =>
    obtain ⟨hg,ht⟩ := Option.ite_none_right_eq_some.mp h
    cases ht
    exact Moves.create ok hg
  | established =>
    obtain ⟨hg,ht⟩ := Option.ite_none_right_eq_some.mp h
    cases ht
    exact Moves.established hg.1 hg.2.1
  | connectionError =>
    obtain ⟨hg,ht⟩ := Option.ite_none_right_eq_some.mp h
    cases ht
    exact Moves.connectionError hg.1 hg.2.1
  | closed =>
    obtain ⟨hg,ht⟩ := Option.ite_none_right_eq_some.mp h
    cases ht
    exact Moves.closed hg.1 hg.2

/-- A thread that has been joined has exited, and one that has not been belongs to the
connection that exists or is being closed. -/
structure Inv (s : State) : Prop where
  joined : ∀ (i : ℕ) (w : Worker), s.workers[i]? = some w → w.joined = true → w.pc = .exited
  unjoined : ∀ (i : ℕ) (w : Worker), s.workers[i]? = some w → w.joined = false →
    s.pthreadSpam = some i ∧ (s.pc = .loop ∧ s.wsiMulti = true ∨ s.pc = .joining false)
  established : s.established = true → s.wsiMulti = true

theorem inv_start : Inv start := by
  constructor <;> simp [start]

theorem Inv.all_joined {s : State} (h : Inv s)
    (hpc : ¬ (s.pc = .loop ∧ s.wsiMulti = true ∨ s.pc = .joining false)) :
    ∀ w ∈ s.workers, w.joined = true := by
  intro w hw
  obtain ⟨i,hi⟩ := List.mem_iff_getElem?.mp hw
  by_contra hj
  exact hpc (h.unjoined i w hi (by simpa using hj)).2

theorem getElem?_set_cases {α : Type} {l : List α} {i j : ℕ} {a b : α}
    (h : (l.set i a)[j]? = some b) : j = i ∧ b = a ∨ j ≠ i ∧ l[j]? = some b := by
  rw [List.getElem?_set] at h
  split_ifs at h with hij hl
  · cases h
    exact Or.inl ⟨hij.symm,rfl⟩
  · exact Or.inr ⟨fun hh => hij hh.symm,h⟩

theorem Inv.running {s : State} (h : Inv s) {i : ℕ} {pc : WorkerPc} {j : Bool}
    (hw : s.workers[i]? = some ⟨pc,j⟩) (hpc : pc ≠ .exited) : j = false := by
  cases j with
  | false => rfl
  | true => exact absurd (h.joined i _ hw rfl) hpc

theorem Inv.move {s : State} (h : Inv s) {i : ℕ} {pc pc' : WorkerPc} {j : Bool}
    (hw : s.workers[i]? = some ⟨pc,j⟩) (hpc : pc ≠ .exited) : Inv (s.move i pc') := by
  have hj := h.running hw hpc
  refine ⟨?_,?_,h.established⟩
  · intro k w hk hjoined
    rcases getElem?_set_cases hk with ⟨-,rfl⟩ | ⟨-,hk⟩
    · simp at hjoined
    · exact h.joined k w hk hjoined
  · intro k w hk hjoined
    rcases getElem?_set_cases hk with ⟨rfl,-⟩ | ⟨-,hk⟩
    · exact h.unjoined k _ hw hj
    · exact h.unjoined k w hk hjoined

theorem Inv.of_all_joined {s t : State} (h : Inv s) (hall : ∀ w ∈ s.workers, w.joined = true)
    (hw : t.workers = s.workers) (hest : t.established = true → t.wsiMulti = true) : Inv t := by
  refine ⟨?_,?_,hest⟩
  · intro i w hi hj
    exact h.joined i w (hw ▸ hi) hj
  · intro i w hi hj
    have hmem : w ∈ s.workers := hw ▸ List.mem_of_getElem? hi
    simp [hall w hmem] at hj

theorem Inv.closed {s : State} (h : Inv s) : Inv (clientClosed false s) := by
  refine ⟨h.joined,?_,?_⟩
  · intro i w hi hj
    exact ⟨(h.unjoined i w hi hj).1,Or.inr rfl⟩
  · simp [clientClosed]

theorem inv_step {s t : State} {e : Event} (h : Inv s) (hs : step s e = some t) : Inv t := by
  cases moves_of_step hs with
  | regist c hpc hwsi =>
    have hall := h.all_joined (by simp [hpc,hwsi])
    have hest : s.established = false := by
      cases he : s.established with
      | false => rfl
      | true => simp [h.established he] at hwsi
    cases c <;> exact h.of_all_joined hall rfl (by simp [wsProtRegist,clientClosed,hest])
  | create ok hpc =>
    have hall := h.all_joined (by simp [hpc])
    unfold wsProtPthreadCreate
    split_ifs with hwsi hok
    · exact h.of_all_joined hall rfl h.established
    · refine ⟨?_,?_,h.established⟩
      · intro i w hi hj
        rcases List.mem_append.mp (List.mem_of_getElem? hi) with hm | hm
        · obtain ⟨k,hk⟩ := List.mem_iff_getElem?.mp hm
          exact h.joined k w hk hj
        · simp_all
      · intro i w hi hj
        have hwsi' : s.wsiMulti = true := by simpa using hwsi
        rcases Nat.lt_trichotomy i s.workers.length with hlt | rfl | hgt
        · rw [List.getElem?_append_left hlt] at hi
          simp [hall w (List.mem_of_getElem? hi)] at hj
        · exact ⟨rfl,Or.inl ⟨rfl,hwsi'⟩⟩
        · rw [List.getElem?_eq_none (by simp; omega)] at hi
          cases hi
    · exact h.of_all_joined hall rfl h.established
  | established hpc hwsi => exact ⟨h.joined,h.unjoined,fun _ => hwsi⟩
  | connectionError hpc hwsi => exact h.closed
  | closed hpc hest => exact h.closed
  | nothing registering hpc hno =>
    refine h.of_all_joined ?_ rfl h.established
    intro w hw
    obtain ⟨i,hi⟩ := List.mem_iff_getElem?.mp hw
    by_contra hj
    have hj' : w.joined = false := by simpa using hj
    exact hno ⟨i,w,(h.unjoined i w hi hj').1,hi,hj'⟩
  | joined registering i hpc hspam hw =>
    refine ⟨?_,?_,h.established⟩
    · intro k w hk hj
      rcases getElem?_set_cases hk with ⟨-,rfl⟩ | ⟨-,hk⟩
      · rfl
      · exact h.joined k w hk hj
    · intro k w hk hj
      rcases getElem?_set_cases hk with ⟨-,rfl⟩ | ⟨hki,hk⟩
      · cases hj
      · have hk' := (h.unjoined k w hk hj).1
        rw [hspam,Option.some.injEq] at hk'
        exact absurd hk'.symm hki
  | start i j hw =>
    have hm : Inv (s.move i .body) := h.move hw (by decide)
    exact ⟨hm.joined,hm.unjoined,hm.established⟩
  | body i j hw => exact h.move hw (by decide)
  | again i j hw hf => exact h.move hw (by decide)
  | exit i j hw hf => exact h.move hw (by decide)

/-- Every join waits for a thread that was created and has not been joined. -/
def JoinsLive (s : State) : Prop := ∀ registering, s.pc = .joining registering → s.Live

/-- The step creates a worker. -/
def Creates (s : State) (e : Event) : Prop := e = .create true ∧ s.wsiMulti = true

/-- Joins are sound, and a worker is created only after all before it were joined. -/
def LifeCycle : History State Event → State → Prop
  | [], s => JoinsLive s
  | (s,e) :: _, t => JoinsLive t ∧ (Creates s e → ∀ w ∈ s.workers, w.joined = true)

/-- No connection fails inside `lws_client_connect_via_info` with a callback, and no
`pthread_create` fails for a connection. -/
def Reliable (s : State) (e : Event) : Prop :=
  e ≠ .regist .error ∧ ¬ (e = .create false ∧ s.wsiMulti = true)

instance (s : State) (e : Event) : Decidable (Reliable s e) :=
  inferInstanceAs (Decidable (_ ∧ _))

/-- A connection has a worker from its creation to the join. -/
structure Served (s : State) : Prop where
  pc : s.pc ≠ .joining true
  connected : s.pc = .loop → s.wsiMulti = true → s.Live
  joining : s.pc = .joining false → s.wsiMulti = false ∧ s.Live

theorem served_start : Served start := by
  constructor <;> simp [start]

theorem Served.joinsLive {s : State} (h : Served s) : JoinsLive s := by
  intro registering hpc
  cases registering with
  | true => exact absurd hpc h.pc
  | false => exact (h.joining hpc).2

theorem State.Live.move {s : State} (h : s.Live) (i : ℕ) (pc : WorkerPc) : (s.move i pc).Live := by
  obtain ⟨k,w,hk,hw,hj⟩ := h
  have hlt := (List.getElem?_eq_some_iff.mp hw).1
  by_cases hik : i = k
  · subst hik
    exact ⟨i,⟨pc,false⟩,hk,by simp [State.move,hlt],rfl⟩
  · exact ⟨k,w,hk,by simp [State.move,hik,hw],hj⟩

theorem Served.move {s : State} (h : Served s) (i : ℕ) (pc : WorkerPc) : Served (s.move i pc) where
  pc := h.pc
  connected hpc hwsi := (h.connected hpc hwsi).move i pc
  joining hpc := ⟨(h.joining hpc).1,(h.joining hpc).2.move i pc⟩

theorem Served.closed {s : State} (h : s.Live) : Served (clientClosed false s) where
  pc := by simp [clientClosed]
  connected := by simp [clientClosed]
  joining _ := ⟨rfl,h⟩

theorem served_step {s t : State} {e : Event} (hi : Inv s) (h : Served s) (hs : step s e = some t)
    (he : Reliable s e) : Served t := by
  cases moves_of_step hs with
  | regist c hpc hwsi =>
    cases c with
    | pending => constructor <;> simp [wsProtRegist]
    | failed => constructor <;> simp [wsProtRegist]
    | error => exact absurd rfl he.1
  | create ok hpc =>
    unfold wsProtPthreadCreate
    split_ifs with hwsi hok
    · constructor <;> simp_all
    · refine ⟨by simp,fun _ _ => ?_,by simp⟩
      exact ⟨s.workers.length,⟨.start,false⟩,rfl,by simp,rfl⟩
    · exact absurd ⟨by simpa using hok,by simpa using hwsi⟩ he.2
  | established hpc hwsi => exact ⟨h.pc,h.connected,h.joining⟩
  | connectionError hpc hwsi => exact Served.closed (h.connected hpc hwsi)
  | closed hpc hest => exact Served.closed (h.connected hpc (hi.established hest))
  | nothing registering hpc hno => exact absurd (h.joinsLive registering hpc) hno
  | joined registering i hpc hspam hw =>
    obtain rfl : registering = false := by
      cases registering with
      | true => exact absurd hpc h.pc
      | false => rfl
    have hwsi := (h.joining hpc).1
    constructor <;> simp [ServicePc.after,hwsi]
  | start i j hw =>
    have hm := h.move i .body
    exact ⟨hm.pc,hm.connected,hm.joining⟩
  | body i j hw => exact h.move i .test
  | again i j hw hf => exact h.move i .body
  | exit i j hw hf => exact h.move i .exited

theorem reliable_of_joinsLive {s t : State} {e : Event} (hi : Inv s) (hs : step s e = some t)
    (h : JoinsLive t) : Reliable s e := by
  constructor
  · rintro rfl
    cases moves_of_step hs with
    | regist c hpc hwsi =>
      -- without a connection there is no thread left to join
      obtain ⟨i,w,-,hw,hj⟩ := h true rfl
      have hall := hi.all_joined (by simp [hpc,hwsi])
      simp [hall w (List.mem_of_getElem? hw)] at hj
  · rintro ⟨rfl,hwsi⟩
    cases moves_of_step hs with
    | create ok hpc =>
      simp only [wsProtPthreadCreate,hwsi,Bool.not_true,Bool.false_eq_true,if_false] at h
      obtain ⟨i,w,hi,-⟩ := h false rfl
      cases hi

/-- In every run, joins and creations of the worker are sound exactly when no connection
fails with a callback inside the connect call and every `pthread_create` succeeds. -/
theorem lifeCycle_iff {h : History State Event} {s : State} (hr : Exec step start h s) :
    Always LifeCycle h s ↔ Meets (fun _ => Reliable) h := by
  refine Exec.always_iff_of_invariant (J := fun _ s => Inv s ∧ Served s)
    served_start.joinsLive ⟨inv_start,served_start⟩ ?_ ?_ hr
  · rintro h s e t ⟨hi,hserved⟩ hs he
    have ht := served_step hi hserved hs he
    refine ⟨⟨ht.joinsLive,?_⟩,inv_step hi hs,ht⟩
    rintro ⟨rfl,-⟩
    cases moves_of_step hs with
    | create ok hpc => exact hi.all_joined (by simp [hpc])
  · rintro h s e t ⟨hi,-⟩ hs ⟨hlive,-⟩
    exact reliable_of_joinsLive hi hs hlive

def reconnects : List Event :=
  [.regist .pending,.create true,.worker 0,.established,.worker 0,.closed,.worker 0,.joined,
    .regist .pending,.create true,.connectionError]

theorem lifeCycle_reconnects :
    ∃ h s, Trace.play step [] start reconnects = some (h,s) ∧ Always LifeCycle h s := by
  have hmeets : (Trace.play step [] start reconnects).map
      (fun r => decide (Meets (fun _ => Reliable) r.1)) = some true := by decide
  obtain ⟨⟨h,s⟩,hp,hm⟩ := Option.map_eq_some_iff.mp hmeets
  exact ⟨h,s,hp,(lifeCycle_iff (Exec.refl.play hp)).mpr (of_decide_eq_true hm)⟩

/-- The first connection fails inside the connect call: its callback joins a thread that
was never created. -/
theorem join_before_create :
    ¬ ∀ h s, Exec step start h s → Always LifeCycle h s := by
  intro hall
  have hr : Exec step start [(start,.regist .error)] (wsProtRegist start .error) :=
    Exec.succ Exec.refl rfl
  obtain ⟨⟨hlive,-⟩,-⟩ := hall _ _ hr
  obtain ⟨i,w,hi,-⟩ := hlive true rfl
  cases hi

/-- The service thread is in `pthread_join` for a worker that has not exited. -/
structure WaitsFor (s : State) (i : ℕ) (w : Worker) : Prop where
  pc : ∃ registering, s.pc = .joining registering
  spam : s.pthreadSpam = some i
  worker : s.workers[i]? = some w
  running : w.pc ≠ .exited

/-- The steps that one worker can take on its own. -/
def workerStep (i : ℕ) (s : State) (_ : Unit) : Option State := msgHandle s i

/-- The signal reaches the worker: none of its steps takes it back, its next test ends its
loop, and then the join can return. -/
structure Stopped (s : State) (i : ℕ) : Prop where
  flag : s.pthreadState = .filish
  kept : ∀ h t, Exec (workerStep i) s h t → t.pthreadState = .filish
  leaves : ∀ h t u j, Exec (workerStep i) s h t → t.workers[i]? = some ⟨.test,j⟩ →
    msgHandle t i = some u → u.workers[i]? = some ⟨.exited,false⟩
  returns : ∃ h t, Exec (workerStep i) s h t ∧ (step t .joined).isSome = true

def StopKept (s : State) : Prop := ∀ i w, WaitsFor s i w → Stopped s i

/-- Stopped while it has its assignment behind it. -/
structure Stopping (s : State) (i : ℕ) : Prop where
  pc : ∃ registering, s.pc = .joining registering
  spam : s.pthreadSpam = some i
  flag : s.pthreadState = .filish
  past : ∃ pc, s.workers[i]? = some ⟨pc,false⟩ ∧ pc ≠ .start

theorem Stopping.move {s : State} {i : ℕ} (h : Stopping s i) {pc : WorkerPc} (hpc : pc ≠ .start) :
    Stopping (s.move i pc) i := by
  obtain ⟨pc',hw,-⟩ := h.past
  have hlt := (List.getElem?_eq_some_iff.mp hw).1
  exact ⟨h.pc,h.spam,h.flag,pc,by simp [State.move,hlt],hpc⟩

theorem Stopping.step {s t : State} {i : ℕ} (h : Stopping s i) (hs : msgHandle s i = some t) :
    Stopping t i := by
  obtain ⟨pc,hw,hpc⟩ := h.past
  cases moves_of_msgHandle hs with
  | start _ j hw' =>
    rw [hw] at hw'
    cases hw'
    exact absurd rfl hpc
  | body _ j hw' => exact h.move (by decide)
  | again _ j hw' hf => exact absurd h.flag hf
  | exit _ j hw' hf => exact h.move (by decide)

theorem Stopping.run {s t : State} {i : ℕ} {h : History State Unit} (hi : Stopping s i)
    (hr : Exec (workerStep i) s h t) : Stopping t i :=
  Exec.invariant_all (I := fun _ t => Stopping t i) hi (fun _ _ _ _ h hs => h.step hs) hr

theorem Stopping.returns {s : State} {i : ℕ} (h : Stopping s i) :
    ∃ h t, Exec (workerStep i) s h t ∧ (Threads.step t .joined).isSome = true := by
  have hjoin {t : State} (ht : Stopping t i) (hw : t.workers[i]? = some ⟨.exited,false⟩) :
      (Threads.step t .joined).isSome = true := by
    obtain ⟨registering,hpc⟩ := ht.pc
    simp [Threads.step,hpc,joinReturns,State.spam,ht.spam,hw]
  have hset {t : State} {pc pc' : WorkerPc} (hw : t.workers[i]? = some ⟨pc,false⟩) :
      (t.move i pc').workers[i]? = some ⟨pc',false⟩ := by
    simp [State.move,(List.getElem?_eq_some_iff.mp hw).1]
  have htest {t : State} (ht : Stopping t i) (hw : t.workers[i]? = some ⟨.test,false⟩) :
      ∃ u, msgHandle t i = some u ∧ (Threads.step u .joined).isSome = true := by
    have hs : msgHandle t i = some (t.move i .exited) := by simp [msgHandle,hw,ht.flag]
    exact ⟨_,hs,hjoin (ht.step hs) (hset hw)⟩
  obtain ⟨pc,hw,hpc⟩ := h.past
  cases pc with
  | start => exact absurd rfl hpc
  | body =>
    have hs : msgHandle s i = some (s.move i .test) := by simp [msgHandle,hw]
    obtain ⟨u,hu,hret⟩ := htest (h.step hs) (hset hw)
    exact ⟨_,u,Exec.succ (e := ()) (Exec.succ (e := ()) Exec.refl hs) hu,hret⟩
  | test =>
    obtain ⟨u,hu,hret⟩ := htest h hw
    exact ⟨_,u,Exec.succ (e := ()) Exec.refl hu,hret⟩
  | exited => exact ⟨[],s,Exec.refl,hjoin h hw⟩

theorem Stopping.stopped {s : State} {i : ℕ} (h : Stopping s i) : Stopped s i where
  flag := h.flag
  kept _ _ hr := (h.run hr).flag
  leaves _ t u j hr hw hs := by
    have ht := h.run hr
    cases moves_of_msgHandle hs with
    | exit _ j hw' hf => simp [State.move,(List.getElem?_eq_some_iff.mp hw).1]
    | again _ j hw' hf => exact absurd ht.flag hf
    | start _ j hw' => simp [hw] at hw'
    | body _ j hw' => simp [hw] at hw'
  returns := h.returns

/-- The signal is safe exactly when the worker has its assignment behind it. -/
theorem stopped_iff {s : State} {i : ℕ} {w : Worker} (hi : Inv s) (h : WaitsFor s i w) :
    Stopped s i ↔ s.pthreadState = .filish ∧ w.pc ≠ .start := by
  obtain ⟨pc,j⟩ := w
  obtain rfl := hi.running h.worker h.running
  constructor
  · intro hst
    refine ⟨hst.flag,?_⟩
    rintro rfl
    have hs : msgHandle s i = some { s.move i .body with pthreadState := .run } := by
      simp [msgHandle,h.worker]
    have hrun := hst.kept _ _ (Exec.succ (e := ()) Exec.refl hs)
    cases hrun
  · rintro ⟨hf,hpc⟩
    exact Stopping.stopped ⟨h.pc,h.spam,hf,pc,h.worker,hpc⟩

/-- A callback that ends the connection comes after the worker's own assignment. -/
def StartedBeforeStop (s : State) (e : Event) : Prop :=
  e = .connectionError ∨ e = .closed → s.spam.map Worker.pc ≠ some .start

instance (s : State) (e : Event) : Decidable (StartedBeforeStop s e) :=
  inferInstanceAs (Decidable (_ → _))

theorem WaitsFor.of_move {s : State} (hi : Inv s) {i k : ℕ} {pc pc' : WorkerPc} {j : Bool} {w : Worker}
    (hk : s.workers[k]? = some ⟨pc,j⟩) (hpc : pc ≠ .exited) (h : WaitsFor (s.move k pc') i w) :
    k = i ∧ WaitsFor s i ⟨pc,j⟩ ∧ w = ⟨pc',false⟩ := by
  -- the worker that moves has not been joined, so it is the one being joined
  have hspam := (hi.unjoined k _ hk (hi.running hk hpc)).1
  have hki : k = i := Option.some.inj (hspam.symm.trans h.spam)
  subst hki
  refine ⟨rfl,⟨h.pc,h.spam,hk,hpc⟩,?_⟩
  rcases getElem?_set_cases h.worker with ⟨-,hw⟩ | ⟨hne,-⟩
  · exact hw
  · exact absurd rfl hne

theorem stopKept_of_not_joining {s : State} (h : ∀ registering, s.pc ≠ .joining registering) :
    StopKept s := by
  rintro i w ⟨⟨registering,hpc⟩,-⟩
  exact absurd hpc (h registering)

theorem spam_eq {s : State} {i : ℕ} (h : s.pthreadSpam = some i) : s.spam = s.workers[i]? := by
  simp [State.spam,h]

theorem stopKept_closed_iff {s : State} (hi : Inv s) :
    StopKept (clientClosed false s) ↔ s.spam.map Worker.pc ≠ some .start := by
  constructor
  · intro hk hstart
    obtain ⟨w,hw,hpc⟩ := Option.map_eq_some_iff.mp hstart
    obtain ⟨i,hspam,hwi⟩ := Option.bind_eq_some_iff.mp hw
    have hwait : WaitsFor (clientClosed false s) i w := ⟨⟨false,rfl⟩,hspam,hwi,by simp [hpc]⟩
    exact ((stopped_iff hi.closed hwait).mp (hk i w hwait)).2 hpc
  · intro h i w hw
    refine (stopped_iff hi.closed hw).mpr ⟨rfl,fun hpc => h ?_⟩
    have hspam : s.pthreadSpam = some i := hw.spam
    have hwi : s.workers[i]? = some w := hw.worker
    rw [spam_eq hspam,hwi,Option.map_some,hpc]

theorem stopKept_move {s t : State} {i : ℕ} (hi : Inv s) (h : StopKept s)
    (hs : step s (.worker i) = some t) : StopKept t := by
  have hit := inv_step hi hs
  intro k w hw
  cases moves_of_step hs with
  | start _ j hw' =>
    have hmove : WaitsFor (s.move i .body) k w := ⟨hw.pc,hw.spam,hw.worker,hw.running⟩
    obtain ⟨rfl,hs',-⟩ := hmove.of_move hi hw' (by decide)
    exact absurd rfl ((stopped_iff hi hs').mp (h i _ hs')).2
  | body _ j hw' =>
    obtain ⟨rfl,hs',rfl⟩ := hw.of_move hi hw' (by decide)
    have hf := ((stopped_iff hi hs').mp (h i _ hs')).1
    exact (stopped_iff hit hw).mpr ⟨hf,by decide⟩
  | again _ j hw' hf =>
    obtain ⟨rfl,hs',rfl⟩ := hw.of_move hi hw' (by decide)
    exact absurd ((stopped_iff hi hs').mp (h i _ hs')).1 hf
  | exit _ j hw' hf =>
    obtain ⟨rfl,hs',rfl⟩ := hw.of_move hi hw' (by decide)
    exact absurd rfl hw.running

theorem stopKept_step {s t : State} {e : Event} (hi : Inv s) (h : StopKept s)
    (hs : step s e = some t) (he : StartedBeforeStop s e) : StopKept t := by
  cases moves_of_step hs with
  | regist c hpc hwsi =>
    cases c with
    | pending => exact stopKept_of_not_joining (by simp [wsProtRegist])
    | failed => exact stopKept_of_not_joining (by simp [wsProtRegist])
    | error =>
      -- every worker has been joined, so there is none to wait for
      intro i w hw
      have hj := hi.all_joined (by simp [hpc,hwsi]) w (List.mem_of_getElem? hw.worker)
      exact absurd (hi.joined i w hw.worker hj) hw.running
  | create ok hpc =>
    unfold wsProtPthreadCreate
    split_ifs with hwsi hok
    · exact stopKept_of_not_joining (by simp)
    · exact stopKept_of_not_joining (by simp)
    · rintro i w ⟨-,hspam,-⟩
      cases hspam
  | established hpc hwsi => exact stopKept_of_not_joining (by simp [hpc])
  | connectionError hpc hwsi => exact (stopKept_closed_iff hi).mpr (he (Or.inl rfl))
  | closed hpc hest => exact (stopKept_closed_iff hi).mpr (he (Or.inr rfl))
  | nothing registering hpc hno =>
    exact stopKept_of_not_joining (by cases registering <;> simp [ServicePc.after])
  | joined registering i hpc hspam hw =>
    exact stopKept_of_not_joining (by cases registering <;> simp [ServicePc.after])
  | start i j hw => exact stopKept_move hi h hs
  | body i j hw => exact stopKept_move hi h hs
  | again i j hw hf => exact stopKept_move hi h hs
  | exit i j hw hf => exact stopKept_move hi h hs

theorem startedBeforeStop_of_stopKept {s t : State} {e : Event} (hi : Inv s)
    (hs : step s e = some t) (h : StopKept t) : StartedBeforeStop s e := by
  rintro (rfl | rfl)
  · cases moves_of_step hs with
    | connectionError => exact (stopKept_closed_iff hi).mp h
  · cases moves_of_step hs with
    | closed => exact (stopKept_closed_iff hi).mp h

/-- In every run, the stop signal is kept in every state exactly when each callback that ends
a connection comes after the worker has executed its own `pthread_state = PTHREAD_RUN`. -/
theorem stopKept_iff {h : History State Event} {s : State} (hr : Exec step start h s) :
    Always (fun _ => StopKept) h s ↔ Meets (fun _ => StartedBeforeStop) h := by
  have hstart : StopKept start := stopKept_of_not_joining (by simp [start])
  refine Exec.always_iff_of_invariant (J := fun _ s => Inv s ∧ StopKept s)
    hstart ⟨inv_start,hstart⟩ ?_ ?_ hr
  · rintro h s e t ⟨hi,hk⟩ hs he
    have ht := stopKept_step hi hk hs he
    exact ⟨ht,inv_step hi hs,ht⟩
  · rintro h s e t ⟨hi,-⟩ hs ht
    exact startedBeforeStop_of_stopKept hi hs ht

/-- The worker started before its connection was closed. -/
def closesLate : List Event :=
  [.regist .pending,.create true,.worker 0,.established,.worker 0,.closed]

theorem stopKept_closesLate :
    ∃ h s, Trace.play step [] start closesLate = some (h,s) ∧ Always (fun _ => StopKept) h s := by
  have hmeets : (Trace.play step [] start closesLate).map
      (fun r => decide (Meets (fun _ => StartedBeforeStop) r.1)) = some true := by decide
  obtain ⟨⟨h,s⟩,hp,hm⟩ := Option.map_eq_some_iff.mp hmeets
  exact ⟨h,s,hp,(stopKept_iff (Exec.refl.play hp)).mpr (of_decide_eq_true hm)⟩

/-- A signal that the worker has overwritten is lost for good: whatever happens next, the
service thread stays in `pthread_join`. -/
theorem lost_forever {s t : State} {i : ℕ} {w : Worker} {h : History State Event} (hi : Inv s)
    (hw : WaitsFor s i w) (hf : s.pthreadState ≠ .filish) (hr : Exec step s h t) :
    ∃ w, WaitsFor t i w := by
  have hinv : Inv t ∧ t.pthreadState ≠ .filish ∧ ∃ w, WaitsFor t i w := by
    refine Exec.invariant_all
      (I := fun _ t => Inv t ∧ t.pthreadState ≠ .filish ∧ ∃ w, WaitsFor t i w) ⟨hi,hf,w,hw⟩ ?_ hr
    clear hi hf hw hr h t w s
    rintro h s e t ⟨hi,hf,⟨pc,j⟩,⟨registering,hpc⟩,hspam,hw,hpw⟩ hs
    have hlt := (List.getElem?_eq_some_iff.mp hw).1
    have hmove {k : ℕ} {pc' pc'' : WorkerPc} {j' : Bool} (hk : s.workers[k]? = some ⟨pc',j'⟩)
        (hpc' : pc' ≠ .exited) (hne : pc'' ≠ .exited) : ∃ w, WaitsFor (s.move k pc'') i w := by
      have hki := (hi.unjoined k _ hk (hi.running hk hpc')).1
      obtain rfl : k = i := Option.some.inj (hki.symm.trans hspam)
      exact ⟨⟨pc'',false⟩,⟨registering,hpc⟩,hspam,by simp [State.move,hlt],hne⟩
    refine ⟨inv_step hi hs,?_⟩
    cases moves_of_step hs with
    | regist c hpc' hwsi => simp [hpc] at hpc'
    | create ok hpc' => simp [hpc] at hpc'
    | established hpc' hwsi => simp [hpc] at hpc'
    | connectionError hpc' hwsi => simp [hpc] at hpc'
    | closed hpc' hest => simp [hpc] at hpc'
    | nothing registering hpc' hno => exact absurd ⟨i,_,hspam,hw,hi.running hw hpw⟩ hno
    | joined registering k hpc' hspam' hw' =>
      rw [hspam,Option.some.injEq] at hspam'
      subst hspam'
      rw [hw] at hw'
      cases hw'
      exact absurd rfl hpw
    | start k j' hw' =>
      obtain ⟨w,hwait⟩ := hmove hw' (by decide) (show WorkerPc.body ≠ .exited by decide)
      exact ⟨by simp,w,hwait.pc,hwait.spam,hwait.worker,hwait.running⟩
    | body k j' hw' => exact ⟨hf,hmove hw' (by decide) (by decide)⟩
    | again k j' hw' hf' => exact ⟨hf,hmove hw' (by decide) (by decide)⟩
    | exit k j' hw' hf' => exact absurd hf' hf
  exact hinv.2.2

/-- A connection that fails before the worker runs: the worker then overwrites the signal. -/
def failsEarly : List Event := [.regist .pending,.create true,.connectionError,.worker 0]

theorem stop_overwritten : ¬ ∀ h s, Exec step start h s → StopKept s := by
  intro hall
  have hlost : (Trace.play step [] start failsEarly).map
      (fun r => (r.2.pc,r.2.pthreadState,r.2.pthreadSpam,r.2.workers)) =
        some (.joining false,.run,some 0,[⟨.body,false⟩]) := by decide
  obtain ⟨⟨h,s⟩,hp,hs⟩ := Option.map_eq_some_iff.mp hlost
  obtain ⟨hpc,hf,hspam,hw⟩ := by simpa using hs
  have hk := hall h s (Exec.refl.play hp) 0 ⟨.body,false⟩ ⟨⟨false,hpc⟩,hspam,by simp [hw],by decide⟩
  exact absurd (hf.symm.trans hk.flag) (by decide)

end Threads
end WddProc
