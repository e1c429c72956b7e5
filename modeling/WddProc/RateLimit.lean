import WddProc.Selection

/-!
# The limit on connects

`ratelimit_connects` keeps the low 32 bits of the second at which it last returned 1, and
subtracts them from the clock in `unsigned long`, which has 64 bits.
-/

namespace WddProc
namespace RateLimit

open Selection

/-- A reading of `gettimeofday`, whose seconds are a `long` that is not negative. -/
structure Reading where
  tvSec : Int64
  nonneg : 0 ≤ tvSec
  deriving DecidableEq

/-- `ratelimit_connects`, of which `ws_test_client.c` and `ws_test_rtx.c` have copies, when the
clock reads `tvSec`: its result, and `*last` after it. -/
def ratelimitConnects (tvSec : Int64) (last secs : UInt32) : ℕ × UInt32 :=
  if tvSec.toUInt64 - last.toUInt64 < secs.toUInt64 then (0,last)
  else (1,tvSec.toUInt64.toUInt32)

/-- The readings of the calls that return 1, of one call for each reading. -/
def grants (secs : UInt32) : UInt32 → List Reading → List Reading
  | _, [] => []
  | last, t :: ts =>
    let r := ratelimitConnects t.tvSec last secs
    if r.1 = 1 then t :: grants secs r.2 ts else grants secs r.2 ts

/-- `ws_client_monitor` for the first protocol, which has a connection or none: whether it
connects again, and `rl_multi` after it. -/
def wsClientMonitor (wsiMulti : Bool) (rlMulti : UInt32) (tvSec : Int64) : Bool × UInt32 :=
  if wsiMulti then (false,rlMulti)
  else
    let r := ratelimitConnects tvSec rlMulti 5
    (decide (r.1 ≠ 0),r.2)

/-- The readings at which the monitor connects again. -/
def reconnects : UInt32 → List (Bool × Reading) → List Reading
  | _, [] => []
  | rlMulti, (wsiMulti,t) :: rounds =>
    let r := wsClientMonitor wsiMulti rlMulti t.tvSec
    if r.1 then t :: reconnects r.2 rounds else reconnects r.2 rounds

def Reading.sec (t : Reading) : ℕ := t.tvSec.toNatClampNeg

def stored (t : Reading) : UInt32 := t.tvSec.toUInt64.toUInt32

/-- The clock is behind `last` or at least `secs` ahead of it. -/
def Passes (secs last : UInt32) (t : Reading) : Prop :=
  t.sec < last.toNat ∨ last.toNat + secs.toNat ≤ t.sec

instance (secs last : UInt32) : DecidablePred (Passes secs last) := fun t =>
  inferInstanceAs (Decidable (t.sec < last.toNat ∨ last.toNat + secs.toNat ≤ t.sec))

/-- The second reading is at least `secs` later. -/
def Spaced (secs : UInt32) (t t' : Reading) : Prop := t.sec + secs.toNat ≤ t'.sec

instance (secs : UInt32) : DecidableRel (Spaced secs) := fun t t' =>
  inferInstanceAs (Decidable (t.sec + secs.toNat ≤ t'.sec))

theorem sec_lt (t : Reading) : t.sec < 2^63 := t.tvSec.toNatClampNeg_lt

theorem toUInt64_sec (t : Reading) : t.tvSec.toUInt64.toNat = t.sec :=
  Int64.toNat_toUInt64_of_le t.nonneg

theorem stored_toNat (t : Reading) : (stored t).toNat = t.sec % 2^32 := by
  rw [stored,UInt64.toNat_toUInt32,toUInt64_sec]

theorem waits_iff (secs last : UInt32) (t : Reading) :
    t.tvSec.toUInt64 - last.toUInt64 < secs.toUInt64 ↔ ¬ Passes secs last t := by
  have hsec := sec_lt t
  have hlast := last.toNat_lt
  have hsecs := secs.toNat_lt
  rw [UInt64.lt_iff_toNat_lt,UInt64.toNat_sub,UInt32.toNat_toUInt64,UInt32.toNat_toUInt64,toUInt64_sec,
    Passes]
  omega

theorem ratelimitConnects_eq (secs last : UInt32) (t : Reading) :
    ratelimitConnects t.tvSec last secs = if Passes secs last t then (1,stored t) else (0,last) := by
  rw [ratelimitConnects]
  by_cases h : Passes secs last t
  · rw [if_pos h,if_neg fun hw => (waits_iff secs last t).mp hw h]
    rfl
  · rw [if_neg h,if_pos ((waits_iff secs last t).mpr h)]

/-- The calls take from the readings, and keep the low bits of the last one taken. -/
theorem grants_eq (secs last : UInt32) (ts : List Reading) :
    grants secs last ts = select stored (Passes secs) last ts := by
  induction ts generalizing last with
  | nil => rfl
  | cons t ts ih =>
    rw [grants,select,ratelimitConnects_eq]
    split
    · rw [if_pos rfl,ih]
    · rw [if_neg Nat.zero_ne_one,ih]

theorem passes_of_spaced (secs : UInt32) (t t' : Reading) (h : Spaced secs t t') :
    Passes secs (stored t) t' := by
  have hle := Nat.mod_le t.sec (2^32)
  have hspaced : t.sec + secs.toNat ≤ t'.sec := h
  rw [Passes,stored_toNat]
  omega

/-- Of two successive calls that return 1, the second one reads at least `secs` more. -/
def RateLimited (secs last : UInt32) (ts : List Reading) : Prop :=
  (grants secs last ts).IsChain (Spaced secs)

instance (secs last : UInt32) (ts : List Reading) : Decidable (RateLimited secs last ts) :=
  inferInstanceAs (Decidable ((grants secs last ts).IsChain (Spaced secs)))

/-- After a grant at `g` the reading passes too early: it is below the low 32 bits of `g`, or
`secs` above them but not above `g`. -/
def Early (secs : UInt32) (g t : Reading) : Prop :=
  t.sec < g.sec % 2^32 ∨ g.sec % 2^32 + secs.toNat ≤ t.sec ∧ t.sec < g.sec + secs.toNat

/-- The last of the readings that are due from `g` on, each `secs` after the one before. -/
def lastDue (secs : UInt32) (g : Reading) (ts : List Reading) : Reading := current (Spaced secs) g ts

/-- From the first reading that does not lie in the `secs` from `last` on, no reading is early
after the one that was last due. -/
def Steady (secs last : UInt32) (ts : List Reading) : Prop :=
  ∀ waiting g rest, ts = waiting ++ g :: rest →
    (∀ t ∈ waiting, last.toNat ≤ t.sec ∧ t.sec < last.toNat + secs.toNat) →
    ¬ (last.toNat ≤ g.sec ∧ g.sec < last.toNat + secs.toNat) →
    ∀ pre t, pre ++ [t] <+: rest → ¬ Early secs (lastDue secs g pre) t

theorem not_passes_iff (secs last : UInt32) (t : Reading) :
    ¬ Passes secs last t ↔ last.toNat ≤ t.sec ∧ t.sec < last.toNat + secs.toNat := by
  rw [Passes]
  omega

theorem not_early_iff (secs : UInt32) (g t : Reading) :
    ¬ Early secs g t ↔ (Passes secs (stored g) t → Spaced secs g t) := by
  have hle := Nat.mod_le g.sec (2^32)
  rw [Passes,stored_toNat,Spaced,Early]
  omega

theorem steady_iff (secs last : UInt32) (ts : List Reading) :
    Steady secs last ts ↔ ∀ waiting g rest, ts = waiting ++ g :: rest →
      (∀ t ∈ waiting, ¬ Passes secs last t) → Passes secs last g →
      Follows (Spaced secs) stored (Passes secs) g rest := by
  have hfollows (g : Reading) (rest : List Reading) :
      (∀ pre t, pre ++ [t] <+: rest → ¬ Early secs (lastDue secs g pre) t) ↔
        Follows (Spaced secs) stored (Passes secs) g rest := by
    simp only [not_early_iff]
    rfl
  simp only [Steady,hfollows,← not_passes_iff,not_not]

theorem early_iff_of_lt {g : Reading} (hg : g.sec < 2^32) (secs : UInt32) (t : Reading) :
    Early secs g t ↔ t.sec < g.sec := by
  rw [Early,Nat.mod_eq_of_lt hg]
  omega

/-- Later on, a limit does not even hold within a second. -/
theorem early_self_iff (secs : UInt32) (g : Reading) :
    Early secs g g ↔ 2^32 ≤ g.sec ∧ 0 < secs.toNat := by
  have hsecs := secs.toNat_lt
  rw [Early]
  omega

/-- A clock that is never set back, in the years that 32 bits can hold. -/
theorem steady_of_forward {secs : UInt32} (last : UInt32) {ts : List Reading}
    (h32 : ∀ t ∈ ts, t.sec < 2^32) (hforward : ts.Pairwise fun t t' => t.sec ≤ t'.sec) :
    Steady secs last ts := by
  rintro waiting g rest rfl - - pre t hpre
  have hrest := (List.pairwise_append.mp hforward).2.1
  obtain ⟨behind,rfl⟩ := hpre
  -- the last reading that was due is one of those before `t`
  have hdue : lastDue secs g pre ∈ g :: pre := current_mem g pre
  have hle : (lastDue secs g pre).sec ≤ t.sec := by
    have hsub : (g :: pre ++ [t]).Sublist (g :: (pre ++ [t] ++ behind)) := by simp
    have hbefore := List.Pairwise.sublist hsub hrest
    exact (List.pairwise_append.mp hbefore).2.2 _ hdue t List.mem_cons_self
  have hsmall : (lastDue secs g pre).sec < 2^32 := by
    apply h32
    rcases List.mem_cons.mp hdue with h | h
    · simp [h]
    · simp [h]
  rw [early_iff_of_lt hsmall]
  exact Nat.not_lt.mpr hle

theorem rateLimited_of_steady {secs last : UInt32} {ts : List Reading} (h : Steady secs last ts) :
    RateLimited secs last ts := by
  rw [RateLimited,grants_eq]
  exact (isChain_select_iff (passes_of_spaced secs) last ts).mpr ((steady_iff secs last ts).mp h)

theorem steady_of_rateLimited {secs last : UInt32} {ts : List Reading} (h : RateLimited secs last ts) :
    Steady secs last ts := by
  rw [RateLimited,grants_eq] at h
  exact (steady_iff secs last ts).mpr ((isChain_select_iff (passes_of_spaced secs) last ts).mp h)

/-- Then the calls grant the first reading that passes, and after it those that are due. -/
theorem grants_steady {secs last : UInt32} {waiting rest : List Reading} {g : Reading}
    (hw : ∀ t ∈ waiting, ¬ Passes secs last t) (hg : Passes secs last g)
    (h : Steady secs last (waiting ++ g :: rest)) :
    grants secs last (waiting ++ g :: rest) = g :: select id (Spaced secs) g rest := by
  have hfollows := (steady_iff secs last _).mp h waiting g rest rfl hw hg
  rw [grants_eq,select_append hw,select,if_pos hg,hfollows.select_eq (passes_of_spaced secs)]

/-- In a sequence of calls, those that return 1 are `secs` apart exactly when the clock is steady. -/
theorem rate_limited_iff (secs last : UInt32) (ts : List Reading) :
    RateLimited secs last ts ↔ Steady secs last ts :=
  ⟨steady_of_rateLimited,rateLimited_of_steady⟩

/-- The clock is set back by a second, and the next call returns 1 again. -/
theorem not_always_rate_limited : ¬ ∀ (secs last : UInt32) (ts : List Reading),
    RateLimited secs last ts := by
  intro h
  have hback := h 5 0 [⟨1000,by decide⟩,⟨999,by decide⟩]
  exact absurd hback (by decide)

theorem reconnects_eq (rlMulti : UInt32) (rounds : List (Bool × Reading)) :
    reconnects rlMulti rounds =
      grants 5 rlMulti ((rounds.filter fun round => !round.1).map Prod.snd) := by
  induction rounds generalizing rlMulti with
  | nil => rfl
  | cons round rounds ih =>
    obtain ⟨wsiMulti,t⟩ := round
    cases wsiMulti with
    | true => exact ih rlMulti
    | false =>
      have hmonitor : wsClientMonitor false rlMulti t.tvSec =
          (decide ((ratelimitConnects t.tvSec rlMulti 5).1 ≠ 0),
            (ratelimitConnects t.tvSec rlMulti 5).2) := rfl
      rw [reconnects,hmonitor,List.filter_cons_of_pos rfl,List.map_cons,grants,ratelimitConnects_eq]
      split
      · rw [← ih]
        rfl
      · rw [← ih]
        rfl

/-- The monitor connects again at most every five seconds when the clock is steady whenever
there is no connection. -/
theorem reconnects_spaced {rlMulti : UInt32} {rounds : List (Bool × Reading)}
    (h : Steady 5 rlMulti ((rounds.filter fun round => !round.1).map Prod.snd)) :
    (reconnects rlMulti rounds).IsChain (Spaced 5) := by
  rw [reconnects_eq]
  exact rateLimited_of_steady h

end RateLimit
end WddProc
