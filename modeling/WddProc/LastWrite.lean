import Mathlib.Data.List.Basic
import Mathlib.Data.List.Perm.Basic
import Mathlib.Tactic

/-!
# The last write wins

A loop over a list of entries writes some fields of a state. What a field holds
at the end is the last value that an entry gave it, or what it held before.
-/

namespace WddProc
namespace LastWrite

variable {α β γ : Type}

/-- The last value that an entry of a list gives. -/
def last (val : β → Option γ) (bs : List β) : Option γ := (bs.filterMap val).getLast?

@[simp] theorem last_nil (val : β → Option γ) : last val [] = none := rfl

theorem last_append (val : β → Option γ) (bs cs : List β) :
    last val (bs ++ cs) = (last val cs).or (last val bs) := by
  simp [last,List.filterMap_append,List.getLast?_append]

theorem last_singleton (val : β → Option γ) (b : β) : last val [b] = val b := by
  cases h : val b <;> simp [last,h]

theorem last_cons (val : β → Option γ) (b : β) (bs : List β) :
    last val (b :: bs) = (last val bs).or (val b) := by
  rw [show b :: bs = [b] ++ bs from rfl,last_append,last_singleton]

theorem last_cons_getD (val : β → Option γ) (b : β) (bs : List β) (c : γ) :
    (last val (b :: bs)).getD c = (last val bs).getD ((val b).getD c) := by
  rw [last_cons]
  cases last val bs <;> rfl

theorem mem_of_last {val : β → Option γ} {bs : List β} {c : γ} (h : last val bs = some c) :
    ∃ b ∈ bs, val b = some c :=
  List.mem_filterMap.mp (List.mem_of_getLast? h)

theorem last_eq_none {val : β → Option γ} {bs : List β} (h : ∀ b ∈ bs, val b = none) :
    last val bs = none := by
  rw [last,List.filterMap_eq_nil_iff.mpr h]
  rfl

theorem last_eq_some {val : β → Option γ} {bs : List β} {b : β} {c : γ} (hb : b ∈ bs)
    (hval : val b = some c) (h : ∀ b ∈ bs, ∀ d, val b = some d → d = c) : last val bs = some c := by
  cases hlast : last val bs with
  | none =>
    have hnil := List.getLast?_eq_none_iff.mp hlast
    rw [List.filterMap_eq_nil_iff.mp hnil b hb] at hval
    cases hval
  | some d =>
    obtain ⟨b',hb',hd⟩ := mem_of_last hlast
    rw [h b' hb' d hd]

theorem last_congr {val val' : β → Option γ} {bs : List β} (h : ∀ b ∈ bs, val b = val' b) :
    last val bs = last val' bs := by
  rw [last,last,List.filterMap_congr h]

theorem last_map {δ : Type} (val : β → Option γ) (g : γ → δ) (bs : List β) :
    last (fun b => (val b).map g) bs = (last val bs).map g := by
  rw [last,last,← List.getLast?_map,List.map_filterMap]

theorem last_comap {δ : Type} (val : β → Option γ) (g : δ → β) (ds : List δ) :
    last val (ds.map g) = last (fun d => val (g d)) ds := by
  rw [last,last,List.filterMap_map]
  rfl

/-- Entries that nothing distinguishes may change places. -/
inductive Swaps (D : β → β → Prop) : List β → List β → Prop
  | nil : Swaps D [] []
  | cons (b : β) {bs cs : List β} : Swaps D bs cs → Swaps D (b :: bs) (b :: cs)
  | swap {b c : β} (bs : List β) : D b c → Swaps D (b :: c :: bs) (c :: b :: bs)
  | trans {bs cs ds : List β} : Swaps D bs cs → Swaps D cs ds → Swaps D bs ds

theorem Swaps.perm {D : β → β → Prop} {bs cs : List β} (h : Swaps D bs cs) : bs.Perm cs := by
  induction h with
  | nil => exact List.Perm.nil
  | cons b _ ih => exact ih.cons b
  | swap bs _ => exact List.Perm.swap _ _ bs
  | trans _ _ ih ih' => exact ih.trans ih'

/-- Swaps of entries that never give the same field leave every last value. -/
theorem Swaps.filterMap {D : β → β → Prop} {val : β → Option γ}
    (hD : ∀ b c, D b c → val b = none ∨ val c = none) {bs cs : List β} (h : Swaps D bs cs) :
    bs.filterMap val = cs.filterMap val := by
  induction h with
  | nil => rfl
  | cons b _ ih => simp [List.filterMap_cons,ih]
  | @swap b c bs hbc => rcases hD b c hbc with h | h <;> simp [List.filterMap_cons,h]
  | trans _ _ ih ih' => exact ih.trans ih'

theorem Swaps.last {D : β → β → Prop} {val : β → Option γ}
    (hD : ∀ b c, D b c → val b = none ∨ val c = none) {bs cs : List β} (h : Swaps D bs cs) :
    last val bs = last val cs := by
  rw [LastWrite.last,LastWrite.last,h.filterMap hD]

/-- A loop whose rounds fail on some entries only, and whose writes compose, succeeds
exactly when no such entry occurs, and leaves what writing the whole list leaves. -/
theorem foldlM_eq {f : α → β → Option α} {ok : β → Prop} [DecidablePred ok]
    (store : List β → α → α) (hf : ∀ a b, f a b = if ok b then some (store [b] a) else none)
    (hnil : ∀ a, store [] a = a) (hcons : ∀ a b bs, store (b :: bs) a = store bs (store [b] a))
    (bs : List β) (a : α) :
    bs.foldlM f a = if ∀ b ∈ bs, ok b then some (store bs a) else none := by
  induction bs generalizing a with
  | nil => simp [hnil]
  | cons b bs ih =>
    rw [List.foldlM_cons,hf]
    by_cases hb : ok b
    · simp [hb,ih,hcons a b bs]
    · simp [hb]

theorem exists_pointwise (F : ℕ → α → Option β) (as : List α)
    (h : ∀ i a, as[i]? = some a → (F i a).isSome = true) :
    ∃ bs : List β, ∀ i, as[i]?.map (F i) = bs[i]?.map some := by
  induction as generalizing F with
  | nil => exact ⟨[],fun i => by simp⟩
  | cons a as ih =>
    obtain ⟨b,hb⟩ := Option.isSome_iff_exists.mp (h 0 a rfl)
    obtain ⟨bs,hbs⟩ := ih (fun i => F (i + 1)) (fun i a' ha => h (i + 1) a' (by simpa using ha))
    refine ⟨b :: bs,fun i => ?_⟩
    cases i with
    | zero => simp [hb]
    | succ i => simpa using hbs i

theorem pointwise_ext (F : ℕ → α → Option β) (as : List α) {bs cs : List β}
    (hb : ∀ i, as[i]?.map (F i) = bs[i]?.map some) (hc : ∀ i, as[i]?.map (F i) = cs[i]?.map some) :
    bs = cs := by
  apply List.ext_getElem?
  intro i
  have h := (hb i).symm.trans (hc i)
  cases h₁ : bs[i]? <;> cases h₂ : cs[i]? <;> simp_all

def only (P : β → Prop) [DecidablePred P] (val : β → Option γ) (b : β) : Option γ :=
  if P b then val b else none

def lastEntry (val : β → Option γ) (bs : List β) : Option (β × γ) :=
  last (fun b => (val b).map (Prod.mk b)) bs

theorem lastEntry_append_singleton (val : β → Option γ) (bs : List β) (b : β) :
    lastEntry val (bs ++ [b]) = ((val b).map (Prod.mk b)).or (lastEntry val bs) := by
  rw [lastEntry,last_append,last_singleton]
  rfl

/-- Entries outside the sort make no difference exactly when the last one is in it or gives
what the last one in it gives. -/
theorem last_only_iff (P : β → Prop) [DecidablePred P] (val : β → Option γ) (bs : List β) (c : γ) :
    (last val bs).getD c = (last (only P val) bs).getD c ↔
      ∀ e ∈ lastEntry val bs, P e.1 ∨ e.2 = (last (only P val) bs).getD c := by
  induction bs using List.reverseRecOn with
  | nil => simp [lastEntry]
  | append_singleton bs b ih =>
    rw [lastEntry_append_singleton,last_append,last_append,last_singleton,last_singleton]
    cases hb : val b with
    | none => simpa [only,hb] using ih
    | some v => by_cases hP : P b <;> simp [only,hb,hP]

end LastWrite
end WddProc
