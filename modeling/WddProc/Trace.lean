import Mathlib.Tactic

/-!
# Guarded runs of a partial step function

A history records every step of a run, newest first, with the state it was
taken in. Properties of a run are functions of its history, and an invariant
may speak about both the history and the present state.
-/

namespace WddProc
namespace Trace

variable {σ τ ε : Type}

/-- The steps taken so far, newest first. -/
abbrev History (σ ε : Type) := List (σ × ε)

/-- `Exec step s₀ h s` runs the steps of `h` from `s₀` to `s`. -/
inductive Exec (step : σ → ε → Option σ) (s₀ : σ) : History σ ε → σ → Prop
  | refl : Exec step s₀ [] s₀
  | succ {h : History σ ε} {s t : σ} {e : ε} :
      Exec step s₀ h s → step s e = some t → Exec step s₀ ((s,e) :: h) t

/-- Take the given steps from a point of a run on. -/
def play (step : σ → ε → Option σ) : History σ ε → σ → List ε → Option (History σ ε × σ)
  | h, s, [] => some (h,s)
  | h, s, e :: es => (step s e).bind fun t => play step ((s,e) :: h) t es

theorem Exec.play {step : σ → ε → Option σ} {s₀ : σ} {h h' : History σ ε} {s t : σ}
    (hr : Exec step s₀ h s) {es : List ε} (hp : play step h s es = some (h',t)) :
    Exec step s₀ h' t := by
  induction es generalizing h s with
  | nil =>
    cases hp
    exact hr
  | cons e es ih =>
    obtain ⟨u,hu,hp⟩ := Option.bind_eq_some_iff.mp hp
    exact ih (Exec.succ hr hu) hp

/-- Every step of the history met a condition on what had happened before it. -/
def Meets (C : History σ ε → σ → ε → Prop) : History σ ε → Prop
  | [] => True
  | (s,e) :: h => C h s e ∧ Meets C h

@[simp] theorem meets_nil (C : History σ ε → σ → ε → Prop) : Meets C [] := trivial

@[simp] theorem meets_cons (C : History σ ε → σ → ε → Prop) (s : σ) (e : ε) (h : History σ ε) :
    Meets C ((s,e) :: h) ↔ C h s e ∧ Meets C h := Iff.rfl

instance Meets.decidable {C : History σ ε → σ → ε → Prop} [hC : ∀ h s e, Decidable (C h s e)] :
    ∀ h, Decidable (Meets C h)
  | [] => inferInstanceAs (Decidable True)
  | (s,e) :: h => @instDecidableAnd _ _ (hC h s e) (Meets.decidable h)

theorem Meets.mono {C D : History σ ε → σ → ε → Prop} (hCD : ∀ h s e, C h s e → D h s e)
    {h : History σ ε} (hh : Meets C h) : Meets D h := by
  induction h with
  | nil => trivial
  | cons p h ih => exact ⟨hCD _ _ _ hh.1,ih hh.2⟩

def Always (I : History σ ε → σ → Prop) : History σ ε → σ → Prop
  | [],s => I [] s
  | (s,e) :: h,t => I ((s,e) :: h) t ∧ Always I h s

theorem Always.last {I : History σ ε → σ → Prop} {h : History σ ε} {s : σ} (ha : Always I h s) :
    I h s := by
  cases h with
  | nil => exact ha
  | cons x h => exact ha.1

namespace Exec

variable {step : σ → ε → Option σ} {s₀ : σ}

/-- What holds at the start and survives every step that meets the condition
holds at the end of every run whose steps all meet it. -/
theorem invariant {I : History σ ε → σ → Prop} {C : History σ ε → σ → ε → Prop}
    (hinit : I [] s₀)
    (hstep : ∀ h s e t, I h s → C h s e → step s e = some t → I ((s,e) :: h) t)
    {h : History σ ε} {s : σ} (hr : Exec step s₀ h s) (hC : Meets C h) : I h s := by
  induction hr with
  | refl => exact hinit
  | succ hr hs ih => exact hstep _ _ _ _ (ih hC.2) hC.1 hs

theorem invariant_all {I : History σ ε → σ → Prop} (hinit : I [] s₀)
    (hstep : ∀ h s e t, I h s → step s e = some t → I ((s,e) :: h) t)
    {h : History σ ε} {s : σ} (hr : Exec step s₀ h s) : I h s :=
  invariant (C := fun _ _ _ => True) hinit (fun h s e t hI _ hs => hstep h s e t hI hs) hr
    (by clear hr; induction h <;> simp_all [Meets])

/-- A property of all reached states comes down to a condition on the steps when, under an
invariant that careful steps keep, a step is careful exactly when it leads to the property. -/
theorem always_iff_of_invariant {I J : History σ ε → σ → Prop} {C : History σ ε → σ → ε → Prop}
    (hI : I [] s₀) (hJ : J [] s₀)
    (hkeep : ∀ h s e t, J h s → step s e = some t → C h s e → I ((s,e) :: h) t ∧ J ((s,e) :: h) t)
    (hbad : ∀ h s e t, J h s → step s e = some t → I ((s,e) :: h) t → C h s e)
    {h : History σ ε} {s : σ} (hr : Exec step s₀ h s) : Always I h s ↔ Meets C h := by
  have hJs {h s} (hr : Exec step s₀ h s) (hC : Meets C h) : J h s :=
    invariant hJ (fun h s e t hJ hC hs => (hkeep h s e t hJ hs hC).2) hr hC
  induction hr with
  | refl => exact ⟨fun _ => trivial,fun _ => hI⟩
  | succ hr hs ih =>
    constructor
    · rintro ⟨hlast,hall⟩
      have hC := ih.mp hall
      exact ⟨hbad _ _ _ _ (hJs hr hC) hs hlast,hC⟩
    · rintro ⟨hC,hmeets⟩
      exact ⟨(hkeep _ _ _ _ (hJs hr hmeets) hs hC).1,ih.mpr hmeets⟩

/-- When a condition on a step says exactly whether it keeps a property, the runs that
keep the property are those whose steps all meet the condition. -/
theorem always_iff {I : History σ ε → σ → Prop} {C : History σ ε → σ → ε → Prop}
    (hinit : I [] s₀)
    (hstep : ∀ h s e t, I h s → step s e = some t → (C h s e ↔ I ((s,e) :: h) t))
    {h : History σ ε} {s : σ} (hr : Exec step s₀ h s) : Always I h s ↔ Meets C h := by
  refine always_iff_of_invariant hinit hinit ?_ ?_ hr
  · intro h s e t hI hs hC
    have hI' := (hstep h s e t hI hs).mp hC
    exact ⟨hI',hI'⟩
  · intro h s e t hI hs hI'
    exact (hstep h s e t hI hs).mpr hI'

end Exec
end Trace
end WddProc
