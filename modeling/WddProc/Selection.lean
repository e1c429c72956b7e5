import Mathlib.Data.List.Chain
import Mathlib.Tactic

/-!
# Taking from a sequence

A selection looks at a sequence one by one and keeps something of the last element it took,
which decides whether it takes the next one. What it takes is compared with a relation that
neighbours are to have.
-/

namespace WddProc
namespace Selection

variable {α σ : Type}

/-- What is taken of a sequence while `s` is kept of the element taken before. -/
def select (store : α → σ) (test : σ → α → Prop) [∀ s, DecidablePred (test s)] :
    σ → List α → List α
  | _, [] => []
  | s, a :: as => if test s a then a :: select store test (store a) as else select store test s as

/-- The last of the elements that are taken one after the other because `r` holds between them. -/
def current (r : α → α → Prop) [DecidableRel r] (a : α) (as : List α) : α :=
  as.foldl (fun a b => if r a b then b else a) a

/-- After `a`, the test passes nothing that is not in relation `r` with the last element that was
taken because of `r`. -/
def Follows (r : α → α → Prop) [DecidableRel r] (store : α → σ) (test : σ → α → Prop) (a : α)
    (as : List α) : Prop :=
  ∀ pre b, pre ++ [b] <+: as → test (store (current r a pre)) b → r (current r a pre) b

variable {r : α → α → Prop} [DecidableRel r] {store : α → σ} {test : σ → α → Prop}

theorem follows_nil (a : α) : Follows r store test a [] := by
  intro pre b h
  simp at h

theorem follows_cons {a b : α} {bs : List α} : Follows r store test a (b :: bs) ↔
    (test (store a) b → r a b) ∧ Follows r store test (if r a b then b else a) bs := by
  constructor
  · intro h
    refine ⟨h [] b (List.prefix_append [b] bs),?_⟩
    intro pre c hpre
    exact h (b :: pre) c ((List.prefix_cons_inj b).mpr hpre)
  · rintro ⟨hb,hbs⟩ pre c hpre
    cases pre with
    | nil =>
      obtain ⟨rfl,-⟩ := List.cons_prefix_cons.mp hpre
      exact hb
    | cons d pre =>
      rw [List.cons_append,List.cons_prefix_cons] at hpre
      obtain ⟨rfl,htail⟩ := hpre
      exact hbs pre c htail

variable [∀ s, DecidablePred (test s)]

/-- A selection that takes at least what `r` allows takes only neighbours in relation `r` exactly
when its test follows `r`. -/
theorem isChain_cons_select_iff (hr : ∀ a b, r a b → test (store a) b) (a : α) (as : List α) :
    (a :: select store test (store a) as).IsChain r ↔ Follows r store test a as := by
  induction as generalizing a with
  | nil => simp [select,follows_nil]
  | cons b bs ih =>
    rw [follows_cons]
    by_cases ht : test (store a) b
    · rw [select,if_pos ht,List.isChain_cons_cons,ih b]
      constructor
      · rintro ⟨hab,hbs⟩
        rw [if_pos hab]
        exact ⟨fun _ => hab,hbs⟩
      · rintro ⟨hab,hbs⟩
        rw [if_pos (hab ht)] at hbs
        exact ⟨hab ht,hbs⟩
    · have hab : ¬ r a b := fun hab => ht (hr a b hab)
      rw [select,if_neg ht,if_neg hab,ih a]
      exact (and_iff_right fun h => absurd h ht).symm

theorem Follows.select_eq (hr : ∀ a b, r a b → test (store a) b) {a : α} {as : List α}
    (h : Follows r store test a as) : select store test (store a) as = select id r a as := by
  induction as generalizing a with
  | nil => rfl
  | cons b bs ih =>
    obtain ⟨hb,hbs⟩ := follows_cons.mp h
    by_cases hab : r a b
    · rw [if_pos hab] at hbs
      rw [select,select,if_pos (hr a b hab),if_pos hab,ih hbs]
      rfl
    · rw [if_neg hab] at hbs
      rw [select,select,if_neg fun ht => hab (hb ht),if_neg hab,ih hbs]

theorem select_append {s : σ} {waiting : List α} (hw : ∀ a ∈ waiting, ¬ test s a) (as : List α) :
    select store test s (waiting ++ as) = select store test s as := by
  induction waiting with
  | nil => rfl
  | cons a waiting ih =>
    rw [List.cons_append,select,if_neg (hw a List.mem_cons_self)]
    exact ih fun b hb => hw b (List.mem_cons_of_mem a hb)

theorem isChain_select_iff (hr : ∀ a b, r a b → test (store a) b) (s : σ) (as : List α) :
    (select store test s as).IsChain r ↔ ∀ waiting a rest, as = waiting ++ a :: rest →
      (∀ b ∈ waiting, ¬ test s b) → test s a → Follows r store test a rest := by
  constructor
  · rintro h waiting a rest rfl hw ha
    rw [select_append hw,select,if_pos ha] at h
    exact (isChain_cons_select_iff hr a rest).mp h
  · intro h
    induction as with
    | nil => exact List.IsChain.nil
    | cons b bs ih =>
      by_cases hb : test s b
      · rw [select,if_pos hb,isChain_cons_select_iff hr]
        exact h [] b bs rfl (fun _ hc => nomatch hc) hb
      · rw [select,if_neg hb]
        apply ih
        intro waiting a rest hbs hw ha
        refine h (b :: waiting) a rest (congrArg (b :: ·) hbs) ?_ ha
        intro c hc
        rcases List.mem_cons.mp hc with rfl | hc
        · exact hb
        · exact hw c hc

theorem current_mem (a : α) (as : List α) : current r a as ∈ a :: as := by
  induction as generalizing a with
  | nil => exact List.mem_cons_self
  | cons b bs ih =>
    have hstep : current r a (b :: bs) = current r (if r a b then b else a) bs := rfl
    have hmem := ih (if r a b then b else a)
    rw [← hstep] at hmem
    split at hmem
    · exact List.mem_cons_of_mem a hmem
    · rcases List.mem_cons.mp hmem with h | h
      · rw [h]
        exact List.mem_cons_self
      · exact List.mem_cons_of_mem a (List.mem_cons_of_mem b h)

end Selection
end WddProc
