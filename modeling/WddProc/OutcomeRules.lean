import WddProc.CJsonParse

/-!
# Rules for functions that walk over memory

`Post` says what a result satisfies if there is one. `Le` compares two runs of
which the first may fault: where it does not, the second one does the same.
-/

namespace WddProc
namespace Outcome

variable {α β γ δ : Type}

def Post (P : α → Prop) (o : Outcome α) : Prop := ∀ a, o = done a → P a

@[simp] theorem post_done {P : α → Prop} {a : α} : Post P (done a) ↔ P a :=
  ⟨fun h => h a rfl,fun h b hb => by cases hb; exact h⟩

@[simp] theorem post_null {P : α → Prop} : Post P (null : Outcome α) := fun _ h => nomatch h

@[simp] theorem post_fault {P : α → Prop} : Post P (fault : Outcome α) := fun _ h => nomatch h

theorem Post.bind {P : α → Prop} {Q : β → Prop} {o : Outcome α} {f : α → Outcome β} (h : Post P o)
    (hf : ∀ a, P a → Post Q (f a)) : Post Q (o >>= f) := by
  cases o with
  | done a => exact hf a (h a rfl)
  | null => exact post_null
  | fault => exact post_fault

theorem Post.mono {P Q : α → Prop} {o : Outcome α} (h : Post P o) (hPQ : ∀ a, P a → Q a) :
    Post Q o := fun a ha => hPQ a (h a ha)

theorem post_ite {P : α → Prop} {c : Prop} [Decidable c] {o o' : Outcome α} (h : c → Post P o)
    (h' : ¬ c → Post P o') : Post P (if c then o else o') := by
  split
  · rename_i hc
    exact h hc
  · rename_i hc
    exact h' hc

/-- Where the first run does not fault, the second one has a related outcome. -/
inductive Le (R : α → β → Prop) : Outcome α → Outcome β → Prop
  | done {a : α} {b : β} : R a b → Le R (done a) (done b)
  | null : Le R null null
  | fault (o : Outcome β) : Le R fault o

theorem Le.bind {R : α → β → Prop} {S : γ → δ → Prop} {o : Outcome α} {o' : Outcome β}
    {f : α → Outcome γ} {g : β → Outcome δ} (h : Le R o o')
    (hfg : ∀ a b, R a b → Le S (f a) (g b)) : Le S (o >>= f) (o' >>= g) := by
  cases h with
  | done h => exact hfg _ _ h
  | null => exact Le.null
  | fault => exact Le.fault _

theorem Le.ite {R : α → β → Prop} {c : Prop} [Decidable c] {o₁ o₂ : Outcome α} {o₁' o₂' : Outcome β}
    (h₁ : c → Le R o₁ o₁') (h₂ : ¬ c → Le R o₂ o₂') :
    Le R (if c then o₁ else o₂) (if c then o₁' else o₂') := by
  by_cases hc : c
  · simpa [hc] using h₁ hc
  · simpa [hc] using h₂ hc

theorem Le.done_of {R : α → β → Prop} {o' : Outcome β} {a : α} (h : Le R (.done a) o') :
    ∃ b, o' = .done b ∧ R a b := by
  cases h with
  | done h => exact ⟨_,rfl,h⟩

theorem Le.null_of {R : α → β → Prop} {o' : Outcome β} (h : Le R (.null : Outcome α) o') :
    o' = .null := by
  cases h with
  | null => rfl

theorem Le.eq {o o' : Outcome α} (h : Le Eq o o') (hf : o ≠ .fault) : o' = o := by
  cases h with
  | done h => rw [h]
  | null => rfl
  | fault => exact absurd rfl hf

theorem bind_congr {o : Outcome α} {f g : α → Outcome β} (h : ∀ a, o = .done a → f a = g a) :
    (o >>= f) = (o >>= g) := by
  cases o with
  | done a => exact h a rfl
  | null => rfl
  | fault => rfl

end Outcome
end WddProc
