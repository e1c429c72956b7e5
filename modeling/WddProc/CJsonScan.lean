import WddProc.OutcomeRules
import WddProc.CJsonRoundTrip

/-!
# What the parser reads

Fuel never runs out, and a parse that ends inside its block does the same in every
longer block.
-/

namespace WddProc
namespace Parse

open Outcome

def Shorter {α : Type} (m : Bytes) (r : α × Bytes) : Prop := r.2.length < m.length

def Within {α : Type} (m : Bytes) (r : α × Bytes) : Prop := r.2.length ≤ m.length

theorem skip_within (m : Bytes) : Post (fun r => r.length ≤ m.length) (skip m) := by
  induction m with
  | nil => exact post_fault
  | cons b m ih =>
    unfold skip
    exact post_ite (fun _ => ih.mono fun r hr => Nat.le_succ_of_le hr) (fun _ => post_done.mpr le_rfl)

theorem digits_within (m : Bytes) : Post (Within m) (digits m) := by
  induction m with
  | nil => exact post_fault
  | cons b m ih =>
    unfold digits
    refine post_ite (fun _ => ih.bind fun r hr => ?_) (fun _ => post_done.mpr le_rfl)
    exact post_done.mpr (Nat.le_succ_of_le hr)

theorem unescapeUnicode_within (m : Bytes) : Post (Within m) (unescapeUnicode m) := by
  have hdrop (n : ℕ) (bs : Bytes) : Within m (bs,m.drop n) := by simp [Within]
  unfold unescapeUnicode
  cases parseHex 4 0 m with
  | null => exact post_null
  | fault => exact post_fault
  | done uc =>
    refine post_ite (fun _ => post_done.mpr (hdrop 4 _)) (fun _ => post_ite (fun _ => ?_)
      (fun _ => post_done.mpr (hdrop 4 _)))
    split
    · exact post_fault
    · refine post_ite (fun _ => post_done.mpr (hdrop 4 _)) (fun _ => ?_)
      split
      · exact post_fault
      · refine post_ite (fun _ => post_done.mpr (hdrop 4 _)) (fun _ => ?_)
        cases parseHex 4 0 _ with
        | null => exact post_null
        | fault => exact post_fault
        | done uc₂ =>
          exact post_ite (fun _ => post_done.mpr (hdrop 10 _)) (fun _ => post_done.mpr (hdrop 10 _))

theorem unescape_within (f : ℕ) (m : Bytes) : Post (Within m) (unescape f m) := by
  induction f generalizing m with
  | zero => exact post_fault
  | succ f ih =>
    cases m with
    | nil => exact post_fault
    | cons b m =>
      have hcons {n : Bytes} (hn : n.length ≤ m.length) (c : Bytes) :
          Post (Within (b :: m)) (do let r ← unescape f n; .done (c ++ r.1,r.2)) :=
        (ih n).bind fun r hr => post_done.mpr
          (show r.2.length ≤ m.length + 1 from Nat.le_succ_of_le (Nat.le_trans hr hn))
      unfold unescape
      refine post_ite (fun _ => post_done.mpr (le_refl _)) (fun _ => post_ite
        (fun _ => hcons (le_refl _) [b]) (fun _ => ?_))
      cases m with
      | nil => exact post_fault
      | cons e m =>
        refine post_ite (fun _ => ?_) (fun _ => hcons (by simp) [_])
        refine (unescapeUnicode_within m).bind fun u hu => hcons ?_ u.1
        exact Nat.le_succ_of_le hu

theorem parseString_shorter (m : Bytes) : Post (Shorter m) (parseString m) := by
  cases m with
  | nil => exact post_fault
  | cons b m =>
    unfold parseString
    refine post_ite (fun _ => post_null) (fun _ => ?_)
    cases scanLen m with
    | null => exact post_null
    | fault => exact post_fault
    | done len =>
      refine (unescape_within (m.length + 1) m).bind fun r hr => ?_
      refine post_ite (fun _ => post_fault) (fun _ => ?_)
      split
      · exact post_fault
      · rename_i q rest hrest
        have hlen : rest.length + 1 ≤ m.length := by simpa [Within,hrest] using hr
        refine post_done.mpr ?_
        change (if q = 34 then rest else q :: rest).length < m.length + 1
        split
        · omega
        · rw [List.length_cons]
          omega

theorem fraction_within (m : Bytes) : Post (Within m) (fraction m) := by
  cases m with
  | nil => exact post_fault
  | cons b m =>
    unfold fraction
    refine post_ite (fun _ => ?_) (fun _ => post_done.mpr (le_refl _))
    cases m with
    | nil => exact post_fault
    | cons d m =>
      exact post_ite (fun _ => (digits_within _).mono fun r hr => Nat.le_succ_of_le hr)
        (fun _ => post_done.mpr (le_refl _))

theorem exponent_within (m : Bytes) : Post (Within m) (exponent m) := by
  cases m with
  | nil => exact post_fault
  | cons b m =>
    unfold exponent
    refine post_ite (fun _ => ?_) (fun _ => post_done.mpr (le_refl _))
    cases m with
    | nil => exact post_fault
    | cons s m =>
      have hd : Post (Within (s :: m)) (digits (if s = 43 ∨ s = 45 then m else s :: m)) := by
        split
        · exact (digits_within m).mono fun r hr => Nat.le_succ_of_le hr
        · exact digits_within _
      exact hd.bind fun r hr => post_done.mpr (Nat.le_succ_of_le hr)

theorem digits_shorter {b : UInt8} (hb : isDigit b = true) (m : Bytes) :
    Post (Shorter (b :: m)) (digits (b :: m)) := by
  rw [digits,if_pos hb]
  exact (digits_within m).bind fun r hr => post_done.mpr (Nat.lt_succ_of_le hr)

def wholeDigits : Bytes → Outcome (List ℕ × Bytes)
  | [] => .fault
  | c :: m => if 49 ≤ c ∧ c ≤ 57 then digits (c :: m) else .done ([],c :: m)

theorem wholePart_eq (b : UInt8) (m : Bytes) :
    wholePart (b :: m) = wholeDigits (if b = 48 then m else b :: m) := rfl

theorem wholeDigits_within (m : Bytes) : Post (Within m) (wholeDigits m) := by
  cases m with
  | nil => exact post_fault
  | cons c m => exact post_ite (fun _ => digits_within _) (fun _ => post_done.mpr (le_refl _))

theorem wholePart_within (m : Bytes) : Post (Within m) (wholePart m) := by
  cases m with
  | nil => exact post_fault
  | cons b m =>
    have hzero : (if b = 48 then m else b :: m).length ≤ m.length + 1 := by
      split <;> simp
    rw [wholePart_eq]
    exact (wholeDigits_within _).mono fun r hr => Nat.le_trans hr hzero

theorem wholePart_shorter {b : UInt8} (hb : isDigit b = true) (m : Bytes) :
    Post (Shorter (b :: m)) (wholePart (b :: m)) := by
  rw [wholePart_eq]
  by_cases h48 : b = 48
  · rw [if_pos h48]
    exact (wholeDigits_within m).mono fun r hr => Nat.lt_succ_of_le hr
  · have hb' : 49 ≤ b ∧ b ≤ 57 := by
      simp only [isDigit,Bool.and_eq_true,decide_eq_true_eq,UInt8.le_iff_toNat_le] at hb ⊢
      have hne : b.toNat ≠ 48 := fun h => h48 (UInt8.toNat_inj.mp (by simpa using h))
      simp at hb ⊢
      omega
    rw [if_neg h48,wholeDigits,if_pos hb']
    exact digits_shorter hb m

variable (p : Platform)

def keyword (item : CJson) (l m : Bytes) : Outcome (CJson × Bytes) := do
  if ← startsWith l m then .done (item,m.drop l.length) else .null

theorem parseValue_nil (f : ℕ) : parseValue p f [] = .fault := by
  cases f <;> rfl

theorem parseValue_step (f : ℕ) (b : UInt8) (m : Bytes) :
    parseValue p (f + 1) (b :: m) =
      if b = 110 then keyword (.mk .null none 0 0 none []) (utf8 "ull") m
      else if b = 102 then keyword (.mk .false none 0 0 none []) (utf8 "alse") m
      else if b = 116 then keyword (.mk .true none 1 0 none []) (utf8 "rue") m
      else if b = 34 then (do
        let r ← parseString (b :: m)
        .done (.mk .string (some r.1) 0 0 none [],r.2))
      else if b = 45 ∨ isDigit b then parseNumber p (b :: m)
      else if b = 91 then parseArray p f (b :: m)
      else if b = 123 then parseObject p f (b :: m)
      else .null := by
  have h₁ : utf8 "null" = 110 :: utf8 "ull" := by decide
  have h₂ : utf8 "false" = 102 :: utf8 "alse" := by decide
  have h₃ : utf8 "true" = 116 :: utf8 "rue" := by decide
  have hlen : (utf8 "ull").length = 3 ∧ (utf8 "alse").length = 4 ∧ (utf8 "rue").length = 3 := by decide
  by_cases hn : b = 110
  · subst hn
    have hf (m : Bytes) := startsWith_ne (show (110 : UInt8) ≠ 102 by decide) (utf8 "alse") m
    have ht (m : Bytes) := startsWith_ne (show (110 : UInt8) ≠ 116 by decide) (utf8 "rue") m
    rw [parseValue,h₁,h₂,h₃,hf,ht,keyword,startsWith,if_pos rfl,if_pos rfl]
    refine bind_congr fun ok _ => ?_
    cases ok <;> simp [isDigit,hlen]
  by_cases hf : b = 102
  · subst hf
    have hn (m : Bytes) := startsWith_ne (show (102 : UInt8) ≠ 110 by decide) (utf8 "ull") m
    have ht (m : Bytes) := startsWith_ne (show (102 : UInt8) ≠ 116 by decide) (utf8 "rue") m
    rw [if_neg (show ¬ (102 : UInt8) = 110 by decide),if_pos (show (102 : UInt8) = 102 from rfl),
      parseValue,h₁,h₂,h₃,hn,ht,keyword,startsWith,if_pos rfl,done_bind,if_neg (by decide)]
    refine bind_congr fun ok _ => ?_
    cases ok <;> simp [isDigit,hlen]
  by_cases ht : b = 116
  · subst ht
    have hn (m : Bytes) := startsWith_ne (show (116 : UInt8) ≠ 110 by decide) (utf8 "ull") m
    have hf (m : Bytes) := startsWith_ne (show (116 : UInt8) ≠ 102 by decide) (utf8 "alse") m
    rw [if_neg (show ¬ (116 : UInt8) = 110 by decide),if_neg (show ¬ (116 : UInt8) = 102 by decide),
      if_pos (show (116 : UInt8) = 116 from rfl),parseValue,h₁,h₂,h₃,hn,hf,keyword,startsWith,
      if_pos rfl,done_bind,if_neg (by decide),done_bind,if_neg (by decide)]
    refine bind_congr fun ok _ => ?_
    cases ok <;> simp [isDigit,hlen]
  rw [parseValue_other p hn hf ht,if_neg hn,if_neg hf,if_neg ht]

/-- What `parse_number` reads, without its arithmetic. -/
def literal : Bytes → Outcome (Literal × Bytes)
  | [] => .fault
  | b :: m => do
    let w ← wholePart (if b = 45 then m else b :: m)
    let fr ← fraction w.2
    let ex ← exponent fr.2
    .done (⟨b == 45,w.1,fr.1,ex.1⟩,ex.2)

theorem parseNumber_eq (m : Bytes) :
    parseNumber p m = (do let r ← literal m; .done (numberItem p r.1,r.2)) := by
  cases m with
  | nil => rfl
  | cons b m =>
    simp only [parseNumber,literal]
    cases wholePart (if b = 45 then m else b :: m) with
    | null => rfl
    | fault => rfl
    | done w =>
      simp only [done_bind]
      cases fraction w.2 with
      | null => rfl
      | fault => rfl
      | done fr =>
        simp only [done_bind]
        cases exponent fr.2 <;> rfl

theorem literal_shorter {b : UInt8} (hb : b = 45 ∨ isDigit b = true) (m : Bytes) :
    Post (Shorter (b :: m)) (literal (b :: m)) := by
  have hwhole : Post (Shorter (b :: m)) (wholePart (if b = 45 then m else b :: m)) := by
    split
    · exact (wholePart_within m).mono fun r hr => Nat.lt_succ_of_le hr
    · rename_i h45
      exact wholePart_shorter (hb.resolve_left h45) m
  refine hwhole.bind fun w hw => (fraction_within w.2).bind fun fr hfr =>
    (exponent_within fr.2).bind fun ex hex => post_done.mpr ?_
  exact Nat.lt_of_le_of_lt hex (Nat.lt_of_le_of_lt hfr hw)

def Blank (ws : Bytes) : Prop := ∀ b ∈ ws, b ≠ 0 ∧ b ≤ 32

@[simp] theorem blank_nil : Blank [] := by simp [Blank]

theorem Blank.append {ws ws' : Bytes} (h : Blank ws) (h' : Blank ws') : Blank (ws ++ ws') := by
  intro b hb
  exact (List.mem_append.mp hb).elim (h b) (h' b)

theorem skip_done (m : Bytes) : Post (fun r => ∃ ws, Blank ws ∧ m = ws ++ r) (skip m) := by
  induction m with
  | nil => exact post_fault
  | cons b m ih =>
    unfold skip
    refine post_ite (fun hb => ?_) (fun _ => post_done.mpr ⟨[],blank_nil,rfl⟩)
    refine ih.mono ?_
    rintro r ⟨ws,hws,rfl⟩
    refine ⟨b :: ws,?_,rfl⟩
    intro c hc
    rcases List.mem_cons.mp hc with rfl | hc
    · exact hb
    · exact hws c hc

theorem startsWith_done (l m : Bytes) :
    Post (fun ok => ok = true → m = l ++ m.drop l.length) (startsWith l m) := by
  induction l generalizing m with
  | nil => exact post_done.mpr fun _ => rfl
  | cons c l ih =>
    cases m with
    | nil => exact post_fault
    | cons b m =>
      unfold startsWith
      refine post_ite (fun hb => (ih m).mono ?_) (fun _ => post_done.mpr (by simp))
      intro ok h hok
      subst hb
      simpa using h hok

theorem keyword_append (item : CJson) (l r : Bytes) : keyword item l (l ++ r) = .done (item,r) := by
  simp [keyword,startsWith_append]

theorem keyword_done (item : CJson) (l m : Bytes) :
    Post (fun r => r.1 = item ∧ m = l ++ r.2) (keyword item l m) := by
  refine (startsWith_done l m).bind fun ok h => ?_
  exact post_ite (fun hok => post_done.mpr ⟨rfl,h hok⟩) (fun _ => post_null)

end Parse
end WddProc
