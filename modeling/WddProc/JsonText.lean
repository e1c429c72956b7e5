import WddProc.Decimal

/-!
# JSON texts

The grammar of JSON over bytes. Bytes from 128 on may stand in a string without
further conditions.
-/

namespace WddProc
namespace JsonText

def Blank (ws : Bytes) : Prop := ∀ b ∈ ws, b = 32 ∨ b = 9 ∨ b = 10 ∨ b = 13

def Digits (ds : Bytes) : Prop := ds ≠ [] ∧ ∀ b ∈ ds, isDigit b = true

def Whole (ds : Bytes) : Prop := ds = [48] ∨ Digits ds ∧ ds.head? ≠ some 48

def Fraction (m : Bytes) : Prop := m = [] ∨ ∃ ds, Digits ds ∧ m = 46 :: ds

def Exponent (m : Bytes) : Prop :=
  m = [] ∨ ∃ e sign ds, (e = 69 ∨ e = 101) ∧ (sign = [] ∨ sign = [43] ∨ sign = [45]) ∧ Digits ds ∧
    m = e :: (sign ++ ds)

def Number (m : Bytes) : Prop :=
  ∃ sign whole frac exp, (sign = [] ∨ sign = [45]) ∧ Whole whole ∧ Fraction frac ∧ Exponent exp ∧
    m = sign ++ whole ++ frac ++ exp

def isHex (b : UInt8) : Bool := isDigit b || (65 ≤ b && b ≤ 70) || (97 ≤ b && b ≤ 102)

/-- What stands between the quotes of a string. -/
inductive Chars : Bytes → Prop
  | nil : Chars []
  | plain {b : UInt8} {m : Bytes} : 32 ≤ b ∧ b ≠ 34 ∧ b ≠ 92 → Chars m → Chars (b :: m)
  | escape {b : UInt8} {m : Bytes} :
      b ∈ [34,92,47,98,102,110,114,116] → Chars m → Chars (92 :: b :: m)
  | unicode {a b c d : UInt8} {m : Bytes} :
      isHex a = true → isHex b = true → isHex c = true → isHex d = true → Chars m →
        Chars (92 :: 117 :: a :: b :: c :: d :: m)

mutual

inductive Value : Bytes → Prop
  | null : Value (utf8 "null")
  | false : Value (utf8 "false")
  | true : Value (utf8 "true")
  | number {m : Bytes} : Number m → Value m
  | string {m : Bytes} : Chars m → Value (34 :: (m ++ [34]))
  | emptyArray {ws : Bytes} : Blank ws → Value (91 :: (ws ++ [93]))
  | array {m : Bytes} : Elements m → Value (91 :: (m ++ [93]))
  | emptyObject {ws : Bytes} : Blank ws → Value (123 :: (ws ++ [125]))
  | object {m : Bytes} : Members m → Value (123 :: (m ++ [125]))

/-- A value with the blanks around it. -/
inductive Element : Bytes → Prop
  | mk {ws m ws' : Bytes} : Blank ws → Value m → Blank ws' → Element (ws ++ m ++ ws')

inductive Elements : Bytes → Prop
  | one {m : Bytes} : Element m → Elements m
  | cons {e m : Bytes} : Element e → Elements m → Elements (e ++ 44 :: m)

inductive Member : Bytes → Prop
  | mk {ws k ws' m : Bytes} : Blank ws → Chars k → Blank ws' → Element m →
      Member (ws ++ 34 :: (k ++ 34 :: (ws' ++ 58 :: m)))

inductive Members : Bytes → Prop
  | one {m : Bytes} : Member m → Members m
  | cons {e m : Bytes} : Member e → Members m → Members (e ++ 44 :: m)

end

theorem blank_nil : Blank [] := by simp [Blank]

theorem chars_plain {m : Bytes} (h : ∀ b ∈ m, 32 ≤ b ∧ b ≠ 34 ∧ b ≠ 92) : Chars m := by
  induction m with
  | nil => exact Chars.nil
  | cons b m ih => exact Chars.plain (h b (by simp)) (ih fun c hc => h c (by simp [hc]))

theorem number_decimal (z : ℤ) : Number (decimal z) := by
  have hw : Whole (natText z.natAbs) := by
    by_cases h : z.natAbs = 0
    · exact Or.inl (by rw [h]; decide)
    · exact Or.inr ⟨⟨natText_ne_nil _,natText_isDigit _⟩,natText_head h⟩
  by_cases hz : z < 0
  · exact ⟨[45],_,[],[],Or.inr rfl,hw,Or.inl rfl,Or.inl rfl,by simp [decimal,hz]⟩
  · exact ⟨[],_,[],[],Or.inl rfl,hw,Or.inl rfl,Or.inl rfl,by simp [decimal,hz]⟩

theorem Value.element {m : Bytes} (h : Value m) : Element m := by
  simpa using Element.mk blank_nil h blank_nil

theorem Element.member {k m : Bytes} (hk : Chars k) (h : Element m) :
    Member (34 :: (k ++ 34 :: 58 :: m)) := by
  simpa using Member.mk blank_nil hk blank_nil h

theorem elements_intercalate {ms : List Bytes} (hne : ms ≠ []) (h : ∀ m ∈ ms, Value m) :
    Elements ([44].intercalate ms) := by
  induction ms with
  | nil => exact absurd rfl hne
  | cons m ms ih =>
    have hm := (h m (by simp)).element
    cases ms with
    | nil => simpa using Elements.one hm
    | cons m' ms =>
      have hms := ih (by simp) fun x hx => h x (by simp [hx])
      simpa using Elements.cons hm hms

end JsonText
end WddProc
