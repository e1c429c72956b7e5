import WddProc.CJsonMinify

/-!
# Minified documents

Minifying a formatted print gives the unformatted one. A document with comments becomes one
that the parser reads, with the same value.
-/

namespace WddProc
namespace Minify

/-- A byte that stays, whatever comes next. -/
def PlainByte (b : UInt8) : Prop := b ≠ 0 ∧ ¬ White b ∧ b ≠ 34 ∧ b ≠ 47

instance (b : UInt8) : Decidable (PlainByte b) := inferInstanceAs (Decidable (_ ∧ _))

theorem plain_of_all {x : Bytes} (h : x.all (fun b => decide (PlainByte b)) = true) : ∀ b ∈ x, PlainByte b := by
  simpa using h

theorem Minifies.plain {x m n : Bytes} (hx : ∀ b ∈ x, PlainByte b) (h : Minifies m n) :
    Minifies (x ++ m) (x ++ n) := by
  induction x with
  | nil => exact h
  | cons b x ih =>
    obtain ⟨h₀,hw,h₃₄,h₄₇⟩ := hx b List.mem_cons_self
    exact .byte h₀ hw h₃₄ (fun hb => absurd hb h₄₇) (ih fun c hc => hx c (List.mem_cons_of_mem b hc))

theorem Minifies.plain_cons {b : UInt8} {m n : Bytes} (hb : PlainByte b) (h : Minifies m n) :
    Minifies (b :: m) (b :: n) := h.plain (x := [b]) (by simpa using hb)

theorem Minifies.whites {x m n : Bytes} (hx : ∀ b ∈ x, White b) (h : Minifies m n) : Minifies (x ++ m) n := by
  induction x with
  | nil => exact h
  | cons b x ih => exact .white (hx b List.mem_cons_self) (ih fun c hc => hx c (List.mem_cons_of_mem b hc))

theorem Quoted.append {s t : Bytes} (hs : Quoted s) (ht : Quoted t) : Quoted (s ++ t) := by
  induction hs with
  | nil => exact ht
  | plain h₀ h₃₄ h₉₂ _ ih => exact .plain h₀ h₃₄ h₉₂ ih
  | escaped h₀ _ ih => exact .escaped h₀ ih

theorem hexByte_plain {d : UInt8} (h : d < 16) : hexByte d ≠ 0 ∧ hexByte d ≠ 34 ∧ hexByte d ≠ 92 := by
  have hall : ∀ n < 16, hexByte (UInt8.ofNat n) ≠ 0 ∧ hexByte (UInt8.ofNat n) ≠ 34 ∧
      hexByte (UInt8.ofNat n) ≠ 92 := by decide
  simpa using hall d.toNat (by simpa using UInt8.lt_iff_toNat_lt.mp h)

theorem quoted_escapeByte {b : UInt8} (hb : b ≠ 0) : Quoted (escapeByte b) := by
  have hhex : Quoted [hexByte (b / 16),hexByte (b % 16)] := by
    have hq : b / 16 < 16 := by
      rw [UInt8.lt_iff_toNat_lt,UInt8.toNat_div]
      exact Nat.div_lt_of_lt_mul b.toNat_lt
    have hr : b % 16 < 16 := by
      rw [UInt8.lt_iff_toNat_lt,UInt8.toNat_mod]
      exact Nat.mod_lt _ (by decide)
    obtain ⟨h₁,h₂,h₃⟩ := hexByte_plain hq
    obtain ⟨k₁,k₂,k₃⟩ := hexByte_plain hr
    exact .plain h₁ h₂ h₃ (.plain k₁ k₂ k₃ .nil)
  have hu : Quoted (92 :: 117 :: 48 :: 48 :: [hexByte (b / 16),hexByte (b % 16)]) :=
    .escaped (by decide) (.plain (by decide) (by decide) (by decide)
      (.plain (by decide) (by decide) (by decide) hhex))
  have hescaped {e : UInt8} (he : e ≠ 0) : Quoted [92,e] := .escaped he .nil
  unfold escapeByte
  split_ifs with h
  · exact .plain hb h.2.1 h.2.2 .nil
  all_goals first | exact hescaped (by decide) | exact hu

theorem quoted_escape {s : Bytes} (hs : 0 ∉ s) : Quoted (escape s) := by
  induction s with
  | nil => exact .nil
  | cons b s ih =>
    simp only [List.mem_cons,not_or] at hs
    exact (quoted_escapeByte (Ne.symm hs.1)).append (ih hs.2)

theorem Minifies.printString (s : Option CString) {m n : Bytes} (h : Minifies m n) :
    Minifies (printStringPtr s ++ m) (printStringPtr s ++ n) := by
  cases s with
  | none => exact h
  | some s =>
    have h := Minifies.string (quoted_escape s.nulFree) h
    simpa [printStringPtr] using h

theorem white_newline (fmt : Bool) : ∀ b ∈ CJson.newline fmt, White b := by
  cases fmt <;> simp [CJson.newline,White]

theorem white_tabs (fmt : Bool) (d : ℕ) : ∀ b ∈ CJson.tabs fmt d, White b := by
  intro b hb
  cases fmt with
  | false => cases hb
  | true =>
    rw [(List.mem_replicate.mp hb).2]
    decide

def PlainNumbers (p : Platform) : Prop := ∀ vi vd, ∀ b ∈ (p.numberText vi vd).bytes, PlainByte b

mutual

theorem minifies_value {p : Platform} (hp : PlainNumbers p) (t : CJson) (d d' : ℕ) {m n : Bytes}
    (h : Minifies m n) :
    Minifies (CJson.printValue p true d t ++ m) (CJson.printValue p false d' t ++ n) := by
  match t with
  | .mk ty vs vi vd st ch =>
    cases ty with
    | null => exact h.plain (x := utf8 "null") (plain_of_all (by decide))
    | false => exact h.plain (x := utf8 "false") (plain_of_all (by decide))
    | true => exact h.plain (x := utf8 "true") (plain_of_all (by decide))
    | number => exact h.plain (hp vi vd)
    | string => exact h.printString vs
    | array =>
      have hitems := minifies_items hp ch (d + 1) (d' + 1) (h.plain_cons (b := 93) (by decide))
      simp only [CJson.printValue,List.cons_append,List.append_assoc,List.nil_append]
      exact hitems.plain_cons (by decide)
    | object =>
      have hclose := h.plain_cons (b := 125) (by decide)
      simp only [CJson.printValue]
      split
      · have hopen := (hclose.whites (white_tabs true (d - 1))).whites (white_newline true)
        simpa [CJson.newline,CJson.tabs] using hopen.plain_cons (b := 123) (by decide)
      · have hmembers := minifies_members hp ch (d + 1) (d' + 1) (hclose.whites (white_tabs true d))
        have hopen := (hmembers.whites (white_newline true)).plain_cons (b := 123) (by decide)
        simpa [CJson.newline,CJson.tabs] using hopen

theorem minifies_items {p : Platform} (hp : PlainNumbers p) (ts : List CJson) (d d' : ℕ) {m n : Bytes}
    (h : Minifies m n) :
    Minifies (CJson.printItems p true d ts ++ m) (CJson.printItems p false d' ts ++ n) := by
  match ts with
  | [] => exact h
  | t :: ts =>
    have hts := minifies_items hp ts d d' h
    have hcomma : Minifies ((if ts.isEmpty then [] else [44,32]) ++ (CJson.printItems p true d ts ++ m))
        ((if ts.isEmpty then [] else [44]) ++ (CJson.printItems p false d' ts ++ n)) := by
      split
      · exact hts
      · exact (hts.whites (x := [32]) (by simp [White])).plain_cons (b := 44) (by decide)
    have ht := minifies_value hp t d d' hcomma
    simpa [CJson.printItems] using ht

theorem minifies_members {p : Platform} (hp : PlainNumbers p) (ts : List CJson) (d d' : ℕ) {m n : Bytes}
    (h : Minifies m n) :
    Minifies (CJson.printMembers p true d ts ++ m) (CJson.printMembers p false d' ts ++ n) := by
  match ts with
  | [] => exact h
  | t :: ts =>
    have hts := (minifies_members hp ts d d' h).whites (white_newline true)
    have hcomma : Minifies ((if ts.isEmpty then [] else [44]) ++
          (CJson.newline true ++ (CJson.printMembers p true d ts ++ m)))
        ((if ts.isEmpty then [] else [44]) ++ (CJson.printMembers p false d' ts ++ n)) := by
      split
      · exact hts
      · exact hts.plain_cons (b := 44) (by decide)
    have ht := (minifies_value hp t d d' hcomma).whites (x := [9]) (by simp [White])
    have hname := (ht.plain_cons (b := 58) (by decide)).printString t.string
    have hline := hname.whites (white_tabs true d)
    simpa [CJson.printMembers,CJson.newline,CJson.tabs] using hline

end

/-- Minifying the formatted text of a tree in its block gives the unformatted text. -/
theorem minify_print {p : Platform} (hp : PlainNumbers p) (t : CJson) (d : ℕ) (rest : Bytes) : ∃ old : Bytes,
    (CJson.printValue p false d t).length + old.length = (CJson.printValue p true d t).length ∧
      cJSONMinify (CJson.printValue p true d t ++ 0 :: rest) =
        .done (CJson.printValue p false d t ++ 0 :: (old ++ rest)) := by
  have h := minifies_value hp t d d .nil
  rw [List.append_nil,List.append_nil] at h
  obtain ⟨old,hlen,-,hrun⟩ := h.run rest
  exact ⟨old,hlen,hrun⟩

/-- What may stand between two tokens, comments only if `c` says so, and what stays of it. -/
inductive Gap (c : Bool) : Bytes → Bytes → Prop
  | nil : Gap c [] []
  | white {b : UInt8} {g g' : Bytes} : White b → Gap c g g' → Gap c (b :: g) g'
  -- the parser skips all control characters, but only these four are dropped
  | control {b : UInt8} {g g' : Bytes} : b ≠ 0 → b ≤ 32 → ¬ White b → Gap c g g' → Gap c (b :: g) (b :: g')
  | line {l g g' : Bytes} : c = true → 0 ∉ l → 10 ∉ l → Gap c g g' → Gap c (47 :: 47 :: (l ++ 10 :: g)) g'
  -- a comment that begins `/*/` is left out: it ends there for `cJSON_Minify`
  | block {l g g' : Bytes} : c = true → Unended (42 :: l) → Gap c g g' →
      Gap c (47 :: 42 :: (l ++ 42 :: 47 :: g)) g'

/-- The end of a document, perhaps inside a comment. -/
inductive Ending (c : Bool) : Bytes → Bytes → Prop
  | gap {g g' : Bytes} : Gap c g g' → Ending c g g'
  | line {l g g' : Bytes} : c = true → 0 ∉ l → 10 ∉ l → Gap c g g' → Ending c (g ++ 47 :: 47 :: l) g'

/-- `x` is the value of the string literal with these bytes between its quotes. -/
def Reads (s : Bytes) (x : CString) : Prop :=
  Quoted s ∧ ∀ r, Parse.parseString (34 :: (s ++ 34 :: r)) = .done (x,r)

mutual

/-- A text of a value, and what stays of it. -/
inductive Written (c : Bool) : Bytes → Bytes → Json → Prop
  | null : Written c (utf8 "null") (utf8 "null") .null
  | «false» : Written c (utf8 "false") (utf8 "false") .false
  | «true» : Written c (utf8 "true") (utf8 "true") .true
  | string {s : Bytes} {x : CString} : Reads s x → Written c (34 :: (s ++ [34])) (34 :: (s ++ [34])) (.string x)
  | number {b : UInt8} {m : Bytes} {l : Literal} : b = 45 ∨ isDigit b = true → (∀ d ∈ b :: m, PlainByte d) →
      (∀ r, Parse.NumberEnds r → Parse.literal (b :: (m ++ r)) = .done (l,r)) →
      Written c (b :: m) (b :: m) (.number l)
  | emptyArray {g g' : Bytes} : Gap c g g' → Written c (91 :: (g ++ [93])) (91 :: (g' ++ [93])) (.array [])
  | array {g g' m m' is is' : Bytes} {j : Json} {js : List Json} : Gap c g g' → Written c m m' j →
      WrittenItems c is is' js → Written c (91 :: (g ++ (m ++ is))) (91 :: (g' ++ (m' ++ is'))) (.array (j :: js))
  | emptyObject {g g' : Bytes} : Gap c g g' →
      Written c (123 :: (g ++ [125])) (123 :: (g' ++ [125])) (.object [])
  | object {m m' ms ms' : Bytes} {x : CString × Json} {xs : List (CString × Json)} : WrittenMember c m m' x →
      WrittenMembers c ms ms' xs → Written c (123 :: (m ++ ms)) (123 :: (m' ++ ms')) (.object (x :: xs))

inductive WrittenItems (c : Bool) : Bytes → Bytes → List Json → Prop
  | close {g g' : Bytes} : Gap c g g' → WrittenItems c (g ++ [93]) (g' ++ [93]) []
  | comma {g g' h h' m m' is is' : Bytes} {j : Json} {js : List Json} : Gap c g g' → Gap c h h' →
      Written c m m' j → WrittenItems c is is' js →
      WrittenItems c (g ++ 44 :: (h ++ (m ++ is))) (g' ++ 44 :: (h' ++ (m' ++ is'))) (j :: js)

inductive WrittenMember (c : Bool) : Bytes → Bytes → CString × Json → Prop
  | mk {g g' h h' k k' s m m' : Bytes} {x : CString} {j : Json} : Gap c g g' → Gap c h h' → Gap c k k' →
      Reads s x → Written c m m' j →
      WrittenMember c (g ++ 34 :: (s ++ 34 :: (h ++ 58 :: (k ++ m))))
        (g' ++ 34 :: (s ++ 34 :: (h' ++ 58 :: (k' ++ m')))) (x,j)

inductive WrittenMembers (c : Bool) : Bytes → Bytes → List (CString × Json) → Prop
  | close {g g' : Bytes} : Gap c g g' → WrittenMembers c (g ++ [125]) (g' ++ [125]) []
  | comma {g g' m m' ms ms' : Bytes} {x : CString × Json} {xs : List (CString × Json)} : Gap c g g' →
      WrittenMember c m m' x → WrittenMembers c ms ms' xs →
      WrittenMembers c (g ++ 44 :: (m ++ ms)) (g' ++ 44 :: (m' ++ ms')) (x :: xs)

end

variable {c : Bool}

theorem Gap.minifies {g g' m n : Bytes} (hg : Gap c g g') (h : Minifies m n) :
    Minifies (g ++ m) (g' ++ n) := by
  induction hg with
  | nil => exact h
  | white hb _ ih => exact .white hb ih
  | @control b _ _ h₀ h₃₂ hw _ ih =>
    refine ih.plain_cons ⟨h₀,hw,?_,?_⟩ <;> (rintro rfl; exact absurd h₃₂ (by decide))
  | line _ h₀ h₁₀ _ ih =>
    have hline := Minifies.line h₀ h₁₀ (m := 10 :: _) (by simp) (.white (Or.inr (Or.inr (Or.inr rfl))) ih)
    simpa using hline
  | block _ hl _ ih => simpa using Minifies.block hl ih

theorem Ending.minifies {g g' : Bytes} (hg : Ending c g g') : Minifies g g' := by
  cases hg with
  | gap hg => simpa using hg.minifies .nil
  | line _ h₀ h₁₀ hg =>
    have hline := Minifies.line h₀ h₁₀ (m := []) (by simp) .nil
    simpa using hg.minifies hline

mutual

theorem Written.minifies {m m' r n : Bytes} {j : Json} (hm : Written c m m' j) (h : Minifies r n) :
    Minifies (m ++ r) (m' ++ n) := by
  cases hm with
  | null => exact h.plain (plain_of_all (by decide))
  | «false» => exact h.plain (plain_of_all (by decide))
  | «true» => exact h.plain (plain_of_all (by decide))
  | string hs => simpa using Minifies.string hs.1 h
  | number _ hplain _ => exact h.plain hplain
  | emptyArray hg =>
    have hclose := hg.minifies (h.plain_cons (b := 93) (by decide))
    simpa using hclose.plain_cons (b := 91) (by decide)
  | array hg hm his =>
    have hvalue := hg.minifies (hm.minifies (his.minifies h))
    simpa using hvalue.plain_cons (b := 91) (by decide)
  | emptyObject hg =>
    have hclose := hg.minifies (h.plain_cons (b := 125) (by decide))
    simpa using hclose.plain_cons (b := 123) (by decide)
  | object hm hms => simpa using (hm.minifies (hms.minifies h)).plain_cons (b := 123) (by decide)

theorem WrittenItems.minifies {m m' r n : Bytes} {js : List Json} (hm : WrittenItems c m m' js)
    (h : Minifies r n) : Minifies (m ++ r) (m' ++ n) := by
  cases hm with
  | close hg => simpa using hg.minifies (h.plain_cons (b := 93) (by decide))
  | comma hg hh hm his =>
    have hnext := hh.minifies (hm.minifies (his.minifies h))
    simpa using hg.minifies (hnext.plain_cons (b := 44) (by decide))

theorem WrittenMember.minifies {m m' r n : Bytes} {x : CString × Json} (hm : WrittenMember c m m' x)
    (h : Minifies r n) : Minifies (m ++ r) (m' ++ n) := by
  cases hm with
  | mk hg hh hk hs hm =>
    have hvalue := (hk.minifies (hm.minifies h)).plain_cons (b := 58) (by decide)
    simpa using hg.minifies (Minifies.string hs.1 (hh.minifies hvalue))

theorem WrittenMembers.minifies {m m' r n : Bytes} {xs : List (CString × Json)}
    (hm : WrittenMembers c m m' xs) (h : Minifies r n) : Minifies (m ++ r) (m' ++ n) := by
  cases hm with
  | close hg => simpa using hg.minifies (h.plain_cons (b := 125) (by decide))
  | comma hg hm hms =>
    have hnext := (hm.minifies (hms.minifies h)).plain_cons (b := 44) (by decide)
    simpa using hg.minifies hnext

end

theorem Gap.stable {g g' : Bytes} (hg : Gap c g g') : Gap false g' g' := by
  induction hg with
  | nil => exact .nil
  | white _ _ ih => exact ih
  | control h₀ h₃₂ hw _ ih => exact .control h₀ h₃₂ hw ih
  | line _ _ _ _ ih => exact ih
  | block _ _ _ ih => exact ih

theorem Ending.stable {g g' : Bytes} (hg : Ending c g g') : Ending false g' g' := by
  cases hg with
  | gap hg => exact .gap hg.stable
  | line _ _ _ hg => exact .gap hg.stable

mutual

theorem Written.stable {m m' : Bytes} {j : Json} (h : Written c m m' j) : Written false m' m' j := by
  cases h with
  | null => exact .null
  | «false» => exact .false
  | «true» => exact .true
  | string hs => exact .string hs
  | number hb hplain hl => exact .number hb hplain hl
  | emptyArray hg => exact .emptyArray hg.stable
  | array hg hm his => exact .array hg.stable hm.stable his.stable
  | emptyObject hg => exact .emptyObject hg.stable
  | object hm hms => exact .object hm.stable hms.stable

theorem WrittenItems.stable {m m' : Bytes} {js : List Json} (h : WrittenItems c m m' js) :
    WrittenItems false m' m' js := by
  cases h with
  | close hg => exact .close hg.stable
  | comma hg hh hm his => exact .comma hg.stable hh.stable hm.stable his.stable

theorem WrittenMember.stable {m m' : Bytes} {x : CString × Json} (h : WrittenMember c m m' x) :
    WrittenMember false m' m' x := by
  cases h with
  | mk hg hh hk hs hm => exact .mk hg.stable hh.stable hk.stable hs hm.stable

theorem WrittenMembers.stable {m m' : Bytes} {xs : List (CString × Json)} (h : WrittenMembers c m m' xs) :
    WrittenMembers false m' m' xs := by
  cases h with
  | close hg => exact .close hg.stable
  | comma hg hm hms => exact .comma hg.stable hm.stable hms.stable

end

theorem Gap.blank {g g' : Bytes} (h : Gap false g g') : Parse.Blank g := by
  generalize hc : false = c at h
  induction h with
  | nil => exact Parse.blank_nil
  | @white b _ _ hb _ ih =>
    have hb : b ≠ 0 ∧ b ≤ 32 := by rcases hb with rfl | rfl | rfl | rfl <;> decide
    exact List.forall_mem_cons.mpr ⟨hb,ih⟩
  | control h₀ h₃₂ _ _ ih => exact List.forall_mem_cons.mpr ⟨⟨h₀,h₃₂⟩,ih⟩
  | line htrue => exact absurd (hc.trans htrue) (by decide)
  | block htrue => exact absurd (hc.trans htrue) (by decide)

theorem Ending.blank {g g' : Bytes} (h : Ending false g g') : Parse.Blank g := by
  cases h with
  | gap hg => exact hg.blank
  | line htrue => exact absurd htrue (by decide)

theorem numberEnds_blank {g : Bytes} (hg : Parse.Blank g) {b : UInt8} {r : Bytes}
    (h : Parse.NumberEnds (b :: r)) : Parse.NumberEnds (g ++ b :: r) := by
  cases g with
  | nil => exact h
  | cons d g =>
    have hd := (hg d List.mem_cons_self).2
    exact Parse.numberEnds_cons (UInt8.lt_of_le_of_lt hd (show (32 : UInt8) < 46 by decide)) _

theorem numberEnds_bracket {b : UInt8} (hb : b = 93 ∨ b = 125) (r : Bytes) : Parse.NumberEnds (b :: r) := by
  refine ⟨b,r,rfl,?_⟩
  rcases hb with rfl | rfl <;> decide

theorem WrittenItems.ends {m m' : Bytes} {js : List Json} (h : WrittenItems false m m' js) (r : Bytes) :
    Parse.NumberEnds (m ++ r) := by
  cases h with
  | close hg => simpa using numberEnds_blank hg.blank (numberEnds_bracket (Or.inl rfl) r)
  | comma hg hh hm his =>
    rw [List.append_assoc]
    exact numberEnds_blank hg.blank (Parse.numberEnds_cons (by decide) _)

theorem WrittenMembers.ends {m m' : Bytes} {xs : List (CString × Json)} (h : WrittenMembers false m m' xs)
    (r : Bytes) : Parse.NumberEnds (m ++ r) := by
  cases h with
  | close hg => simpa using numberEnds_blank hg.blank (numberEnds_bracket (Or.inr rfl) r)
  | comma hg hm hms =>
    rw [List.append_assoc]
    exact numberEnds_blank hg.blank (Parse.numberEnds_cons (by decide) _)

mutual

theorem Written.valueAt {m m' r : Bytes} {j : Json} (h : Written false m m' j) (hr : Parse.NumberEnds r) :
    Parse.ValueAt (m ++ r) j r := by
  cases h with
  | null => exact .null r
  | «false» => exact .false r
  | «true» => exact .true r
  | string hs => simpa using Parse.ValueAt.string (hs.2 r)
  | number hb _ hl => exact .number hb (hl r hr)
  | emptyArray hg => simpa using Parse.ValueAt.emptyArray r hg.blank
  | array hg hm his =>
    have hvalue := hm.valueAt (his.ends r)
    simpa using Parse.ValueAt.array hg.blank hvalue (his.itemsAt r)
  | emptyObject hg => simpa using Parse.ValueAt.emptyObject r hg.blank
  | object hm hms =>
    have hmember := hm.memberAt (hms.ends r)
    simpa using Parse.ValueAt.object hmember (hms.membersAt r)

theorem WrittenItems.itemsAt {m m' : Bytes} {js : List Json} (h : WrittenItems false m m' js) (r : Bytes) :
    Parse.ItemsAt (m ++ r) js r := by
  cases h with
  | close hg => simpa using Parse.ItemsAt.close r hg.blank
  | comma hg hh hm his =>
    have hvalue := hm.valueAt (his.ends r)
    simpa using Parse.ItemsAt.comma hg.blank hh.blank hvalue (his.itemsAt r)

theorem WrittenMember.memberAt {m m' r : Bytes} {x : CString × Json} (h : WrittenMember false m m' x)
    (hr : Parse.NumberEnds r) : Parse.MemberAt (m ++ r) x r := by
  cases h with
  | mk hg hh hk hs hm =>
    have hvalue := hm.valueAt hr
    have hmember := Parse.MemberAt.mk hg.blank hh.blank hk.blank (hs.2 _) hvalue
    simpa using hmember

theorem WrittenMembers.membersAt {m m' : Bytes} {xs : List (CString × Json)}
    (h : WrittenMembers false m m' xs) (r : Bytes) : Parse.MembersAt (m ++ r) xs r := by
  cases h with
  | close hg => simpa using Parse.MembersAt.close r hg.blank
  | comma hg hm hms =>
    have hmember := hm.memberAt (hms.ends r)
    simpa using Parse.MembersAt.comma hg.blank hmember (hms.membersAt r)

end

/-- A text without comments is parsed to its value, whatever follows its NUL. -/
theorem parse_written (p : Platform) {g g' m m' h h' : Bytes} {j : Json} (hg : Gap false g g')
    (hm : Written false m m' j) (hh : Ending false h h') (rest : Bytes) :
    Parse.cJSONParse p (g ++ (m ++ h) ++ 0 :: rest) = .done (j.tree p) := by
  have hends := numberEnds_blank hh.blank (Parse.numberEnds_cons (b := 0) (by decide) rest)
  have hvalue := hm.valueAt hends
  exact Parse.Document.parse p ⟨g,_,h ++ 0 :: rest,hg.blank,by simp,hvalue⟩

theorem minifies_written {g g' m m' h h' : Bytes} {j : Json} (hg : Gap c g g') (hm : Written c m m' j)
    (hh : Ending c h h') : Minifies (g ++ (m ++ h)) (g' ++ (m' ++ h')) :=
  hg.minifies (hm.minifies hh.minifies)

/-- Minifying a document in its block leaves a document that the parser reads as the same value
and that minifying leaves as it is. -/
theorem minify_document (p : Platform) {g g' m m' h h' : Bytes} {j : Json} (hg : Gap c g g')
    (hm : Written c m m' j) (hh : Ending c h h') (rest : Bytes) : ∃ mem,
    cJSONMinify (g ++ (m ++ h) ++ 0 :: rest) = .done mem ∧
      Parse.cJSONParse p mem = .done (j.tree p) ∧ cJSONMinify mem = .done mem ∧
      (c = false → Parse.cJSONParse p (g ++ (m ++ h) ++ 0 :: rest) = .done (j.tree p)) := by
  obtain ⟨old,-,-,hrun⟩ := (minifies_written hg hm hh).run rest
  obtain ⟨old',hlen,-,hagain⟩ :=
    (minifies_written hg.stable hm.stable hh.stable).run (old ++ rest)
  refine ⟨_,hrun,parse_written p hg.stable hm.stable hh.stable _,?_,?_⟩
  · obtain rfl : old' = [] := List.length_eq_zero_iff.mp (by omega)
    exact hagain
  · rintro rfl
    exact parse_written p hg hm hh rest

theorem reads_sample : Reads (utf8 "a b") (CString.lit "a b") := by
  refine ⟨(quoted_escape (CString.lit "a b").nulFree :),fun r => ?_⟩
  have h := Parse.parseString_print (CString.lit "a b") r
  rw [show printStringPtr (some (CString.lit "a b")) = 34 :: (utf8 "a b" ++ [34]) by decide] at h
  simpa using h

theorem written_sample : Written true (utf8 "[ true /* c */, \"a b\" ]") (utf8 "[true,\"a b\"]")
    (.array [.true,.string (CString.lit "a b")]) := by
  have hwhite : Gap true [32] [] := .white (by decide) .nil
  have hcomment : Gap true (utf8 " /* c */") [] :=
    .white (by decide) (.block rfl (.cons (by decide) (by decide) (.cons (by decide) (by decide)
      (.cons (by decide) (by decide) (.cons (by decide) (by decide) .nil)))) .nil)
  have hitems := WrittenItems.comma hcomment hwhite (.string reads_sample) (.close hwhite)
  have harray := Written.array hwhite .true hitems
  convert harray using 1 <;> decide

theorem minify_document_sample : ∃ mem,
    cJSONMinify ([] ++ (utf8 "[ true /* c */, \"a b\" ]" ++ utf8 "//") ++ 0 :: []) = .done mem ∧
      Parse.cJSONParse .sample mem = .done ((Json.array [.true,.string (CString.lit "a b")]).tree .sample) ∧
      cJSONMinify mem = .done mem ∧
      (true = false → Parse.cJSONParse .sample ([] ++ (utf8 "[ true /* c */, \"a b\" ]" ++ utf8 "//") ++ 0 :: []) =
        .done ((Json.array [.true,.string (CString.lit "a b")]).tree .sample)) :=
  minify_document .sample .nil written_sample (.line (l := []) rfl (by decide) (by decide) .nil) []

end Minify
end WddProc
