import WddProc.CJsonScan

/-!
# The texts that cJSON accepts

A grammar over the tokens of the parser: `ValueAt m j r` reads the value `j` at the
start of `m` and leaves `r`. It is stricter than JSON in nothing and laxer in blanks,
string escapes, numbers and what follows a value.
-/

namespace WddProc

/-- A JSON value with its numbers as they are written. -/
inductive Json
  | null | false | true
  | number (l : Literal)
  | string (s : CString)
  | array (items : List Json)
  | object (members : List (CString × Json))

namespace Json

variable (p : Platform)

mutual

def tree : Json → CJson
  | .null => .mk .null none 0 0 none []
  | .false => .mk .false none 0 0 none []
  | .true => .mk .true none 1 0 none []
  | .number l => Parse.numberItem p l
  | .string s => .mk .string (some s) 0 0 none []
  | .array js => .mk .array none 0 0 none (trees js)
  | .object xs => .mk .object none 0 0 none (memberTrees xs)

def trees : List Json → List CJson
  | [] => []
  | j :: js => tree j :: trees js

def memberTrees : List (CString × Json) → List CJson
  | [] => []
  | (s,j) :: xs => (tree j).named s :: memberTrees xs

end

theorem trees_eq (js : List Json) : trees p js = js.map (tree p) := by
  induction js with
  | nil => rfl
  | cons j js ih => rw [trees,ih,List.map_cons]

theorem memberTrees_eq (xs : List (CString × Json)) :
    memberTrees p xs = xs.map fun x => (tree p x.2).named x.1 := by
  induction xs with
  | nil => rfl
  | cons x xs ih => rw [memberTrees,ih,List.map_cons]

end Json

namespace Parse

open Outcome

mutual

inductive ValueAt : Bytes → Json → Bytes → Prop
  | null (r : Bytes) : ValueAt (utf8 "null" ++ r) .null r
  | «false» (r : Bytes) : ValueAt (utf8 "false" ++ r) .false r
  | «true» (r : Bytes) : ValueAt (utf8 "true" ++ r) .true r
  | string {m r : Bytes} {s : CString} : parseString m = .done (s,r) → ValueAt m (.string s) r
  | number {b : UInt8} {m r : Bytes} {l : Literal} : b = 45 ∨ isDigit b = true →
      literal (b :: m) = .done (l,r) → ValueAt (b :: m) (.number l) r
  | emptyArray {ws : Bytes} (r : Bytes) : Blank ws → ValueAt (91 :: (ws ++ 93 :: r)) (.array []) r
  | array {ws m r r' : Bytes} {j : Json} {js : List Json} : Blank ws → ValueAt m j r →
      ItemsAt r js r' → ValueAt (91 :: (ws ++ m)) (.array (j :: js)) r'
  | emptyObject {ws : Bytes} (r : Bytes) : Blank ws → ValueAt (123 :: (ws ++ 125 :: r)) (.object []) r
  | object {m r r' : Bytes} {x : CString × Json} {xs : List (CString × Json)} : MemberAt m x r →
      MembersAt r xs r' → ValueAt (123 :: m) (.object (x :: xs)) r'

inductive ItemsAt : Bytes → List Json → Bytes → Prop
  | close {ws : Bytes} (r : Bytes) : Blank ws → ItemsAt (ws ++ 93 :: r) [] r
  | comma {ws ws' m r r' : Bytes} {j : Json} {js : List Json} : Blank ws → Blank ws' →
      ValueAt m j r → ItemsAt r js r' → ItemsAt (ws ++ 44 :: (ws' ++ m)) (j :: js) r'

inductive MemberAt : Bytes → CString × Json → Bytes → Prop
  | mk {ws ws₁ ws₂ k m r : Bytes} {s : CString} {j : Json} : Blank ws → Blank ws₁ → Blank ws₂ →
      parseString k = .done (s,ws₁ ++ 58 :: (ws₂ ++ m)) → ValueAt m j r → MemberAt (ws ++ k) (s,j) r

inductive MembersAt : Bytes → List (CString × Json) → Bytes → Prop
  | close {ws : Bytes} (r : Bytes) : Blank ws → MembersAt (ws ++ 125 :: r) [] r
  | comma {ws m r r' : Bytes} {x : CString × Json} {xs : List (CString × Json)} : Blank ws →
      MemberAt m x r → MembersAt r xs r' → MembersAt (ws ++ 44 :: m) (x :: xs) r'

end

/-- A block starts with a value after blanks. -/
def Document (m : Bytes) (j : Json) : Prop := ∃ ws m' r, Blank ws ∧ m = ws ++ m' ∧ ValueAt m' j r

theorem ItemsAt.blank {ws m r : Bytes} {js : List Json} (hws : Blank ws) (h : ItemsAt m js r) :
    ItemsAt (ws ++ m) js r := by
  cases h with
  | close r h =>
    rw [← List.append_assoc]
    exact ItemsAt.close r (hws.append h)
  | comma h h' hv hi =>
    rw [← List.append_assoc]
    exact ItemsAt.comma (hws.append h) h' hv hi

theorem MembersAt.blank {ws m r : Bytes} {xs : List (CString × Json)} (hws : Blank ws)
    (h : MembersAt m xs r) : MembersAt (ws ++ m) xs r := by
  cases h with
  | close r h =>
    rw [← List.append_assoc]
    exact MembersAt.close r (hws.append h)
  | comma h hm hms =>
    rw [← List.append_assoc]
    exact MembersAt.comma (hws.append h) hm hms

theorem MemberAt.blank {ws m r : Bytes} {x : CString × Json} (hws : Blank ws) (h : MemberAt m x r) :
    MemberAt (ws ++ m) x r := by
  cases h with
  | mk h h₁ h₂ hs hv =>
    rw [← List.append_assoc]
    exact MemberAt.mk (hws.append h) h₁ h₂ hs hv

variable (p : Platform)

theorem values_at (f : ℕ) :
    (∀ m, Post (fun r => ∃ j, ValueAt m j r.2 ∧ r.1 = j.tree p) (parseValue p f m)) ∧
    (∀ m, Post (fun r => ∃ j, ValueAt m j r.2 ∧ r.1 = j.tree p) (parseArray p f m)) ∧
    (∀ m, Post (fun r => ∃ js, ItemsAt m js r.2 ∧ r.1 = Json.trees p js) (parseItems p f m)) ∧
    (∀ m, Post (fun r => ∃ j, ValueAt m j r.2 ∧ r.1 = j.tree p) (parseObject p f m)) ∧
    (∀ m, Post (fun r => ∃ x : CString × Json, MemberAt m x r.2 ∧ r.1 = (x.2.tree p).named x.1)
      (parseMember p f m)) ∧
    ∀ m, Post (fun r => ∃ xs, MembersAt m xs r.2 ∧ r.1 = Json.memberTrees p xs)
      (parseMembers p f m) := by
  induction f with
  | zero => exact ⟨fun m => post_fault,fun m => post_fault,fun m => post_fault,fun m => post_fault,
      fun m => post_fault,fun m => post_fault⟩
  | succ f ih =>
    obtain ⟨hvalue,harray,hitems,hobject,hmember,hmembers⟩ := ih
    refine ⟨fun m => ?_,fun m => ?_,fun m => ?_,fun m => ?_,fun m => ?_,fun m => ?_⟩
    · cases m with
      | nil =>
        rw [parseValue_nil]
        exact post_fault
      | cons b m =>
        rw [parseValue_step]
        have hkeyword {item : CJson} {l : Bytes} {j : Json} (hitem : j.tree p = item)
            (hj : ∀ r, ValueAt (b :: (l ++ r)) j r) :
            Post (fun r => ∃ j, ValueAt (b :: m) j r.2 ∧ r.1 = j.tree p) (keyword item l m) :=
          (keyword_done item l m).mono fun r hr => ⟨j,hr.2 ▸ hj r.2,hr.1.trans hitem.symm⟩
        refine post_ite (fun hb => hkeyword (j := .null) rfl ?_) (fun _ => post_ite
          (fun hb => hkeyword (j := .false) rfl ?_) (fun _ => post_ite
          (fun hb => hkeyword (j := .true) rfl ?_) (fun _ => post_ite (fun _ => ?_)
          (fun _ => post_ite (fun hb => ?_) (fun _ => post_ite (fun _ => harray _)
          (fun _ => post_ite (fun _ => hobject _) (fun _ => post_null)))))))
        · exact hb ▸ ValueAt.null
        · exact hb ▸ ValueAt.false
        · exact hb ▸ ValueAt.true
        · cases hs : parseString (b :: m) with
          | done r => exact post_done.mpr ⟨.string r.1,ValueAt.string hs,rfl⟩
          | null => exact post_null
          | fault => exact post_fault
        · rw [parseNumber_eq]
          cases hl : literal (b :: m) with
          | done r => exact post_done.mpr ⟨.number r.1,ValueAt.number hb hl,rfl⟩
          | null => exact post_null
          | fault => exact post_fault
    · cases m with
      | nil => exact post_fault
      | cons b m =>
        unfold parseArray
        refine post_ite (fun _ => post_null) (fun hb => (skip_done m).bind ?_)
        obtain rfl : b = 91 := by simpa using hb
        rintro r ⟨ws,hws,rfl⟩
        cases r with
        | nil => exact post_fault
        | cons c r =>
          refine post_ite ?_ (fun _ => (skip_done (c :: r)).bind ?_)
          · rintro rfl
            exact post_done.mpr ⟨.array [],ValueAt.emptyArray r hws,rfl⟩
          · rintro m' ⟨ws',hws',hm'⟩
            refine (hvalue m').bind ?_
            rintro ⟨t,r₁⟩ ⟨j,hj,rfl⟩
            refine (skip_done r₁).bind ?_
            rintro r₂ ⟨ws₂,hws₂,rfl⟩
            refine (hitems r₂).bind ?_
            rintro ⟨ts,r₃⟩ ⟨js,hjs,rfl⟩
            refine post_done.mpr ⟨.array (j :: js),?_,rfl⟩
            rw [hm',← List.append_assoc]
            exact ValueAt.array (hws.append hws') hj (hjs.blank hws₂)
    · cases m with
      | nil => exact post_fault
      | cons b m =>
        unfold parseItems
        refine post_ite ?_ (fun _ => post_ite ?_ (fun _ => post_null))
        · rintro rfl
          refine (skip_done m).bind ?_
          rintro m' ⟨ws,hws,rfl⟩
          refine (hvalue m').bind ?_
          rintro ⟨t,r⟩ ⟨j,hj,rfl⟩
          refine (skip_done r).bind ?_
          rintro r₁ ⟨ws₁,hws₁,rfl⟩
          refine (hitems r₁).bind ?_
          rintro ⟨ts,r₂⟩ ⟨js,hjs,rfl⟩
          exact post_done.mpr ⟨j :: js,ItemsAt.comma blank_nil hws hj (hjs.blank hws₁),rfl⟩
        · rintro rfl
          exact post_done.mpr ⟨[],ItemsAt.close m blank_nil,rfl⟩
    · cases m with
      | nil => exact post_fault
      | cons b m =>
        unfold parseObject
        refine post_ite (fun _ => post_null) (fun hb => (skip_done m).bind ?_)
        obtain rfl : b = 123 := by simpa using hb
        rintro r ⟨ws,hws,rfl⟩
        cases r with
        | nil => exact post_fault
        | cons c r =>
          refine post_ite ?_ (fun _ => (hmember (c :: r)).bind ?_)
          · rintro rfl
            exact post_done.mpr ⟨.object [],ValueAt.emptyObject r hws,rfl⟩
          · rintro ⟨t,r₁⟩ ⟨x,hx,rfl⟩
            refine (skip_done r₁).bind ?_
            rintro r₂ ⟨ws₂,hws₂,rfl⟩
            refine (hmembers r₂).bind ?_
            rintro ⟨ts,r₃⟩ ⟨xs,hxs,rfl⟩
            exact post_done.mpr
              ⟨.object (x :: xs),ValueAt.object (hx.blank hws) (hxs.blank hws₂),rfl⟩
    · unfold parseMember
      refine (skip_done m).bind ?_
      rintro k ⟨ws,hws,rfl⟩
      cases hs : parseString k with
      | null => exact post_null
      | fault => exact post_fault
      | done s =>
        obtain ⟨s,r⟩ := s
        refine (skip_done r).bind ?_
        rintro r₁ ⟨ws₁,hws₁,rfl⟩
        cases r₁ with
        | nil => exact post_fault
        | cons b r₁ =>
          refine post_ite (fun _ => post_null) (fun hb => (skip_done r₁).bind ?_)
          obtain rfl : b = 58 := by simpa using hb
          rintro m' ⟨ws₂,hws₂,rfl⟩
          refine (hvalue m').bind ?_
          rintro ⟨t,r₂⟩ ⟨j,hj,rfl⟩
          exact post_done.mpr ⟨(s,j),MemberAt.mk hws hws₁ hws₂ hs hj,rfl⟩
    · cases m with
      | nil => exact post_fault
      | cons b m =>
        unfold parseMembers
        refine post_ite ?_ (fun _ => post_ite ?_ (fun _ => post_null))
        · rintro rfl
          refine (hmember m).bind ?_
          rintro ⟨t,r⟩ ⟨x,hx,rfl⟩
          refine (skip_done r).bind ?_
          rintro r₁ ⟨ws₁,hws₁,rfl⟩
          refine (hmembers r₁).bind ?_
          rintro ⟨ts,r₂⟩ ⟨xs,hxs,rfl⟩
          exact post_done.mpr ⟨x :: xs,MembersAt.comma blank_nil hx (hxs.blank hws₁),rfl⟩
        · rintro rfl
          exact post_done.mpr ⟨[],MembersAt.close m blank_nil,rfl⟩

/-- Whatever the parser returns is the tree of a written value. -/
theorem document_of_parse {m : Bytes} {t : CJson} (h : cJSONParse p m = .done t) :
    ∃ j, Document m j ∧ t = j.tree p := by
  have hpost : Post (fun t => ∃ j, Document m j ∧ t = j.tree p) (cJSONParse p m) := by
    refine (skip_done m).bind ?_
    rintro m' ⟨ws,hws,rfl⟩
    refine ((values_at p (3 * (ws ++ m').length + 3)).1 m').bind ?_
    rintro ⟨t,r⟩ ⟨j,hj,rfl⟩
    exact post_done.mpr ⟨j,⟨ws,m',r,hws,rfl,hj⟩,rfl⟩
  exact hpost t h

mutual

theorem ValueAt.shorter {m r : Bytes} {j : Json} (h : ValueAt m j r) : r.length < m.length := by
  cases h with
  | null r =>
    rw [List.length_append,show (utf8 "null").length = 4 by decide]
    omega
  | «false» r =>
    rw [List.length_append,show (utf8 "false").length = 5 by decide]
    omega
  | «true» r =>
    rw [List.length_append,show (utf8 "true").length = 4 by decide]
    omega
  | string hs => exact parseString_shorter m _ hs
  | number hb hl => exact literal_shorter hb _ _ hl
  | emptyArray r h =>
    simp only [List.length_cons,List.length_append]
    omega
  | array h hv hi =>
    have h₁ := hv.shorter
    have h₂ := hi.shorter
    simp only [List.length_cons,List.length_append]
    omega
  | emptyObject r h =>
    simp only [List.length_cons,List.length_append]
    omega
  | object hm hms =>
    have h₁ := hm.shorter
    have h₂ := hms.shorter
    rw [List.length_cons]
    omega

theorem ItemsAt.shorter {m r : Bytes} {js : List Json} (h : ItemsAt m js r) : r.length < m.length := by
  cases h with
  | close r h =>
    simp only [List.length_cons,List.length_append]
    omega
  | comma h h' hv hi =>
    have h₁ := hv.shorter
    have h₂ := hi.shorter
    simp only [List.length_cons,List.length_append]
    omega

theorem MemberAt.shorter {m r : Bytes} {x : CString × Json} (h : MemberAt m x r) :
    r.length < m.length := by
  cases h with
  | mk h h₁ h₂ hs hv =>
    have hk := parseString_shorter _ _ hs
    have hr := hv.shorter
    simp only [Shorter,List.length_cons,List.length_append] at *
    omega

theorem MembersAt.shorter {m r : Bytes} {xs : List (CString × Json)} (h : MembersAt m xs r) :
    r.length < m.length := by
  cases h with
  | close r h =>
    simp only [List.length_cons,List.length_append]
    omega
  | comma h hm hms =>
    have h₁ := hm.shorter
    have h₂ := hms.shorter
    simp only [List.length_cons,List.length_append]
    omega

end

theorem head_of_parseString {m r : Bytes} {s : CString} (h : parseString m = .done (s,r)) :
    ∃ m', m = 34 :: m' := by
  cases m with
  | nil => cases h
  | cons b m =>
    by_cases hb : b = 34
    · exact ⟨m,by rw [hb]⟩
    · simp [parseString,hb] at h

theorem visible_of_digit {b : UInt8} (h : b = 45 ∨ isDigit b = true) :
    32 < b ∧ b ≠ 34 ∧ b ≠ 93 ∧ b ≠ 102 ∧ b ≠ 110 ∧ b ≠ 116 ∧ b ≠ 125 := by
  rcases h with rfl | h
  · decide
  · have hn : 48 ≤ b.toNat ∧ b.toNat ≤ 57 := by simpa [isDigit,UInt8.le_iff_toNat_le] using h
    refine ⟨UInt8.lt_iff_toNat_lt.mpr (by simp; omega),?_,?_,?_,?_,?_,?_⟩ <;>
      (rintro rfl; simp at hn)

theorem ValueAt.head {m r : Bytes} {j : Json} (h : ValueAt m j r) :
    ∃ b m', m = b :: m' ∧ 32 < b ∧ b ≠ 93 := by
  cases h with
  | null r => exact ⟨110,_,rfl,by decide,by decide⟩
  | «false» r => exact ⟨102,_,rfl,by decide,by decide⟩
  | «true» r => exact ⟨116,_,rfl,by decide,by decide⟩
  | string hs =>
    obtain ⟨m',rfl⟩ := head_of_parseString hs
    exact ⟨34,m',rfl,by decide,by decide⟩
  | number hb hl => exact ⟨_,_,rfl,(visible_of_digit hb).1,(visible_of_digit hb).2.2.1⟩
  | emptyArray r h => exact ⟨91,_,rfl,by decide,by decide⟩
  | array h hv hi => exact ⟨91,_,rfl,by decide,by decide⟩
  | emptyObject r h => exact ⟨123,_,rfl,by decide,by decide⟩
  | object hm hms => exact ⟨123,_,rfl,by decide,by decide⟩

theorem ValueAt.skip {m r ws : Bytes} {j : Json} (h : ValueAt m j r) (hws : Blank ws) :
    Parse.skip (ws ++ m) = .done m := by
  obtain ⟨b,m',rfl,hb,-⟩ := h.head
  rw [skip_blank ws hws]
  exact skip_visible hb m'

theorem skip_punct {ws : Bytes} (hws : Blank ws) {b : UInt8} (hb : 32 < b) (m : Bytes) :
    skip (ws ++ b :: m) = .done (b :: m) := by
  rw [skip_blank ws hws]
  exact skip_visible hb m

theorem parseValue_bracket (f : ℕ) (m : Bytes) :
    parseValue p (f + 1) (91 :: m) = parseArray p f (91 :: m) := by
  rw [parseValue_step]
  simp [isDigit]

theorem parseValue_brace (f : ℕ) (m : Bytes) :
    parseValue p (f + 1) (123 :: m) = parseObject p f (123 :: m) := by
  rw [parseValue_step]
  simp [isDigit]

mutual

theorem ValueAt.parse {m r : Bytes} {j : Json} (h : ValueAt m j r) {f : ℕ}
    (hf : 3 * m.length + 1 ≤ f) : parseValue p f m = .done (j.tree p,r) := by
  obtain ⟨f,rfl⟩ : ∃ g, f = g + 1 := ⟨f - 1,by omega⟩
  cases h with
  | null r => exact (parseValue_step p f 110 (utf8 "ull" ++ r)).trans (keyword_append _ _ r)
  | «false» r => exact (parseValue_step p f 102 (utf8 "alse" ++ r)).trans (keyword_append _ _ r)
  | «true» r => exact (parseValue_step p f 116 (utf8 "rue" ++ r)).trans (keyword_append _ _ r)
  | string hs =>
    obtain ⟨m',rfl⟩ := head_of_parseString hs
    rw [parseValue_step,if_neg (by decide),if_neg (by decide),if_neg (by decide),if_pos rfl,hs]
    rfl
  | number hb hl =>
    obtain ⟨-,h34,-,h102,h110,h116,-⟩ := visible_of_digit hb
    rw [parseValue_step,if_neg h110,if_neg h102,if_neg h116,if_neg h34,if_pos hb,parseNumber_eq,hl]
    rfl
  | emptyArray r h =>
    simp only [List.length_cons,List.length_append] at hf
    obtain ⟨f,rfl⟩ : ∃ g, f = g + 1 := ⟨f - 1,by omega⟩
    rw [parseValue_bracket,parseArray,if_neg (by decide),skip_punct h (by decide)]
    rfl
  | @array ws m r r' j js h hv hi =>
    simp only [List.length_cons,List.length_append] at hf
    obtain ⟨f,rfl⟩ : ∃ g, f = g + 1 := ⟨f - 1,by omega⟩
    have hlt := hv.shorter
    obtain ⟨b,m',hm,-,h93⟩ := hv.head
    obtain ⟨r₁,hskip,hitems⟩ := hi.parse (f := f) (by omega)
    have hv' := hv.parse (f := f) (by omega)
    have hs := hv.skip blank_nil
    rw [parseValue_bracket,parseArray,if_neg (by decide),hv.skip h]
    subst hm
    rw [List.nil_append] at hs
    simp only [done_bind,if_neg h93,hs,hv',hskip,hitems]
    rfl
  | emptyObject r h =>
    simp only [List.length_cons,List.length_append] at hf
    obtain ⟨f,rfl⟩ : ∃ g, f = g + 1 := ⟨f - 1,by omega⟩
    rw [parseValue_brace,parseObject,if_neg (by decide),skip_punct h (by decide)]
    rfl
  | @object m r r' x xs hm hms =>
    rw [List.length_cons] at hf
    obtain ⟨f,rfl⟩ : ∃ g, f = g + 1 := ⟨f - 1,by omega⟩
    have hlt := hm.shorter
    obtain ⟨m',hskip,hmember,-⟩ := hm.parse (f := f) (by omega)
    obtain ⟨r₁,hskip₁,hmembers⟩ := hms.parse (f := f) (by omega)
    rw [parseValue_brace,parseObject,if_neg (by decide),hskip]
    simp only [done_bind,if_neg (show ¬ (34 : UInt8) = 125 by decide),hmember,hskip₁,hmembers]
    rfl

theorem ItemsAt.parse {m r : Bytes} {js : List Json} (h : ItemsAt m js r) {f : ℕ}
    (hf : 3 * m.length + 1 ≤ f) :
    ∃ m', Parse.skip m = .done m' ∧ parseItems p f m' = .done (Json.trees p js,r) := by
  obtain ⟨f,rfl⟩ : ∃ g, f = g + 1 := ⟨f - 1,by omega⟩
  cases h with
  | close r h => exact ⟨93 :: r,skip_punct h (by decide) r,rfl⟩
  | @comma ws ws' m r r' j js h h' hv hi =>
    simp only [List.length_cons,List.length_append] at hf
    have hlt := hv.shorter
    obtain ⟨r₁,hskip,hitems⟩ := hi.parse (f := f) (by omega)
    have hv' := hv.parse (f := f) (by omega)
    refine ⟨44 :: (ws' ++ m),skip_punct h (by decide) _,?_⟩
    rw [parseItems,if_pos rfl,hv.skip h']
    simp only [done_bind,hv',hskip,hitems]
    rfl

theorem MemberAt.parse {m r : Bytes} {x : CString × Json} (h : MemberAt m x r) {f : ℕ}
    (hf : 3 * m.length + 2 ≤ f) :
    ∃ m', Parse.skip m = .done (34 :: m') ∧
      parseMember p f (34 :: m') = .done ((x.2.tree p).named x.1,r) ∧
      parseMember p f m = .done ((x.2.tree p).named x.1,r) := by
  obtain ⟨f,rfl⟩ : ∃ g, f = g + 1 := ⟨f - 1,by omega⟩
  cases h with
  | @mk ws ws₁ ws₂ k m r s j h h₁ h₂ hs hv =>
    have hk := parseString_shorter _ _ hs
    obtain ⟨k',rfl⟩ := head_of_parseString hs
    simp only [Shorter,List.length_cons,List.length_append] at hf hk
    have hv' := hv.parse (f := f) (by omega)
    have hskip : Parse.skip (ws ++ 34 :: k') = .done (34 :: k') := skip_punct h (by decide) k'
    have hself : Parse.skip (34 :: k') = .done (34 :: k') := skip_visible (by decide) k'
    refine ⟨k',hskip,?_,?_⟩ <;>
      simp only [parseMember,hself,hskip,done_bind,hs,skip_punct h₁ (show (32 : UInt8) < 58 by decide),
        ne_eq,not_true_eq_false,if_false,hv.skip h₂,hv']

theorem MembersAt.parse {m r : Bytes} {xs : List (CString × Json)} (h : MembersAt m xs r) {f : ℕ}
    (hf : 3 * m.length + 1 ≤ f) :
    ∃ m', Parse.skip m = .done m' ∧ parseMembers p f m' = .done (Json.memberTrees p xs,r) := by
  obtain ⟨f,rfl⟩ : ∃ g, f = g + 1 := ⟨f - 1,by omega⟩
  cases h with
  | close r h => exact ⟨125 :: r,skip_punct h (by decide) r,rfl⟩
  | @comma ws m r r' x xs h hm hms =>
    simp only [List.length_cons,List.length_append] at hf
    have hlt := hm.shorter
    obtain ⟨m',-,-,hmember⟩ := hm.parse (f := f) (by omega)
    obtain ⟨r₁,hskip₁,hmembers⟩ := hms.parse (f := f) (by omega)
    refine ⟨44 :: m,skip_punct h (by decide) _,?_⟩
    rw [parseMembers,if_pos rfl,hmember]
    simp only [done_bind,hskip₁,hmembers]
    rfl

end

/-- A block that starts with a value is parsed to its tree. -/
theorem Document.parse {m : Bytes} {j : Json} (h : Document m j) :
    cJSONParse p m = .done (j.tree p) := by
  obtain ⟨ws,m',r,hws,rfl,hv⟩ := h
  have hlt := hv.shorter
  have hv' := hv.parse p (f := 3 * (ws ++ m').length + 3) (by
    rw [List.length_append]
    omega)
  rw [cJSONParse,hv.skip hws,done_bind,hv']
  rfl

theorem cJSONParse_iff {m : Bytes} {t : CJson} :
    cJSONParse p m = .done t ↔ ∃ j, Document m j ∧ t = j.tree p := by
  constructor
  · exact document_of_parse p
  · rintro ⟨j,hj,rfl⟩
    exact hj.parse p

theorem cJSONParse_print_first {t : CJson} {ts : List CJson} {st : CString} {j : Json}
    (hst : t.string = some st) (hts : MembersPrintable p ts)
    (hv : ValueAt (CJson.printValue p true 1 t ++ valueTail p true 0 ts [0]) j
      (valueTail p true 0 ts [0])) :
    cJSONParse p (CJson.print p (.mk .object none 0 0 none (t :: ts)) ++ [0]) =
      .done (.mk .object none 0 0 none ((j.tree p).named st :: ts)) := by
  obtain ⟨xs,hxs,htrees⟩ := (values_at p (needList ts)).2.2.2.2.2 _ _
    (parseMembers_print p true ts hts 0 (needList ts) le_rfl [0])
  obtain ⟨ws,hws,htail⟩ := skip_done _ _ (skip_valueTail p true 0 ts [0])
  have hmembers : MembersAt (valueTail p true 0 ts [0]) xs [0] := htail ▸ hxs.blank hws
  have hmember := @MemberAt.mk [10,9] [] [9] _ _ _ _ _ (by simp [Blank]) blank_nil (by simp [Blank])
    (parseString_print st (58 :: 9 :: (CJson.printValue p true 1 t ++ valueTail p true 0 ts [0]))) hv
  have htext : CJson.print p (.mk .object none 0 0 none (t :: ts)) ++ [0] =
      123 :: ([10,9] ++ (printStringPtr (some st) ++
        58 :: 9 :: (CJson.printValue p true 1 t ++ valueTail p true 0 ts [0]))) := by
    have h := valueTail_members p true 0 t ts [0]
    rw [hst] at h
    simp only [CJson.print,CJson.printValue,List.isEmpty_cons,Bool.false_eq_true,if_false]
    simpa [CJson.newline,CJson.tabs] using h
  have hdoc : Document (CJson.print p (.mk .object none 0 0 none (t :: ts)) ++ [0])
      (.object ((st,j) :: xs)) := by
    rw [htext]
    exact ⟨[],_,[0],blank_nil,rfl,ValueAt.object hmember hmembers⟩
  have htree : Json.memberTrees p xs = ts := htrees.symm
  rw [hdoc.parse p,Json.tree,Json.memberTrees,htree]

end Parse
end WddProc
