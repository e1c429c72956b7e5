import WddProc.CJsonParse

/-!
# Printing and parsing are inverse

`cJSONParse_print` returns any tree that printer and parser share: strings of
arbitrary bytes, arrays, objects, keywords, and numbers whose text reads back.
The fuel of the parser is bounded by the length of the text on the way.
-/

namespace WddProc
namespace Parse

theorem skip_visible {b : UInt8} (hb : 32 < b) (m : Bytes) : skip (b :: m) = .done (b :: m) := by
  simp [skip,UInt8.not_le.mpr hb]

theorem skip_blank (ws : Bytes) (hws : ∀ b ∈ ws, b ≠ 0 ∧ b ≤ 32) (m : Bytes) :
    skip (ws ++ m) = skip m := by
  induction ws with
  | nil => rfl
  | cons b ws ih =>
    have hb := hws b (by simp)
    simp only [List.cons_append,skip,if_pos hb]
    exact ih (fun c hc => hws c (by simp [hc]))

theorem hexVal_hexByte : ∀ n < 16, hexVal (hexByte (UInt8.ofNat n)) = some n := by decide

theorem parseHex_hexByte {b : UInt8} (hb : b < 32) (m : Bytes) :
    parseHex 4 0 (48 :: 48 :: hexByte (b / 16) :: hexByte (b % 16) :: m) = .done b.toNat := by
  have hn : b.toNat < 32 := by simpa using UInt8.lt_iff_toNat_lt.mp hb
  have hq : b / 16 = UInt8.ofNat (b.toNat / 16) := by
    apply UInt8.toNat_inj.mp; simp; omega
  have hr : b % 16 = UInt8.ofNat (b.toNat % 16) := by
    apply UInt8.toNat_inj.mp; simp; omega
  have h48 : hexVal 48 = some 0 := by decide
  simp only [parseHex,h48,hq,hr,hexVal_hexByte _ (show b.toNat / 16 < 16 by omega),
    hexVal_hexByte _ (show b.toNat % 16 < 16 by omega)]
  congr 1
  omega

theorem escapeByte_cases (b : UInt8) :
    (31 < b ∧ b ≠ 34 ∧ b ≠ 92 ∧ escapeByte b = [b]) ∨
    (∃ e, e ≠ 117 ∧ escapeByte b = [92,e] ∧
      (if e = 98 then 8 else if e = 102 then 12 else if e = 110 then 10
        else if e = 114 then 13 else if e = 116 then 9 else e) = b) ∨
    (b < 32 ∧ escapeByte b = [92,117,48,48,hexByte (b / 16),hexByte (b % 16)]) := by
  by_cases h : 31 < b ∧ b ≠ 34 ∧ b ≠ 92
  · exact Or.inl ⟨h.1,h.2.1,h.2.2,if_pos h⟩
  · right
    rw [escapeByte,if_neg h]
    by_cases h92 : b = 92
    · exact Or.inl ⟨92,by decide,by simp [h92],by simp [h92]⟩
    by_cases h34 : b = 34
    · exact Or.inl ⟨34,by decide,by simp [h34],by simp [h34]⟩
    by_cases h8 : b = 8
    · exact Or.inl ⟨98,by decide,by simp [h8],by simp [h8]⟩
    by_cases h12 : b = 12
    · exact Or.inl ⟨102,by decide,by simp [h12],by simp [h12]⟩
    by_cases h10 : b = 10
    · exact Or.inl ⟨110,by decide,by simp [h10],by simp [h10]⟩
    by_cases h13 : b = 13
    · exact Or.inl ⟨114,by decide,by simp [h13],by simp [h13]⟩
    by_cases h9 : b = 9
    · exact Or.inl ⟨116,by decide,by simp [h9],by simp [h9]⟩
    right
    refine ⟨?_,by simp [h92,h34,h8,h12,h10,h13,h9]⟩
    have h31 : ¬ 31 < b := fun hb => h ⟨hb,h34,h92⟩
    have hn := UInt8.lt_iff_toNat_lt.not.mp h31
    apply UInt8.lt_iff_toNat_lt.mpr
    simp at hn ⊢
    omega

theorem unescapeUnicode_control {b : UInt8} (h0 : b ≠ 0) (hb : b < 32) (m : Bytes) :
    unescapeUnicode (48 :: 48 :: hexByte (b / 16) :: hexByte (b % 16) :: m) = .done ([b],m) := by
  have hn : b.toNat < 32 := by simpa using UInt8.lt_iff_toNat_lt.mp hb
  have hz : b.toNat ≠ 0 := fun h => h0 (UInt8.toNat_inj.mp (by simpa using h))
  rw [unescapeUnicode,parseHex_hexByte hb,Outcome.done_bind,if_neg (by omega),if_neg (by omega)]
  simp [encodeUtf8,show b.toNat < 0x80 by omega]

theorem unescape_escapeByte {b : UInt8} (h0 : b ≠ 0) (f : ℕ) (m : Bytes) :
    unescape (f + 1) (escapeByte b ++ m) = (do
      let r ← unescape f m
      .done (b :: r.1,r.2)) := by
  rcases escapeByte_cases b with ⟨-,h34,h92,he⟩ | ⟨e,h117,he,hb⟩ | ⟨hb,he⟩
  · simp [he,unescape,h34,h0,h92]
  · simp only [he,List.cons_append,List.nil_append,unescape]
    rw [if_neg (by decide),if_neg (by decide),if_neg h117,hb]
  · simp only [he,List.cons_append,List.nil_append,unescape]
    rw [if_neg (by decide),if_neg (by decide),if_pos trivial,unescapeUnicode_control h0 hb]
    simp

theorem unescape_escape {s : Bytes} (hs : 0 ∉ s) {f : ℕ} (hf : s.length < f) (m : Bytes) :
    unescape f (escape s ++ 34 :: m) = .done (s,34 :: m) := by
  induction s generalizing f with
  | nil =>
    obtain ⟨f,rfl⟩ : ∃ g, f = g + 1 := ⟨f - 1,by simp at hf; omega⟩
    simp [escape,unescape]
  | cons b s ih =>
    obtain ⟨f,rfl⟩ : ∃ g, f = g + 1 := ⟨f - 1,by simp at hf; omega⟩
    have hb : b ≠ 0 := fun h => hs (by simp [h])
    have ht := ih (fun h => hs (by simp [h])) (f := f) (by simpa using hf)
    have he : escape (b :: s) ++ 34 :: m = escapeByte b ++ (escape s ++ 34 :: m) := by simp [escape]
    rw [he,unescape_escapeByte hb,ht]
    rfl

theorem scanLen_quote (m : Bytes) : scanLen (34 :: m) = .done 0 := by simp [scanLen.eq_def]

theorem scanLen_plain {b : UInt8} (h34 : b ≠ 34) (h0 : b ≠ 0) (h92 : b ≠ 92) (m : Bytes) :
    scanLen (b :: m) = (do let n ← scanLen m; .done (n + 1)) := by
  rw [scanLen.eq_def]
  simp [h34,h0,h92]

theorem scanLen_backslash (e : UInt8) (m : Bytes) :
    scanLen (92 :: e :: m) = (do let n ← scanLen m; .done (n + 1)) := by
  rw [scanLen.eq_def]
  simp

theorem scanLen_hexByte {d : UInt8} (hd : d < 16) (m : Bytes) :
    scanLen (hexByte d :: m) = (do let n ← scanLen m; .done (n + 1)) := by
  have hx : ∀ n < 16, hexByte (UInt8.ofNat n) ≠ 34 ∧ hexByte (UInt8.ofNat n) ≠ 0 ∧
      hexByte (UInt8.ofNat n) ≠ 92 := by decide
  have hh := hx d.toNat (by simpa using UInt8.lt_iff_toNat_lt.mp hd)
  rw [UInt8.ofNat_toNat] at hh
  exact scanLen_plain hh.1 hh.2.1 hh.2.2 m

theorem scanLen_escapeByte {b : UInt8} (h0 : b ≠ 0) (m : Bytes) :
    ∃ w, scanLen (escapeByte b ++ m) = (do let n ← scanLen m; .done (n + (w + 1))) := by
  rcases escapeByte_cases b with ⟨-,h34,h92,he⟩ | ⟨e,-,he,-⟩ | ⟨hb,he⟩
  · exact ⟨0,by simp [he,scanLen_plain h34 h0 h92]⟩
  · exact ⟨0,by simp [he,scanLen_backslash]⟩
  · have hq : b / 16 < 16 := by
      apply UInt8.lt_iff_toNat_lt.mpr
      have := b.toNat_lt
      simp
      omega
    have hr : b % 16 < 16 := by
      apply UInt8.lt_iff_toNat_lt.mpr
      simp
      omega
    have h48 (m : Bytes) := scanLen_plain (b := 48) (by decide) (by decide) (by decide) m
    refine ⟨4,?_⟩
    simp only [he,List.cons_append,List.nil_append,scanLen_backslash,h48,scanLen_hexByte hq,
      scanLen_hexByte hr]
    cases scanLen m <;> simp

theorem scanLen_escape {s : Bytes} (hs : 0 ∉ s) (m : Bytes) :
    ∃ n, scanLen (escape s ++ 34 :: m) = .done n ∧ s.length ≤ n := by
  induction s with
  | nil => exact ⟨0,by simp [escape,scanLen_quote],le_refl _⟩
  | cons b s ih =>
    obtain ⟨n,hn,hl⟩ := ih (fun h => hs (by simp [h]))
    obtain ⟨w,hw⟩ := scanLen_escapeByte (fun h : b = 0 => hs (by simp [h])) (escape s ++ 34 :: m)
    have he : escape (b :: s) ++ 34 :: m = escapeByte b ++ (escape s ++ 34 :: m) := by simp [escape]
    refine ⟨n + (w + 1),by rw [he,hw,hn]; rfl,?_⟩
    simp
    omega

theorem escape_length_le (s : Bytes) : s.length ≤ (escape s).length := by
  induction s with
  | nil => simp
  | cons b s ih =>
    have hb : 1 ≤ (escapeByte b).length := by
      rcases escapeByte_cases b with ⟨-,-,-,he⟩ | ⟨e,-,he,-⟩ | ⟨-,he⟩ <;> simp [he]
    simp only [escape,List.flatMap_cons,List.length_append,List.length_cons] at *
    omega

/-- Any C string survives being printed and parsed. -/
theorem parseString_print (s : CString) (m : Bytes) :
    parseString (printStringPtr (some s) ++ m) = .done (s,m) := by
  obtain ⟨n,hn,hl⟩ := scanLen_escape s.nulFree m
  have hf : s.bytes.length < (escape s.bytes ++ 34 :: m).length + 1 := by
    have hh := escape_length_le s.bytes
    simp only [List.length_append]
    omega
  have he : printStringPtr (some s) ++ m = 34 :: (escape s.bytes ++ 34 :: m) := by
    simp [printStringPtr]
  rw [he]
  simp only [parseString,hn,unescape_escape s.nulFree hf,Outcome.done_bind,ne_eq,not_true_eq_false,
    if_false,if_neg (Nat.not_lt.mpr hl),if_true,CString.ofMem_self]

/-- No byte that could continue a number literal comes next. -/
def NumberEnds (m : Bytes) : Prop :=
  ∃ b r, m = b :: r ∧ isDigit b = false ∧ b ≠ 46 ∧ b ≠ 101 ∧ b ≠ 69

theorem numberEnds_cons {b : UInt8} (h : b < 46) (r : Bytes) : NumberEnds (b :: r) := by
  have hn : b.toNat < 46 := by simpa using UInt8.lt_iff_toNat_lt.mp h
  refine ⟨b,r,rfl,?_,?_,?_,?_⟩
  · simp [isDigit,UInt8.le_iff_toNat_le]
    omega
  all_goals rintro rfl; simp at hn

variable (p : Platform) (fmt : Bool)

/-- The text of a number item reads back as the same item. -/
def NumberReads (vi : ℤ) (vd : F64) : Prop :=
  (∃ b r, (p.numberText vi vd).bytes = b :: r ∧ (b = 45 ∨ isDigit b = true)) ∧
  ∀ m, NumberEnds m →
    parseNumber p ((p.numberText vi vd).bytes ++ m) = .done (.mk .number none vi vd none [],m)

mutual

/-- Trees as the parser builds them, with a name exactly on the members of objects. -/
def Printable : CJson → Prop
  | .mk ty vs vi vd _ ch =>
    match ty with
    | .null | .false => vs = none ∧ vi = 0 ∧ vd = 0 ∧ ch = []
    | .true => vs = none ∧ vi = 1 ∧ vd = 0 ∧ ch = []
    | .number => vs = none ∧ ch = [] ∧ NumberReads p vi vd
    | .string => vs ≠ none ∧ vi = 0 ∧ vd = 0 ∧ ch = []
    | .array => vs = none ∧ vi = 0 ∧ vd = 0 ∧ ItemsPrintable ch
    | .object => vs = none ∧ vi = 0 ∧ vd = 0 ∧ MembersPrintable ch

def ItemsPrintable : List CJson → Prop
  | [] => True
  | t :: ts => t.string = none ∧ Printable t ∧ ItemsPrintable ts

def MembersPrintable : List CJson → Prop
  | [] => True
  | t :: ts => t.string ≠ none ∧ Printable t ∧ MembersPrintable ts

end

mutual

def need : CJson → ℕ
  | .mk ty _ _ _ _ ch =>
    match ty with
    | .array | .object => needList ch + 1
    | _ => 1

def needList : List CJson → ℕ
  | [] => 1
  | t :: ts => max (need t + 1) (needList ts) + 1

end

def unnamed : CJson → CJson
  | .mk ty vs vi vd _ ch => .mk ty vs vi vd none ch

theorem unnamed_of_string {t : CJson} (h : t.string = none) : unnamed t = t := by
  cases t
  simp_all [unnamed,CJson.string]

theorem named_unnamed {t : CJson} {st : CString} (h : t.string = some st) :
    (unnamed t).named st = t := by
  cases t
  simp_all [unnamed,CJson.string,CJson.named]

theorem printValue_head {t : CJson} (ht : Printable p t) (d : ℕ) :
    ∃ b r, CJson.printValue p fmt d t = b :: r ∧ 32 < b ∧ b ≠ 93 ∧ b ≠ 125 ∧ b ≠ 44 := by
  obtain ⟨ty,vs,vi,vd,st,ch⟩ := t
  cases ty with
  | null => exact ⟨110,_,rfl,by decide,by decide,by decide,by decide⟩
  | «false» => exact ⟨102,_,rfl,by decide,by decide,by decide,by decide⟩
  | «true» => exact ⟨116,_,rfl,by decide,by decide,by decide,by decide⟩
  | number =>
    obtain ⟨b,r,hb,hd⟩ := ht.2.2.1
    refine ⟨b,r,by simp only [CJson.printValue,hb],?_⟩
    rcases hd with rfl | hd
    · decide
    · have hn : 48 ≤ b.toNat ∧ b.toNat ≤ 57 := by
        simpa [isDigit,UInt8.le_iff_toNat_le] using hd
      refine ⟨UInt8.lt_iff_toNat_lt.mpr (by simp; omega),?_,?_,?_⟩ <;> (rintro rfl; simp at hn)
  | string =>
    obtain ⟨s,rfl⟩ := Option.ne_none_iff_exists'.mp ht.1
    exact ⟨34,_,rfl,by decide,by decide,by decide,by decide⟩
  | array => exact ⟨91,_,rfl,by decide,by decide,by decide,by decide⟩
  | object =>
    simp only [CJson.printValue]
    split <;> exact ⟨123,_,rfl,by decide,by decide,by decide,by decide⟩

theorem skip_printValue {t : CJson} (ht : Printable p t) (d : ℕ) (m : Bytes) :
    skip (CJson.printValue p fmt d t ++ m) = .done (CJson.printValue p fmt d t ++ m) := by
  obtain ⟨b,r,hb,h32,-⟩ := printValue_head p fmt ht d
  rw [hb]
  exact skip_visible h32 _

theorem newline_blank : ∀ b ∈ CJson.newline fmt, b ≠ 0 ∧ b ≤ 32 := by
  cases fmt <;> simp [CJson.newline]

theorem tabs_blank (d : ℕ) : ∀ b ∈ CJson.tabs fmt d, b ≠ 0 ∧ b ≤ 32 := by
  unfold CJson.tabs
  split
  · intro b hb
    rw [(List.mem_replicate.mp hb).2]
    decide
  · simp

theorem startsWith_append (l m : Bytes) : startsWith l (l ++ m) = .done true := by
  induction l with
  | nil => rfl
  | cons b l ih => simp [startsWith,ih]

theorem startsWith_ne {l b : UInt8} (h : b ≠ l) (ls m : Bytes) :
    startsWith (l :: ls) (b :: m) = .done false := by simp [startsWith,h]

theorem parseValue_other {b : UInt8} (hn : b ≠ 110) (hf : b ≠ 102) (ht : b ≠ 116) (f : ℕ) (m : Bytes) :
    parseValue p (f + 1) (b :: m) =
      if b = 34 then (do
        let r ← parseString (b :: m)
        .done (.mk .string (some r.1) 0 0 none [],r.2))
      else if b = 45 ∨ isDigit b then parseNumber p (b :: m)
      else if b = 91 then parseArray p f (b :: m)
      else if b = 123 then parseObject p f (b :: m)
      else .null := by
  have h₁ : utf8 "null" = 110 :: utf8 "ull" := by decide
  have h₂ : utf8 "false" = 102 :: utf8 "alse" := by decide
  have h₃ : utf8 "true" = 116 :: utf8 "rue" := by decide
  rw [parseValue,h₁,h₂,h₃]
  simp [startsWith_ne hn,startsWith_ne hf,startsWith_ne ht]

def itemsTail (d : ℕ) (ts : List CJson) (m : Bytes) : Bytes :=
  (if ts.isEmpty then [] else 44 :: (if fmt then [32] else [])) ++
    CJson.printItems p fmt d ts ++ 93 :: m

def membersTail (d : ℕ) (ts : List CJson) (m : Bytes) : Bytes :=
  if ts.isEmpty then 125 :: m
  else 44 :: (CJson.newline fmt ++ CJson.printMembers p fmt (d + 1) ts ++ CJson.tabs fmt d ++ 125 :: m)

def valueTail (d : ℕ) (ts : List CJson) (m : Bytes) : Bytes :=
  (if ts.isEmpty then [] else [44]) ++ CJson.newline fmt ++
    CJson.printMembers p fmt (d + 1) ts ++ CJson.tabs fmt d ++ 125 :: m

theorem skip_valueTail (d : ℕ) (ts : List CJson) (m : Bytes) :
    skip (valueTail p fmt d ts m) = .done (membersTail p fmt d ts m) := by
  cases ts with
  | nil =>
    simp only [valueTail,List.isEmpty_nil,if_true,List.nil_append,CJson.printMembers,List.append_nil,
      List.append_assoc,membersTail]
    rw [skip_blank _ (newline_blank fmt),skip_blank _ (tabs_blank fmt d)]
    exact skip_visible (by decide) m
  | cons t ts =>
    simp only [valueTail,List.isEmpty_cons,Bool.false_eq_true,if_false,List.cons_append,
      List.nil_append,List.append_assoc,membersTail]
    exact skip_visible (by decide) _

theorem numberEnds_valueTail (d : ℕ) (ts : List CJson) (m : Bytes) :
    NumberEnds (valueTail p fmt d ts m) := by
  cases ts with
  | cons t ts => exact numberEnds_cons (b := 44) (by decide) _
  | nil =>
    cases fmt with
    | «true» => exact numberEnds_cons (b := 10) (by decide) _
    | «false» => exact ⟨125,m,rfl,by decide,by decide,by decide,by decide⟩

theorem itemsTail_head (d : ℕ) (ts : List CJson) (m : Bytes) :
    NumberEnds (itemsTail p fmt d ts m) ∧
      skip (itemsTail p fmt d ts m) = .done (itemsTail p fmt d ts m) := by
  cases ts with
  | nil => exact ⟨⟨93,m,rfl,by decide,by decide,by decide,by decide⟩,skip_visible (by decide) m⟩
  | cons t ts => exact ⟨numberEnds_cons (b := 44) (by decide) _,skip_visible (b := 44) (by decide) _⟩

theorem parseMember_print {t : CJson} {st : CString} (ht : Printable p t) (hst : t.string = some st)
    {d g : ℕ} {m : Bytes}
    (hv : parseValue p g (CJson.printValue p fmt d t ++ m) = .done (unnamed t,m))
    (ws : Bytes) (hws : ∀ b ∈ ws, b ≠ 0 ∧ b ≤ 32) :
    parseMember p (g + 1) (ws ++ (printStringPtr t.string ++
      58 :: ((if fmt then [9] else []) ++ (CJson.printValue p fmt d t ++ m)))) = .done (t,m) := by
  have hq (r : Bytes) : skip (printStringPtr (some st) ++ r) = .done (printStringPtr (some st) ++ r) :=
    skip_visible (b := 34) (by decide) _
  have hc (r : Bytes) : skip (58 :: r) = .done (58 :: r) := skip_visible (by decide) r
  have hblank : ∀ b ∈ (if fmt then [9] else [] : Bytes), b ≠ 0 ∧ b ≤ 32 := by
    cases fmt <;> simp
  rw [hst]
  simp only [parseMember,skip_blank _ hws,hq,parseString_print,hc,skip_blank _ hblank,
    skip_printValue p fmt ht,hv,Outcome.done_bind,ne_eq,not_true_eq_false,if_false,
    named_unnamed hst]

theorem valueTail_members (d : ℕ) (t : CJson) (ts : List CJson) (m : Bytes) :
    CJson.printMembers p fmt (d + 1) (t :: ts) ++ CJson.tabs fmt d ++ 125 :: m =
      CJson.tabs fmt (d + 1) ++ (printStringPtr t.string ++ 58 :: ((if fmt then [9] else []) ++
        (CJson.printValue p fmt (d + 1) t ++ valueTail p fmt d ts m))) := by
  simp [CJson.printMembers,valueTail]

mutual

/-- Parsing undoes printing, for every tree the printer and the parser share. -/
theorem parseValue_print (t : CJson) (ht : Printable p t) (d f : ℕ) (hf : need t ≤ f) (m : Bytes)
    (hm : NumberEnds m) :
    parseValue p f (CJson.printValue p fmt d t ++ m) = .done (unnamed t,m) := by
  obtain ⟨ty,vs,vi,vd,st,ch⟩ := t
  obtain ⟨f,rfl⟩ : ∃ g, f = g + 1 := ⟨f - 1,by cases ty <;> simp [need] at hf <;> omega⟩
  cases ty with
  | null =>
    obtain ⟨rfl,rfl,rfl,rfl⟩ := ht
    simp only [CJson.printValue,parseValue,startsWith_append,Outcome.done_bind,if_true]
    rfl
  | «false» =>
    obtain ⟨rfl,rfl,rfl,rfl⟩ := ht
    have hn : startsWith (utf8 "null") (utf8 "false" ++ m) = .done false := rfl
    simp only [CJson.printValue,parseValue,hn,startsWith_append,Outcome.done_bind,if_true,
      Bool.false_eq_true,if_false]
    rfl
  | «true» =>
    obtain ⟨rfl,rfl,rfl,rfl⟩ := ht
    have hn : startsWith (utf8 "null") (utf8 "true" ++ m) = .done false := rfl
    have hh : startsWith (utf8 "false") (utf8 "true" ++ m) = .done false := rfl
    simp only [CJson.printValue,parseValue,hn,hh,startsWith_append,Outcome.done_bind,if_true,
      Bool.false_eq_true,if_false]
    rfl
  | number =>
    obtain ⟨rfl,rfl,⟨b,r,hb,hd⟩,hread⟩ := ht
    have hh := hread m hm
    simp only [CJson.printValue]
    rw [hb,List.cons_append] at hh ⊢
    have hne : b ≠ 110 ∧ b ≠ 102 ∧ b ≠ 116 ∧ b ≠ 34 := by
      rcases hd with rfl | hd
      · decide
      · refine ⟨?_,?_,?_,?_⟩ <;> (rintro rfl; simp [isDigit] at hd)
    rw [parseValue_other p hne.1 hne.2.1 hne.2.2.1,if_neg hne.2.2.2,if_pos hd,hh]
    rfl
  | string =>
    obtain ⟨hvs,rfl,rfl,rfl⟩ := ht
    obtain ⟨s,rfl⟩ := Option.ne_none_iff_exists'.mp hvs
    have hh := parseString_print s m
    simp only [CJson.printValue,printStringPtr,List.cons_append] at hh ⊢
    rw [parseValue_other p (by decide) (by decide) (by decide),if_pos rfl,hh]
    rfl
  | array =>
    obtain ⟨rfl,rfl,rfl,hch⟩ := ht
    have hf' : needList ch ≤ f := by simpa [need] using hf
    obtain ⟨g,rfl⟩ : ∃ g, f = g + 1 := ⟨f - 1,by cases ch <;> simp [needList] at hf' <;> omega⟩
    simp only [CJson.printValue,List.cons_append]
    rw [parseValue_other p (by decide) (by decide) (by decide),if_neg (by decide),
      if_neg (by decide),if_pos rfl]
    match ch with
    | [] =>
      have hs : skip (93 :: m) = .done (93 :: m) := skip_visible (by decide) m
      simp [CJson.printItems,parseArray,hs,unnamed]
    | t :: ts =>
      obtain ⟨hst,ht,hts⟩ := hch
      have hneed : need t ≤ g ∧ needList ts ≤ g := by simp [needList] at hf'; omega
      have htext : CJson.printItems p fmt (d + 1) (t :: ts) ++ [93] ++ m =
          CJson.printValue p fmt (d + 1) t ++ itemsTail p fmt (d + 1) ts m := by
        simp [CJson.printItems,itemsTail]
      obtain ⟨hnum,hskip⟩ := itemsTail_head p fmt (d + 1) ts m
      have hv := parseValue_print t ht (d + 1) g hneed.1 _ hnum
      have hi := parseItems_print ts hts (d + 1) g hneed.2 m
      obtain ⟨b,r,hb,-,h93,-⟩ := printValue_head p fmt ht (d + 1)
      have hs := skip_printValue p fmt ht (d + 1) (itemsTail p fmt (d + 1) ts m)
      rw [htext]
      rw [hb,List.cons_append] at hv hs ⊢
      simp only [parseArray,hs,hv,hskip,hi,Outcome.done_bind,ne_eq,not_true_eq_false,if_false,
        if_neg h93,unnamed_of_string hst]
      rfl
  | object =>
    obtain ⟨rfl,rfl,rfl,hch⟩ := ht
    have hf' : needList ch ≤ f := by simpa [need] using hf
    obtain ⟨g,rfl⟩ : ∃ g, f = g + 1 := ⟨f - 1,by cases ch <;> simp [needList] at hf' <;> omega⟩
    match ch with
    | [] =>
      have hs : skip (CJson.newline fmt ++ CJson.tabs fmt (d - 1) ++ [125] ++ m) =
          .done (125 :: m) := by
        simp only [List.append_assoc]
        rw [skip_blank _ (newline_blank fmt),skip_blank _ (tabs_blank fmt _)]
        exact skip_visible (by decide) m
      simp only [CJson.printValue,List.isEmpty_nil,if_true,List.cons_append]
      rw [parseValue_other p (by decide) (by decide) (by decide),if_neg (by decide),
        if_neg (by decide),if_neg (by decide),if_pos rfl]
      simp only [parseObject,hs,Outcome.done_bind,ne_eq,not_true_eq_false,if_false,if_true,unnamed]
    | t :: ts =>
      obtain ⟨hst,ht,hts⟩ := hch
      obtain ⟨st',hst⟩ := Option.ne_none_iff_exists'.mp hst
      obtain ⟨hneed,hneeds⟩ : need t + 1 ≤ g ∧ needList ts ≤ g := by simp [needList] at hf'; omega
      obtain ⟨g,rfl⟩ : ∃ h, g = h + 1 := ⟨g - 1,by omega⟩
      have hv := parseValue_print t ht (d + 1) g (by omega) _ (numberEnds_valueTail p fmt d ts m)
      have hmem := parseMember_print p fmt ht hst hv [] (by simp)
      have hms := parseMembers_print ts hts d (g + 1) hneeds m
      have htext : CJson.newline fmt ++ CJson.printMembers p fmt (d + 1) (t :: ts) ++
          CJson.tabs fmt d ++ [125] ++ m = CJson.newline fmt ++ (CJson.tabs fmt (d + 1) ++
            (printStringPtr t.string ++ 58 :: ((if fmt then [9] else []) ++
              (CJson.printValue p fmt (d + 1) t ++ valueTail p fmt d ts m)))) := by
        rw [← valueTail_members]
        simp
      simp only [CJson.printValue,List.isEmpty_cons,Bool.false_eq_true,if_false,List.cons_append]
      rw [parseValue_other p (by decide) (by decide) (by decide),if_neg (by decide),
        if_neg (by decide),if_neg (by decide),if_pos rfl,htext]
      simp only [hst,printStringPtr,List.cons_append,List.nil_append] at hmem ⊢
      simp only [parseObject,skip_blank _ (newline_blank fmt),skip_blank _ (tabs_blank fmt _),
        skip_visible (show (32 : UInt8) < 34 by decide),hmem,skip_valueTail,hms,Outcome.done_bind,
        ne_eq,not_true_eq_false,if_false,if_neg (show ¬ (34 : UInt8) = 125 by decide)]
      rfl

theorem parseItems_print (ts : List CJson) (hts : ItemsPrintable p ts) (d f : ℕ)
    (hf : needList ts ≤ f) (m : Bytes) :
    parseItems p f (itemsTail p fmt d ts m) = .done (ts,m) := by
  obtain ⟨f,rfl⟩ : ∃ g, f = g + 1 := ⟨f - 1,by cases ts <;> simp [needList] at hf <;> omega⟩
  match ts with
  | [] => simp [itemsTail,CJson.printItems,parseItems]
  | t :: ts =>
    obtain ⟨hst,ht,hts⟩ := hts
    have hneed : need t ≤ f ∧ needList ts ≤ f := by simp [needList] at hf; omega
    have htext : itemsTail p fmt d (t :: ts) m =
        44 :: ((if fmt then [32] else []) ++ (CJson.printValue p fmt d t ++ itemsTail p fmt d ts m)) := by
      simp [CJson.printItems,itemsTail]
    have hblank : ∀ b ∈ (if fmt then [32] else [] : Bytes), b ≠ 0 ∧ b ≤ 32 := by
      cases fmt <;> simp
    obtain ⟨hnum,hskip⟩ := itemsTail_head p fmt d ts m
    have hv := parseValue_print t ht d f hneed.1 _ hnum
    have hi := parseItems_print ts hts d f hneed.2 m
    rw [htext]
    simp only [parseItems,if_true,skip_blank _ hblank,skip_printValue p fmt ht,hv,hskip,hi,
      Outcome.done_bind,unnamed_of_string hst]

theorem parseMembers_print (ts : List CJson) (hts : MembersPrintable p ts) (d f : ℕ)
    (hf : needList ts ≤ f) (m : Bytes) :
    parseMembers p f (membersTail p fmt d ts m) = .done (ts,m) := by
  obtain ⟨f,rfl⟩ : ∃ g, f = g + 1 := ⟨f - 1,by cases ts <;> simp [needList] at hf <;> omega⟩
  match ts with
  | [] => simp [membersTail,parseMembers]
  | t :: ts =>
    obtain ⟨hst,ht,hts⟩ := hts
    obtain ⟨st,hst⟩ := Option.ne_none_iff_exists'.mp hst
    obtain ⟨hneed,hneeds⟩ : need t + 1 ≤ f ∧ needList ts ≤ f := by simp [needList] at hf; omega
    obtain ⟨f,rfl⟩ : ∃ h, f = h + 1 := ⟨f - 1,by omega⟩
    have hv := parseValue_print t ht (d + 1) f (by omega) _ (numberEnds_valueTail p fmt d ts m)
    have hblank : ∀ b ∈ CJson.newline fmt ++ CJson.tabs fmt (d + 1), b ≠ 0 ∧ b ≤ 32 := by
      intro b hb
      rcases List.mem_append.mp hb with hb | hb
      · exact newline_blank fmt b hb
      · exact tabs_blank fmt _ b hb
    have hmem := parseMember_print p fmt ht hst hv _ hblank
    have hms := parseMembers_print ts hts d (f + 1) hneeds m
    have htext : membersTail p fmt d (t :: ts) m = 44 :: (CJson.newline fmt ++
        (CJson.printMembers p fmt (d + 1) (t :: ts) ++ CJson.tabs fmt d ++ 125 :: m)) := by
      simp [membersTail]
    rw [htext,valueTail_members,← List.append_assoc]
    simp only [parseMembers,if_true,hmem,skip_valueTail,hms,Outcome.done_bind]

end

mutual

theorem need_le (t : CJson) (ht : Printable p t) (d : ℕ) :
    need t ≤ 3 * (CJson.printValue p fmt d t).length := by
  obtain ⟨b,r,hb,-⟩ := printValue_head p fmt ht d
  obtain ⟨ty,vs,vi,vd,st,ch⟩ := t
  cases ty with
  | array =>
    have hl := needItems_le ch ht.2.2.2 (d + 1)
    simp only [need,CJson.printValue,List.length_cons,List.length_append,List.length_nil]
    omega
  | object =>
    match ch with
    | [] =>
      simp only [need,needList,hb,List.length_cons]
      omega
    | t :: ts =>
      have hl := needMembers_le (t :: ts) ht.2.2.2 (d + 1)
      simp only [need,CJson.printValue,List.isEmpty_cons,Bool.false_eq_true,if_false,
        List.length_cons,List.length_append,List.length_nil]
      omega
  | _ =>
    simp only [need,hb,List.length_cons]
    omega

theorem needItems_le (ts : List CJson) (hts : ItemsPrintable p ts) (d : ℕ) :
    needList ts ≤ 3 * (CJson.printItems p fmt d ts).length + 2 := by
  match ts with
  | [] => simp [needList]
  | t :: ts =>
    have ht := need_le t hts.2.1 d
    have hl := needItems_le ts hts.2.2 d
    obtain ⟨b,r,hb,-⟩ := printValue_head p fmt hts.2.1 d
    have h1 : 1 ≤ (CJson.printValue p fmt d t).length := by simp [hb]
    simp only [needList,CJson.printItems,List.length_append]
    omega

theorem needMembers_le (ts : List CJson) (hts : MembersPrintable p ts) (d : ℕ) :
    needList ts ≤ 3 * (CJson.printMembers p fmt d ts).length + 2 := by
  match ts with
  | [] => simp [needList]
  | t :: ts =>
    have ht := need_le t hts.2.1 d
    have hl := needMembers_le ts hts.2.2 d
    obtain ⟨b,r,hb,-⟩ := printValue_head p fmt hts.2.1 d
    have h1 : 1 ≤ (CJson.printValue p fmt d t).length := by simp [hb]
    simp only [needList,CJson.printMembers,List.length_append,List.length_cons]
    omega

end

theorem cJSONParse_print {t : CJson} (ht : Printable p t) (hst : t.string = none) :
    cJSONParse p (t.print p ++ [0]) = .done t := by
  have hl := need_le p true t ht 0
  have hend : NumberEnds [0] := ⟨0,[],rfl,by decide,by decide,by decide,by decide⟩
  have hv := parseValue_print p true t ht 0 (3 * (t.print p ++ [0]).length + 3)
    (by simp only [CJson.print,List.length_append]; omega) [0] hend
  unfold cJSONParse CJson.print at *
  rw [skip_printValue p true ht,Outcome.done_bind,hv,unnamed_of_string hst]
  rfl

end Parse
end WddProc
