import WddProc.CJsonGrammar
import WddProc.ConfigFields

/-!
# Values of other types

The loader does not look at the type of a value. A string key without a string is the
dereference of NULL; a number key stores 1 for `true` and 0 for any other value, and a
range takes the entries of an object too.
-/

namespace WddProc
namespace ConfigTypes

open Config LastWrite Parse

def Parsed (p : Platform) (t : CJson) : Prop := ∃ j : Json, t = j.tree p ∨ ∃ s, t = (j.tree p).named s

theorem parsed_child {p : Platform} {t c : CJson} (h : Parsed p t) (hc : c ∈ t.child) : Parsed p c := by
  obtain ⟨j,hj⟩ := h
  have hchild : c ∈ (j.tree p).child := by
    rcases hj with rfl | ⟨s,rfl⟩
    · exact hc
    · rwa [CJson.named_child] at hc
  cases j with
  | array js =>
    simp only [Json.tree,CJson.child,Json.trees_eq,List.mem_map] at hchild
    obtain ⟨i,-,rfl⟩ := hchild
    exact ⟨i,Or.inl rfl⟩
  | object xs =>
    simp only [Json.tree,CJson.child,Json.memberTrees_eq,List.mem_map] at hchild
    obtain ⟨x,-,rfl⟩ := hchild
    exact ⟨x.2,Or.inr ⟨x.1,rfl⟩⟩
  | _ => simp [Json.tree,numberItem,CJson.child] at hchild

theorem Parsed.hasText_iff {p : Platform} {t : CJson} (h : Parsed p t) :
    t.valuestring.isSome = true ↔ t.type = .string := by
  obtain ⟨j,rfl | ⟨s,rfl⟩⟩ := h <;> cases j <;>
    simp [Json.tree,numberItem,CJson.valuestring,CJson.type,CJson.named]

theorem parsed_members {p : Platform} {json t : CJson} (h : Parsed p json) {i : ℕ}
    (ht : t ∈ members json i) : Parsed p t := by
  rw [members,List.mem_flatMap] at ht
  obtain ⟨next,hnext,ht⟩ := ht
  have hlist := parsed_child h (List.mem_of_mem_filter hnext)
  rw [elementMembers] at ht
  cases he : next.child[i]? with
  | none => simp [he] at ht
  | some e =>
    rw [he] at ht
    exact parsed_child (parsed_child hlist (List.mem_of_getElem? he)) ht

def IsText (t : CJson) : Prop := t.type = .string

def IsNumber (t : CJson) : Prop := t.type = .number

def IsBound (j : ℕ) (t : CJson) : Prop := t.type = .array ∧ ∀ b ∈ t.child[j]?, b.type = .number

instance : DecidablePred IsText := fun t => inferInstanceAs (Decidable (t.type = .string))

instance : DecidablePred IsNumber := fun t => inferInstanceAs (Decidable (t.type = .number))

instance (j : ℕ) : DecidablePred (IsBound j) := fun t =>
  inferInstanceAs (Decidable (t.type = .array ∧ ∀ b ∈ t.child[j]?, b.type = .number))

/-- A channel after the well-typed members of an element, as if there were no others. -/
def storeTyped (ms : List CJson) (pval : HwCache) : HwCache :=
  { pval with
    gpio := { pval.gpio with
      io := (last (only IsNumber (given (utf8 "port") port)) ms).getD pval.gpio.io }
    kks := (last (only IsText (given (utf8 "kks") (text 64))) ms).getD pval.kks
    zone := (last (only IsText (given (utf8 "zone") (text 64))) ms).getD pval.zone
    ref := (last (only IsText (given (utf8 "ref") (text 128))) ms).getD pval.ref
    valType := (last (only IsText (given (utf8 "vtype") typeName)) ms).getD pval.valType
    rangeI := ((last (only (IsBound 0) (given (utf8 "rangeI") (bound 0))) ms).getD pval.rangeI.1,
      (last (only (IsBound 1) (given (utf8 "rangeI") (bound 1))) ms).getD pval.rangeI.2)
    rangeD := ((last (only (IsBound 0) (given (utf8 "rangeD") (bound 0))) ms).getD pval.rangeD.1,
      (last (only (IsBound 1) (given (utf8 "rangeD") (bound 1))) ms).getD pval.rangeD.2) }

/-- Loading comes to its end, and every channel is updated from well-typed members only. -/
def Survived (json : CJson) (hw : Hardware) : Prop :=
  ∃ hw', cJSONParseMainInfo json hw = some hw' ∧
    ∀ i, hw'.pCache[i]? = hw.pCache[i]?.map (storeTyped (members json i))

def Texts (keys : List Bytes) (ms : List CJson) : Prop :=
  ∀ t ∈ ms, ∀ key ∈ keys, strcasecmp key t.string = true → IsText t

instance (keys : List Bytes) (ms : List CJson) : Decidable (Texts keys ms) :=
  inferInstanceAs (Decidable (∀ t ∈ ms, ∀ key ∈ keys, strcasecmp key t.string = true → IsText t))

/-- The last member that writes a field is well-typed, or writes what the last well-typed
one does, or what the field held before. -/
def Harmless {γ : Type} (P : CJson → Prop) [DecidablePred P] (key : Bytes) (val : CJson → Option γ)
    (ms : List CJson) (before : γ) : Prop :=
  ∀ e ∈ lastEntry (given key val) ms, P e.1 ∨ e.2 = (last (only P (given key val)) ms).getD before

structure NumbersHarmless (ms : List CJson) (pd : HwCache) : Prop where
  port : Harmless IsNumber (utf8 "port") port ms pd.gpio.io
  rangeI₀ : Harmless (IsBound 0) (utf8 "rangeI") (bound 0) ms pd.rangeI.1
  rangeI₁ : Harmless (IsBound 1) (utf8 "rangeI") (bound 1) ms pd.rangeI.2
  rangeD₀ : Harmless (IsBound 0) (utf8 "rangeD") (bound 0) ms pd.rangeD.1
  rangeD₁ : Harmless (IsBound 1) (utf8 "rangeD") (bound 1) ms pd.rangeD.2

theorem hasText_iff {p : Platform} {t : CJson} (h : Parsed p t) (keys : List Bytes) :
    HasText keys t ↔ ∀ key ∈ keys, strcasecmp key t.string = true → IsText t := by
  unfold HasText IsText
  rw [h.hasText_iff]

theorem last_texts {γ : Type} {keys : List Bytes} {ms : List CJson} (h : Texts keys ms) {key : Bytes}
    (hkey : key ∈ keys) (val : CJson → Option γ) :
    last (only IsText (given key val)) ms = last (given key val) ms := by
  apply last_congr
  intro t ht
  by_cases hk : strcasecmp key t.string = true
  · rw [only,if_pos (h t ht key hkey hk)]
  · rw [given_of_not_key (by simpa using hk),only,given_of_not_key (by simpa using hk),ite_self]

theorem storeParam_eq_storeTyped_iff {ms : List CJson} (h : Texts paramTextKeys ms) (pd : HwCache) :
    storeParam ms pd = storeTyped ms pd ↔ NumbersHarmless ms pd := by
  have hkks := last_texts h (show utf8 "kks" ∈ paramTextKeys by decide) (text 64)
  have hzone := last_texts h (show utf8 "zone" ∈ paramTextKeys by decide) (text 64)
  have href := last_texts h (show utf8 "ref" ∈ paramTextKeys by decide) (text 128)
  have hvtype := last_texts h (show utf8 "vtype" ∈ paramTextKeys by decide) typeName
  rw [storeParam,storeTyped,hkks,hzone,href,hvtype]
  simp only [HwCache.mk.injEq,HwDevPort.mk.injEq,Prod.mk.injEq,true_and,and_true]
  rw [last_only_iff IsNumber,last_only_iff (IsBound 0),last_only_iff (IsBound 1),
    last_only_iff (IsBound 0),last_only_iff (IsBound 1)]
  constructor
  · rintro ⟨hport,⟨hi₀,hi₁⟩,hd₀,hd₁⟩
    exact ⟨hport,hi₀,hi₁,hd₀,hd₁⟩
  · intro hn
    exact ⟨hn.port,⟨hn.rangeI₀,hn.rangeI₁⟩,hn.rangeD₀,hn.rangeD₁⟩

/-- A parsed document is survived exactly when the members with a string key are strings and
those with a number key do no harm. -/
theorem survived_iff {p : Platform} {m : Bytes} {json : CJson} (h : cJSONParse p m = .done json)
    (hw : Hardware) :
    Survived json hw ↔ Texts infoTextKeys json.child ∧
      ∀ i pd, hw.pCache[i]? = some pd →
        Texts paramTextKeys (members json i) ∧ NumbersHarmless (members json i) pd := by
  obtain ⟨j,-,hj⟩ := (cJSONParse_iff p).mp h
  have hparsed : Parsed p json := ⟨j,Or.inl hj⟩
  have hinfo : (∀ t ∈ json.child, HasText infoTextKeys t) ↔ Texts infoTextKeys json.child :=
    forall₂_congr fun t ht => hasText_iff (parsed_child hparsed ht) infoTextKeys
  have hparam (i : ℕ) : (∀ t ∈ members json i, HasText paramTextKeys t) ↔
      Texts paramTextKeys (members json i) :=
    forall₂_congr fun t ht => hasText_iff (parsed_members hparsed ht) paramTextKeys
  constructor
  · rintro ⟨hw',hload,htyped⟩
    obtain ⟨⟨hi,hp⟩,-,hps⟩ := cJSONParseMainInfo_iff.mp hload
    refine ⟨hinfo.mp hi,fun i pd hpd => ?_⟩
    have htexts := (hparam i).mp (hp i pd hpd)
    have heq := (hps i).symm.trans (htyped i)
    rw [hpd,Option.map_some,Option.map_some,Option.some.injEq] at heq
    exact ⟨htexts,(storeParam_eq_storeTyped_iff htexts pd).mp heq⟩
  · rintro ⟨hi,hall⟩
    have hsome : (cJSONParseMainInfo json hw).isSome = true := cJSONParseMainInfo_isSome.mpr
      ⟨hinfo.mpr hi,fun i pd hpd => (hparam i).mpr (hall i pd hpd).1⟩
    obtain ⟨hw',hload⟩ := Option.isSome_iff_exists.mp hsome
    refine ⟨hw',hload,fun i => ?_⟩
    rw [(cJSONParseMainInfo_iff.mp hload).2.2 i]
    cases hpd : hw.pCache[i]? with
    | none => rfl
    | some pd =>
      obtain ⟨htexts,hnumbers⟩ := hall i pd hpd
      rw [Option.map_some,Option.map_some,(storeParam_eq_storeTyped_iff htexts pd).mpr hnumbers]

def oneField (key : CString) (value : Bytes) : Bytes :=
  123 :: (printStringPtr (some (CString.lit "params")) ++ 58 :: 91 :: 123 ::
    (printStringPtr (some key) ++ 58 :: (value ++ [125,93,125,0])))

def oneFieldJson (key : CString) (j : Json) : Json :=
  .object [(CString.lit "params",.array [.object [(key,j)]])]

theorem memberAt_print (key : CString) {m r : Bytes} {j : Json} (h : ValueAt m j r) :
    MemberAt (printStringPtr (some key) ++ 58 :: m) (key,j) r :=
  @MemberAt.mk [] [] [] _ _ _ _ _ blank_nil blank_nil blank_nil (parseString_print key (58 :: m)) h

theorem oneField_document (key : CString) {value : Bytes} {j : Json}
    (h : ValueAt (value ++ [125,93,125,0]) j [125,93,125,0]) :
    Document (oneField key value) (oneFieldJson key j) := by
  have helement := ValueAt.object (memberAt_print key h) (@MembersAt.close [] [93,125,0] blank_nil)
  have hlist := @ValueAt.array [] _ _ _ _ _ blank_nil helement (@ItemsAt.close [] [125,0] blank_nil)
  have hdocument := ValueAt.object (memberAt_print (CString.lit "params") hlist)
    (@MembersAt.close [] [0] blank_nil)
  exact ⟨[],_,[0],blank_nil,rfl,hdocument⟩

theorem oneField_members (p : Platform) (key : CString) (j : Json) :
    members ((oneFieldJson key j).tree p) 0 = [(j.tree p).named key] := by
  have hparams : strcasecmp CONF_PARAM_FIELD (some (CString.lit "params")) = true := by decide
  simp [members,elementMembers,oneFieldJson,Json.tree,Json.trees,Json.memberTrees,CJson.child,
    CJson.named,CJson.string,hparams]

def oneChannel : Hardware := ⟨HwInfo.zero,[HwCache.zero]⟩

theorem survived_string : ∃ json,
    cJSONParse .sample (oneField (CString.lit "kks") (printStringPtr (some (CString.lit "A")))) =
      .done json ∧ Survived json oneChannel := by
  have hdoc := oneField_document (CString.lit "kks")
    (ValueAt.string (parseString_print (CString.lit "A") [125,93,125,0]))
  refine ⟨_,hdoc.parse .sample,(survived_iff (hdoc.parse .sample) oneChannel).mpr ⟨by decide,?_⟩⟩
  intro i pd hpd
  obtain ⟨rfl,rfl⟩ : i = 0 ∧ HwCache.zero = pd := by
    simpa [oneChannel,List.getElem?_singleton] using hpd
  rw [oneField_members]
  refine ⟨by decide,?_,?_,?_,?_,?_⟩ <;> rintro e ⟨⟩

/-- `{"params":[{"kks":null}]}` makes the loader read a NULL string. -/
theorem null_string_read : ¬ ∀ (p : Platform) (m : Bytes) (json : CJson) (hw : Hardware),
    cJSONParse p m = .done json → Survived json hw := by
  intro hall
  have hdoc := oneField_document (CString.lit "kks") (ValueAt.null [125,93,125,0])
  obtain ⟨hw',hload,-⟩ := hall .sample _ _ oneChannel (hdoc.parse .sample)
  have htexts := (cJSONParseMainInfo_iff.mp hload).1.2 0 HwCache.zero rfl
  rw [oneField_members] at htexts
  exact absurd (htexts _ (List.mem_singleton_self _)) (by decide)

end ConfigTypes
end WddProc
