import WddProc.CJsonNumber
import WddProc.ConfigMapping
import WddProc.ConfigTypes
import WddProc.LoadFile

/-!
# Numbers as they are written

A number of a document passes through `double` and `long long int` before it is cut to
the `uint16_t` of a port or the `int` of a range bound.
-/

namespace WddProc

namespace Json

def entries : Json → List (Option CString × Json)
  | .array js => js.map fun j => (none,j)
  | .object xs => xs.map fun x => (some x.1,x.2)
  | _ => []

def entryTree (p : Platform) (e : Option CString × Json) : CJson :=
  e.1.elim (e.2.tree p) fun s => (e.2.tree p).named s

/-- What a value is worth as a number when its type is not looked at. -/
def worth : Json → ℚ
  | .number l => l.rat
  | .true => 1
  | _ => 0

theorem tree_child (p : Platform) (j : Json) : (j.tree p).child = j.entries.map (entryTree p) := by
  cases j <;> simp [tree,entries,trees_eq,memberTrees_eq,Parse.numberItem,CJson.child,entryTree,
    Function.comp_def]

theorem tree_string (p : Platform) (j : Json) : (j.tree p).string = none := by
  cases j <;> rfl

@[simp] theorem entryTree_string (p : Platform) (e : Option CString × Json) :
    (entryTree p e).string = e.1 := by
  obtain ⟨s,j⟩ := e
  cases s with
  | none => exact tree_string p j
  | some s => exact CJson.named_string s _

@[simp] theorem entryTree_child (p : Platform) (e : Option CString × Json) :
    (entryTree p e).child = e.2.entries.map (entryTree p) := by
  obtain ⟨s,j⟩ := e
  rw [← tree_child]
  cases s with
  | none => rfl
  | some s => exact CJson.named_child s _

@[simp] theorem entryTree_valueint (p : Platform) (e : Option CString × Json) :
    (entryTree p e).valueint = (e.2.tree p).valueint := by
  obtain ⟨s,j⟩ := e
  cases s with
  | none => rfl
  | some s =>
    simp only [entryTree,Option.elim_some]
    cases j.tree p
    rfl

end Json

namespace ConfigNumbers

open Config ConfigMapping ConfigTypes LastWrite LoadFile Parse WholeFloat

/-- `load_configuration` once `load_json_file` has returned. -/
def loadConfiguration (json : Outcome CJson) (hw : Hardware) : Outcome (ℤ × Hardware) :=
  match json with
  | .done json => (cJSONParseMainInfo json hw).elim .fault fun hw => .done (0,hw)
  | .null => .done (-1,hw)
  | .fault => .fault

inductive Place
  | port
  | rangeI (j : Fin 2)
  | rangeD (j : Fin 2)
  deriving DecidableEq

namespace Place

def key : Place → Bytes
  | port => utf8 "port"
  | rangeI _ => utf8 "rangeI"
  | rangeD _ => utf8 "rangeD"

def pick : Place → Json → Option Json
  | port, v => some v
  | rangeI j, v | rangeD j, v => (v.entries[j.val]?).map Prod.snd

/-- The conversion of `valueint` to the type of the field. -/
def narrow : Place → ℤ → ℤ
  | port, v => (toPort v).toNat
  | rangeI _, v | rangeD _, v => toInt32 v

def lowest : Place → ℤ
  | port => 0
  | rangeI _ | rangeD _ => -2^31

def highest : Place → ℤ
  | port => 65535
  | rangeI _ | rangeD _ => 2^31 - 1

def stored (pd : HwCache) : Place → ℤ
  | port => pd.gpio.io.toNat
  | rangeI j => if j = 0 then pd.rangeI.1 else pd.rangeI.2
  | rangeD j => if j = 0 then pd.rangeD.1 else pd.rangeD.2

/-- The value that an entry of an element gives. -/
def given (pl : Place) (e : Option CString × Json) : Option Json :=
  if strcasecmp pl.key e.1 then pl.pick e.2 else none

end Place

/-- What a document says about channel `i`, as it is written. -/
def written (j : Json) (i : ℕ) : List (Option CString × Json) :=
  (j.entries.filter fun e => strcasecmp CONF_PARAM_FIELD e.1).flatMap fun e =>
    (e.2.entries[i]?).elim [] fun e => e.2.entries

/-- Every number that is given for a field is the one that the field holds, and channels with
different ports read different inputs. -/
structure NumbersKept (j : Json) (hw : Hardware) : Prop where
  stored : ∀ i pd, hw.pCache[i]? = some pd → ∀ (pl : Place) (l : Literal),
    Json.number l ∈ (written j i).filterMap pl.given → (pl.stored pd : ℚ) = l.rat
  inputs : ∀ i i' pd pd', hw.pCache[i]? = some pd → hw.pCache[i']? = some pd' →
    ∀ l l' : Literal, Json.number l ∈ (written j i).filterMap Place.port.given →
      Json.number l' ∈ (written j i').filterMap Place.port.given → l.rat ≠ l'.rat →
        Hardware.hwGpio pd.gpio.io ≠ Hardware.hwGpio pd'.gpio.io

/-- The `double` that the digits of a number and the power of ten of its scale give. -/
def scaledDouble (lm : Libm) (l : Literal) : Float :=
  ofInt l.sign * (l.whole ++ l.frac).foldl (fun n d => n * ofInt 10 + ofInt d) (ofInt 0) *
    lm.pow10 l.scale

/-- The number is a value of the field and, where a power of ten scales its digits, the
product in `double` arithmetic converts to it. -/
structure Fits (p : Platform) (lm : Libm) (pl : Place) (l : Literal) : Prop where
  range : ∃ k : ℤ, l.rat = k ∧ pl.lowest ≤ k ∧ k ≤ pl.highest
  scaled : l.scale ≠ 0 → (pl.narrow (p.longLong (scaledDouble lm l).toBits) : ℚ) = l.rat

/-- Where numbers are given for a field, the value given last fits if it is a number, and all of
them are worth the same. -/
def NumbersFit (p : Platform) (lm : Libm) (j : Json) (channels : ℕ) : Prop :=
  ∀ i < channels, ∀ (pl : Place) (l : Literal), Json.number l ∈ (written j i).filterMap pl.given →
    ∀ v ∈ last pl.given (written j i), (∀ l', v = .number l' → Fits p lm pl l') ∧ l.rat = v.worth

theorem members_written (p : Platform) (j : Json) (i : ℕ) :
    members (j.tree p) i = (written j i).map (Json.entryTree p) := by
  have helement (e : Option CString × Json) : elementMembers (Json.entryTree p e).child i =
      ((e.2.entries[i]?).elim [] fun e => e.2.entries).map (Json.entryTree p) := by
    rw [elementMembers,Json.entryTree_child,List.getElem?_map]
    cases e.2.entries[i]? with
    | none => rfl
    | some e => exact Json.entryTree_child p e
  simp only [members,written,Json.tree_child,List.filter_map,List.flatMap_map,List.map_flatMap,
    Function.comp_def,Json.entryTree_string,helement]

theorem last_given {γ : Type} (p : Platform) (pl : Place) (f : CJson → Option γ) (g : Json → γ)
    (hf : ∀ e, f (Json.entryTree p e) = (pl.pick e.2).map g) (ms : List (Option CString × Json)) :
    last (Config.given pl.key f) (ms.map (Json.entryTree p)) = (last pl.given ms).map g := by
  rw [last_comap,← last_map]
  refine last_congr fun e _ => ?_
  rw [Config.given,Place.given,Json.entryTree_string,hf]
  split <;> rfl

theorem bound_entryTree (p : Platform) (j : Fin 2) (e : Option CString × Json) :
    bound j.val (Json.entryTree p e) =
      ((e.2.entries[j.val]?).map Prod.snd).map fun v => toInt32 (v.tree p).valueint := by
  rw [bound,Json.entryTree_child,List.getElem?_map]
  cases e.2.entries[j.val]? <;> simp

/-- A field holds the value given last, cut to its type. -/
theorem stored_storeParam (p : Platform) (pl : Place) (ms : List (Option CString × Json))
    (pd : HwCache) :
    pl.stored (storeParam (ms.map (Json.entryTree p)) pd) =
      (last pl.given ms).elim (pl.stored pd) fun v => pl.narrow (v.tree p).valueint := by
  cases pl with
  | port =>
    have h := last_given p .port Config.port (fun v => toPort (v.tree p).valueint)
      (fun e => by simp [Config.port,Place.pick]) ms
    simp only [Place.key] at h
    simp only [Place.stored,storeParam,h]
    cases last Place.port.given ms <;> rfl
  | rangeI j =>
    have h := last_given p (.rangeI j) (bound j.val) (fun v => toInt32 (v.tree p).valueint)
      (bound_entryTree p j) ms
    simp only [Place.key] at h
    obtain rfl | rfl : j = 0 ∨ j = 1 := by omega
    · simp only [Place.stored,storeParam,if_true,show bound 0 = bound (0 : Fin 2).val from rfl,h]
      cases last (Place.rangeI 0).given ms <;> rfl
    · simp only [Place.stored,storeParam,show (1 : Fin 2) ≠ 0 by decide,if_false,
        show bound 1 = bound (1 : Fin 2).val from rfl,h]
      cases last (Place.rangeI 1).given ms <;> rfl
  | rangeD j =>
    have h := last_given p (.rangeD j) (bound j.val) (fun v => toInt32 (v.tree p).valueint)
      (bound_entryTree p j) ms
    simp only [Place.key] at h
    obtain rfl | rfl : j = 0 ∨ j = 1 := by omega
    · simp only [Place.stored,storeParam,if_true,show bound 0 = bound (0 : Fin 2).val from rfl,h]
      cases last (Place.rangeD 0).given ms <;> rfl
    · simp only [Place.stored,storeParam,show (1 : Fin 2) ≠ 0 by decide,if_false,
        show bound 1 = bound (1 : Fin 2).val from rfl,h]
      cases last (Place.rangeD 1).given ms <;> rfl

theorem narrow_range (pl : Place) (v : ℤ) : pl.lowest ≤ pl.narrow v ∧ pl.narrow v ≤ pl.highest := by
  have hport := (toPort v).toNat_lt
  have hle := Int.le_bmod (x := v) (m := 2^32) (by decide)
  have hlt := Int.bmod_lt (x := v) (m := 2^32) (by decide)
  cases pl <;> simp only [Place.lowest,Place.highest,Place.narrow,toInt32] <;> omega

theorem narrow_of_range {pl : Place} {v : ℤ} (h : pl.lowest ≤ v ∧ v ≤ pl.highest) :
    pl.narrow v = v := by
  cases pl with
  | port =>
    simp only [Place.lowest,Place.highest] at h
    exact toPort_of_fits (by omega)
  | rangeI j | rangeD j =>
    simp only [Place.lowest,Place.highest] at h
    exact toInt32_of_fits (by omega)

theorem highest_lt (pl : Place) : -2^53 < pl.lowest ∧ pl.highest < 2^53 := by
  cases pl <;> simp [Place.lowest,Place.highest]

theorem rat_of_scale {l : Literal} (h : l.scale = 0) : l.rat = (l.sign * l.digits : ℤ) := by
  rw [Literal.rat,h]
  push_cast
  ring

theorem narrow_eq_rat_iff (p : Platform) (lm : Libm) (pl : Place) (l : Literal) :
    (pl.narrow (p.longLong (lm.parseNumber l).toBits) : ℚ) = l.rat ↔ Fits p lm pl l := by
  constructor
  · intro h
    exact ⟨⟨_,h.symm,narrow_range pl _⟩,fun _ => h⟩
  · rintro ⟨⟨k,hk,hrange⟩,hscaled⟩
    by_cases hscale : l.scale = 0
    · have hint : l.sign * l.digits = k := by
        rw [rat_of_scale hscale] at hk
        exact_mod_cast hk
      have hdigits : l.digits < 2^53 := by
        have hbounds := highest_lt pl
        unfold Literal.sign at hint
        split at hint <;> omega
      have hvalue : p.longLong (lm.parseNumber l).toBits = l.sign * l.digits :=
        valueint_whole p lm hscale hdigits
      rw [hvalue,hint,narrow_of_range hrange,hk]
    · exact hscaled hscale

theorem narrow_eq_worth_iff (p : Platform) (lm : Libm) (pl : Place) (v : Json) :
    (pl.narrow (v.tree (p.ieee lm)).valueint : ℚ) = v.worth ↔
      ∀ l, v = .number l → Fits p lm pl l := by
  have hzero : pl.narrow 0 = 0 := narrow_of_range (by cases pl <;> simp [Place.lowest,Place.highest])
  have hone : pl.narrow 1 = 1 := narrow_of_range (by cases pl <;> simp [Place.lowest,Place.highest])
  cases v with
  | number l =>
    simp only [Json.number.injEq,forall_eq']
    exact narrow_eq_rat_iff p lm pl l
  | «true» => simp [Json.tree,CJson.valueint,Json.worth,hone]
  | _ => simp [Json.tree,CJson.valueint,Json.worth,hzero]

theorem field_kept_iff (p : Platform) (lm : Libm) (pl : Place) (ms : List (Option CString × Json))
    (pd : HwCache) :
    (∀ l, Json.number l ∈ ms.filterMap pl.given →
        (pl.stored (storeParam (ms.map (Json.entryTree (p.ieee lm))) pd) : ℚ) = l.rat) ↔
      ∀ l, Json.number l ∈ ms.filterMap pl.given → ∀ v ∈ last pl.given ms,
        (∀ l', v = .number l' → Fits p lm pl l') ∧ l.rat = v.worth := by
  rw [stored_storeParam]
  cases hlast : last pl.given ms with
  | none =>
    have hnil : ms.filterMap pl.given = [] := List.getLast?_eq_none_iff.mp hlast
    simp [hnil]
  | some v =>
    have hmem : v ∈ ms.filterMap pl.given := List.mem_of_getLast? hlast
    simp only [Option.elim_some,Option.mem_def,Option.some.injEq,forall_eq']
    constructor
    · intro h
      have hworth : (pl.narrow (v.tree (p.ieee lm)).valueint : ℚ) = v.worth := by
        cases v with
        | number l => exact h l hmem
        | _ => exact (narrow_eq_worth_iff p lm pl _).mpr (by simp)
      intro l hl
      exact ⟨(narrow_eq_worth_iff p lm pl v).mp hworth,(h l hl).symm.trans hworth⟩
    · intro h l hl
      obtain ⟨hfits,hworth⟩ := h l hl
      rw [(narrow_eq_worth_iff p lm pl v).mpr hfits,hworth]

theorem loadConfiguration_done {p : Platform} {m : Bytes} {j : Json} (hdoc : Document m j)
    {hw hw' : Hardware} (hload : loadConfiguration (parseBlock p m) hw = .done (0,hw')) :
    cJSONParseMainInfo (j.tree p) hw = some hw' := by
  rw [parseBlock,hdoc.parse p] at hload
  simp only [loadConfiguration] at hload
  cases h : cJSONParseMainInfo (j.tree p) hw with
  | none =>
    rw [h] at hload
    cases hload
  | some hw'' =>
    rw [h] at hload
    cases hload
    rfl

/-- After a successful load, the numbers of the document are kept exactly when they fit. -/
theorem numbers_kept_iff {p : Platform} {lm : Libm} {m : Bytes} {j : Json} (hdoc : Document m j)
    {hw hw' : Hardware} (hload : loadConfiguration (parseBlock (p.ieee lm) m) hw = .done (0,hw')) :
    NumbersKept j hw' ↔ NumbersFit p lm j hw.nChNum := by
  have hps := (cJSONParseMainInfo_iff.mp (loadConfiguration_done hdoc hload)).2.2
  have hget (i : ℕ) : hw'.pCache[i]? =
      hw.pCache[i]?.map (storeParam ((written j i).map (Json.entryTree (p.ieee lm)))) := by
    rw [hps i,members_written]
  have hstored : (∀ i pd, hw'.pCache[i]? = some pd → ∀ (pl : Place) (l : Literal),
      Json.number l ∈ (written j i).filterMap pl.given → (pl.stored pd : ℚ) = l.rat) ↔
        NumbersFit p lm j hw.nChNum := by
    refine forall_congr' fun i => ?_
    rw [hget i,Hardware.nChNum]
    by_cases hi : i < hw.pCache.length
    · simp only [hi,List.getElem?_eq_getElem,Option.map_some,Option.some.injEq,forall_eq',true_imp_iff]
      exact forall_congr' fun pl => field_kept_iff p lm pl (written j i) _
    · simp [hi]
  rw [← hstored]
  constructor
  · exact fun h => h.stored
  · intro h
    refine ⟨h,?_⟩
    intro i i' pd pd' hpd hpd' l l' hl hl' hne hinput
    have hport := h i pd hpd .port l hl
    have hport' := h i' pd' hpd' .port l' hl'
    simp only [Hardware.hwGpio,sub_left_inj] at hinput
    simp only [Place.stored,hinput] at hport hport'
    exact hne (hport.symm.trans hport')

def nearest : Libm where
  pow10 e := if 0 ≤ e then ofInt (10 ^ e.toNat) else ofInt 1 / ofInt (10 ^ (-e).toNat)
  pow10_zero := rfl

def portText (n : ℕ) : Bytes := oneField (CString.lit "port") (natText n)

def portJson (l : Literal) : Json := oneFieldJson (CString.lit "port") (.number l)

theorem portText_document (n : ℕ) :
    ∃ l : Literal, Document (portText n) (portJson l) ∧ l.scale = 0 ∧ l.sign = 1 ∧ l.digits = n := by
  have hm : NumberEnds [125,93,125,0] := ⟨125,_,rfl,by decide,by decide,by decide,by decide⟩
  obtain ⟨l,hl,hneg,hscale,hdigits⟩ := literal_natText n hm
  have hvalue : ValueAt (natText n ++ [125,93,125,0]) (.number l) [125,93,125,0] := by
    cases h : natText n with
    | nil => exact absurd h (natText_ne_nil n)
    | cons b bs =>
      rw [h] at hl
      exact ValueAt.number (Or.inr (natText_isDigit n b (by simp [h]))) hl
  refine ⟨l,oneField_document (CString.lit "port") hvalue,hscale,?_,hdigits⟩
  rw [Literal.sign,hneg]
  rfl

theorem portJson_written (l : Literal) :
    written (portJson l) 0 = [(some (CString.lit "port"),.number l)] := by
  have hparams : strcasecmp CONF_PARAM_FIELD (some (CString.lit "params")) = true := by decide
  simp [written,portJson,oneFieldJson,Json.entries,hparams]

theorem portJson_given {l : Literal} {pl : Place} {v : Json} :
    v ∈ (written (portJson l) 0).filterMap pl.given ↔ pl = .port ∧ v = .number l := by
  have hport : strcasecmp (utf8 "port") (some (CString.lit "port")) = true := by decide
  have hrangeI : strcasecmp (utf8 "rangeI") (some (CString.lit "port")) = false := by decide
  have hrangeD : strcasecmp (utf8 "rangeD") (some (CString.lit "port")) = false := by decide
  rw [portJson_written]
  cases pl <;> simp [Place.given,Place.key,Place.pick,hport,hrangeI,hrangeD]

theorem portText_loads (p : Platform) (n : ℕ) :
    ∃ hw', loadConfiguration (parseBlock p (portText n)) oneChannel = .done (0,hw') := by
  obtain ⟨l,hdoc,-⟩ := portText_document n
  have hsome : (cJSONParseMainInfo ((portJson l).tree p) oneChannel).isSome = true := by
    rw [cJSONParseMainInfo_isSome]
    constructor
    · intro t ht
      simp only [portJson,oneFieldJson,Json.tree,Json.memberTrees,CJson.child,List.mem_singleton] at ht
      exact hasText_of_other (s := CString.lit "params") (by rw [ht,CJson.named_string]) (by decide)
    · intro i pd hpd t ht
      obtain ⟨rfl,-⟩ : i = 0 ∧ HwCache.zero = pd := by
        simpa [oneChannel,List.getElem?_singleton] using hpd
      rw [portJson,oneField_members,List.mem_singleton] at ht
      exact hasText_of_other (s := CString.lit "port") (by rw [ht,CJson.named_string]) (by decide)
  obtain ⟨hw',hload⟩ := Option.isSome_iff_exists.mp hsome
  refine ⟨hw',?_⟩
  rw [parseBlock,hdoc.parse p]
  simp [loadConfiguration,hload]

theorem numbers_kept_port : ∃ l hw', Document (portText 3) (portJson l) ∧
    loadConfiguration (parseBlock (Platform.sample.ieee nearest) (portText 3)) oneChannel =
      .done (0,hw') ∧ NumbersKept (portJson l) hw' := by
  obtain ⟨l,hdoc,hscale,hsign,hdigits⟩ := portText_document 3
  obtain ⟨hw',hload⟩ := portText_loads (Platform.sample.ieee nearest) 3
  refine ⟨l,hw',hdoc,hload,(numbers_kept_iff hdoc hload).mpr ?_⟩
  intro i hi pl l' hmem v hv
  obtain rfl : i = 0 := by simpa [oneChannel,Hardware.nChNum] using hi
  obtain ⟨rfl,hnumber⟩ := portJson_given.mp hmem
  obtain rfl := Json.number.inj hnumber
  obtain ⟨-,rfl⟩ := portJson_given.mp (List.mem_of_getLast? hv)
  refine ⟨?_,rfl⟩
  rintro l'' ⟨⟩
  refine ⟨⟨3,?_,by decide,by decide⟩,fun h => absurd hscale h⟩
  rw [rat_of_scale hscale,hsign,hdigits]
  rfl

/-- `{"params":[{"port":65537}]}` is loaded, and the channel reads port 1. -/
theorem port_wraps : ∃ l hw' pd, Document (portText 65537) (portJson l) ∧
    loadConfiguration (parseBlock (Platform.sample.ieee nearest) (portText 65537)) oneChannel =
      .done (0,hw') ∧ hw'.pCache[0]? = some pd ∧ pd.gpio.io.toNat = 1 ∧
      ¬ NumbersKept (portJson l) hw' := by
  obtain ⟨l,hdoc,hscale,hsign,hdigits⟩ := portText_document 65537
  obtain ⟨hw',hload⟩ := portText_loads (Platform.sample.ieee nearest) 65537
  have hpd := (cJSONParseMainInfo_iff.mp (loadConfiguration_done hdoc hload)).2.2 0
  rw [members_written] at hpd
  have hlast : last Place.port.given (written (portJson l) 0) = some (.number l) := by
    rw [portJson_written,last_singleton]
    exact if_pos (show strcasecmp (utf8 "port") (some (CString.lit "port")) = true by decide)
  have hvalue : ((Json.number l).tree (Platform.sample.ieee nearest)).valueint = 65537 := by
    have h := valueint_whole .sample nearest hscale (by rw [hdigits]; decide)
    rw [hsign,hdigits] at h
    exact h
  have hstored := stored_storeParam (Platform.sample.ieee nearest) .port (written (portJson l) 0)
    HwCache.zero
  rw [hlast,Option.elim_some,hvalue] at hstored
  have hport := Int.ofNat.inj (hstored.trans (show Place.port.narrow 65537 = (1 : ℕ) by decide))
  refine ⟨l,hw',_,hdoc,hload,hpd,hport,fun hkept => ?_⟩
  have h := hkept.stored 0 _ hpd .port l (portJson_given.mpr ⟨rfl,rfl⟩)
  rw [hstored,rat_of_scale hscale,hsign,hdigits] at h
  revert h
  decide

end ConfigNumbers
end WddProc
