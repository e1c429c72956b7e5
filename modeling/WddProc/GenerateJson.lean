import WddProc.CJsonNumber
import WddProc.ConfigMapping

/-!
# The generated configuration

`usr_genrate_proc_json` writes a document for the device it runs on. Loaded into caches as
they are initialised, it sets every channel from its own element.
-/

namespace WddProc
namespace GenerateJson

open Config ConfigMapping LastWrite Parse WholeFloat

/-- `GENERATE_NAME_USER "kks编码-%d"`. -/
def kksText (i : ℕ) : CString := CString.lit "_TBD_kks编码-" ++ ⟨decimal i,zero_notMem_decimal i⟩

def refText (i : ℕ) : CString := CString.lit "_TBD_ref/机组.类型" ++ ⟨decimal i,zero_notMem_decimal i⟩

def addNumberToObject (object : CJson) (name : CString) (n : Float) : CJson :=
  object.addItemToObject name (CJson.createDouble n)

def createIntArray (numbers : List ℤ) : CJson :=
  numbers.foldl (fun a n => a.addItemToArray (CJson.createDouble (ofInt n))) CJson.createArray

/-- `_usr_genrate_param` on an empty object, with its static counter. -/
def usrGenrateParam (kind : HwDevKind) (i : ℕ) : CJson × ℕ :=
  let i := i + 1
  let jp := CJson.createObject.addStringToObject (CString.lit "kks") (kksText i)
  let jp := jp.addStringToObject (CString.lit "ref") (refText i)
  let jp := if kind ≠ .env then addNumberToObject jp (CString.lit "port") (ofInt i) else jp
  if kind = .ase ∨ kind = .pse then
    let jp := jp.addStringToObject (CString.lit "vtype") (CString.lit "_TBD_vtype_list")
    let jp := jp.addItemToObject (CString.lit "rangeI") (createIntArray [4,20])
    (jp.addItemToObject (CString.lit "rangeD") (createIntArray [0,100]),i)
  else (jp,i)

/-- The loop over the channels: the list and the counter after `n` more of them. -/
def genrateParams (kind : HwDevKind) : ℕ → CJson → ℕ → CJson × ℕ
  | 0, array, i => (array,i)
  | n+1, array, i =>
    let r := usrGenrateParam kind i
    genrateParams kind n (array.addItemToArray r.1) r.2

/-- The names of the types from `HW_TYPE_TEMP` to `HW_TYPE_RESV`, each with a comma of which
the last one is overwritten. -/
def vtypeList : CString :=
  CString.ofMem (((List.range' HwDevType.temp.toNat
    (HwDevType.resv.toNat - HwDevType.temp.toNat)).flatMap fun i =>
      (getHwNameByType (.cast i)).bytes ++ [44]).dropLast)

/-- The tree of `usr_genrate_proc_json` and the counter afterwards. -/
def root (hwInfo : HwInfo) (nChNum : UInt16) (i : ℕ) : CJson × ℕ :=
  let root := addNumberToObject CJson.createObject (CString.lit "freq_sec") 60.10
  let root := root.addStringToObject (CString.lit "name") (CString.lit "_TBD_安装区域")
  let root := root.addStringToObject (CString.lit "id") (CString.lit "202303110004xl")
  let root := root.addStringToObject (CString.lit "terminal") hwInfo.kindStr
  let root := root.addItemToObject (CString.lit "disable") (.mk .false none 0 0 none [])
  let root :=
    if hwInfo.kind = .ase ∨ hwInfo.kind = .pse then
      (root.addStringToObject (CString.lit "vtype_list") vtypeList).addStringToObject
        (CString.lit "vlist_desc") (CString.lit "根据vtype_list配置 param-vtype的设备类型")
    else root
  let r := genrateParams hwInfo.kind nChNum.toNat CJson.createArray i
  (root.addItemToObject (CString.lit "params") r.1,r.2)

def usrGenrateProcJson (p : Platform) (hwInfo : HwInfo) (nChNum : UInt16) (i : ℕ) : Bytes × ℕ :=
  let r := root hwInfo nChNum i
  (r.1.print p,r.2)

def freshCache (kind : HwDevKind) (i : ℕ) : HwCache :=
  { HwCache.zero with valType := Hardware.initValType kind i }

def freshCaches (kind : HwDevKind) (nChNum : ℕ) : List HwCache :=
  (List.range nChNum).map (freshCache kind)

theorem hwInfoInit_fresh (info : RtuInfo) (heap : HwInfo) :
    (Hardware.hwInfoInit info heap).pCache =
      freshCaches (Hardware.hwKindInit info heap).kind
        (Hardware.hwGetChannelSum info (Hardware.hwKindInit info heap).kind) := rfl

def paramMembers (kind : HwDevKind) (i : ℕ) : List CJson :=
  (CJson.createString (kksText (i + 1))).named (CString.lit "kks") ::
  (CJson.createString (refText (i + 1))).named (CString.lit "ref") ::
  ((if kind ≠ .env then [(CJson.createDouble (ofInt (i + 1 : ℕ))).named (CString.lit "port")] else []) ++
    if kind = .ase ∨ kind = .pse then
      [(CJson.createString (CString.lit "_TBD_vtype_list")).named (CString.lit "vtype"),
        (createIntArray [4,20]).named (CString.lit "rangeI"),
        (createIntArray [0,100]).named (CString.lit "rangeD")]
    else [])

def paramObject (kind : HwDevKind) (i : ℕ) : CJson := .mk .object none 0 0 none (paramMembers kind i)

theorem usrGenrateParam_eq (kind : HwDevKind) (i : ℕ) :
    usrGenrateParam kind i = (paramObject kind i,i + 1) := by
  cases kind <;> rfl

/-- The counter numbers the elements, and the loop appends them. -/
theorem genrateParams_eq (kind : HwDevKind) (n : ℕ) (array : CJson) (i : ℕ) :
    genrateParams kind n array i =
      (array.withChild (array.child ++ (List.range' i n).map (paramObject kind)),i + n) := by
  induction n generalizing array i with
  | zero =>
    cases array
    simp [genrateParams,CJson.withChild,CJson.child]
  | succ n ih =>
    rw [genrateParams,usrGenrateParam_eq,ih]
    cases array
    simp [CJson.withChild,CJson.child,CJson.addItemToArray,List.range'_succ]
    omega

def paramsArray (kind : HwDevKind) (n : ℕ) : CJson :=
  .mk .array none 0 0 none ((List.range n).map (paramObject kind))

def rootMembers (hwInfo : HwInfo) (n : ℕ) : List CJson :=
  (CJson.createString (CString.lit "_TBD_安装区域")).named (CString.lit "name") ::
  (CJson.createString (CString.lit "202303110004xl")).named (CString.lit "id") ::
  (CJson.createString hwInfo.kindStr).named (CString.lit "terminal") ::
  (CJson.mk .false none 0 0 none []).named (CString.lit "disable") ::
  ((if hwInfo.kind = .ase ∨ hwInfo.kind = .pse then
      [(CJson.createString vtypeList).named (CString.lit "vtype_list"),
        (CJson.createString (CString.lit "根据vtype_list配置 param-vtype的设备类型")).named
          (CString.lit "vlist_desc")]
    else []) ++ [(paramsArray hwInfo.kind n).named (CString.lit "params")])

theorem root_eq (hwInfo : HwInfo) (nChNum : UInt16) :
    root hwInfo nChNum 0 = (.mk .object none 0 0 none
      ((CJson.createDouble 60.10).named (CString.lit "freq_sec") ::
        rootMembers hwInfo nChNum.toNat),nChNum.toNat) := by
  have hparams : genrateParams hwInfo.kind nChNum.toNat CJson.createArray 0 =
      (paramsArray hwInfo.kind nChNum.toNat,nChNum.toNat) := by
    rw [genrateParams_eq]
    simp [paramsArray,CJson.createArray,CJson.withChild,CJson.child,List.range_eq_range']
  simp only [root,hparams,rootMembers]
  split <;> rfl

variable (p : Platform) (lm : Libm)

theorem printable_named {t : CJson} (s : CString) (h : Printable p t) : Printable p (t.named s) := by
  cases t
  exact h

theorem printable_string (s : CString) : Printable p (CJson.createString s) :=
  ⟨by simp,rfl,rfl,rfl⟩

theorem createDouble_ofInt {n : ℕ} (hn : n < 2^53) :
    CJson.createDouble (ofInt n) = .createNumber n (whole .positive n).toBits := by
  rw [CJson.createDouble,ofInt_natCast hn,trunc_whole _ hn]
  rfl

theorem printable_number {n : ℕ} (hn : n < 2^31) :
    Printable (p.ieee lm) (CJson.createDouble (ofInt n)) := by
  rw [createDouble_ofInt (by omega)]
  exact ⟨rfl,rfl,numberReads_whole p lm hn⟩

theorem membersPrintable_append {ts us : List CJson} (ht : MembersPrintable p ts)
    (hu : MembersPrintable p us) : MembersPrintable p (ts ++ us) := by
  induction ts with
  | nil => exact hu
  | cons t ts ih => exact ⟨ht.1,ht.2.1,ih ht.2.2⟩

theorem membersPrintable_cons {t : CJson} (s : CString) (ht : Printable p t) {ts : List CJson}
    (hts : MembersPrintable p ts) : MembersPrintable p (t.named s :: ts) :=
  ⟨by simp,printable_named p s ht,hts⟩

theorem printable_bounds (a b : ℕ) (ha : a < 2^31) (hb : b < 2^31) :
    Printable (p.ieee lm) (createIntArray [a,b]) :=
  ⟨rfl,rfl,rfl,rfl,printable_number p lm ha,rfl,printable_number p lm hb,trivial⟩

theorem paramMembers_printable (kind : HwDevKind) {i : ℕ} (hi : i + 1 < 2^31) :
    MembersPrintable (p.ieee lm) (paramMembers kind i) := by
  have hrangeI := printable_bounds p lm 4 20 (by decide) (by decide)
  have hrangeD := printable_bounds p lm 0 100 (by decide) (by decide)
  refine membersPrintable_cons _ _ (printable_string _ _) (membersPrintable_cons _ _
    (printable_string _ _) (membersPrintable_append _ ?_ ?_))
  · split
    · exact membersPrintable_cons _ _ (printable_number p lm hi) trivial
    · trivial
  · split
    · exact membersPrintable_cons _ _ (printable_string _ _) (membersPrintable_cons _ _ hrangeI
        (membersPrintable_cons _ _ hrangeD trivial))
    · trivial

theorem itemsPrintable_map {α : Type} {f : α → CJson} {as : List α}
    (h : ∀ a ∈ as, (f a).string = none ∧ Printable p (f a)) : ItemsPrintable p (as.map f) := by
  induction as with
  | nil => trivial
  | cons a as ih =>
    obtain ⟨hs,hp⟩ := h a (by simp)
    exact ⟨hs,hp,ih fun b hb => h b (by simp [hb])⟩

theorem rootMembers_printable (hwInfo : HwInfo) {n : ℕ} (hn : n < 2^31) :
    MembersPrintable (p.ieee lm) (rootMembers hwInfo n) := by
  have hparams : Printable (p.ieee lm) (paramsArray hwInfo.kind n) := by
    refine ⟨rfl,rfl,rfl,itemsPrintable_map _ fun i hi => ⟨rfl,rfl,rfl,rfl,?_⟩⟩
    have hi := List.mem_range.mp hi
    exact paramMembers_printable p lm hwInfo.kind (by omega)
  have hdisable : Printable (p.ieee lm) (.mk .false none 0 0 none []) := ⟨rfl,rfl,rfl,rfl⟩
  refine membersPrintable_cons _ _ (printable_string _ _) (membersPrintable_cons _ _
    (printable_string _ _) (membersPrintable_cons _ _ (printable_string _ _)
    (membersPrintable_cons _ _ hdisable (membersPrintable_append _ ?_
    (membersPrintable_cons _ _ hparams trivial)))))
  split
  · exact membersPrintable_cons _ _ (printable_string _ _) (membersPrintable_cons _ _
      (printable_string _ _) trivial)
  · trivial

theorem freq_text : PrintNumber.text (trunc 60.10) (60.10 : Float).toBits = utf8 "60.100000" := by
  decide +kernel

def freqLiteral : Literal := ⟨false,[6,0],[1,0,0,0,0,0],0⟩

theorem freq_valueAt {m : Bytes} (hm : NumberEnds m) :
    ValueAt (utf8 "60.100000" ++ m) (.number freqLiteral) m := by
  have htext : utf8 "60.100000" = [54,48,46,49,48,48,48,48,48] := by decide
  have hwhole : wholePart (54 :: 48 :: 46 :: ([49,48,48,48,48,48] ++ m)) =
      .done ([6,0],46 :: ([49,48,48,48,48,48] ++ m)) := by
    simp [wholePart,digits,isDigit]
  have hfraction : fraction (46 :: ([49,48,48,48,48,48] ++ m)) = .done ([1,0,0,0,0,0],m) := by
    have hdigits := @digits_append [49,48,48,48,48,48] (by simp [isDigit]) m hm
    rw [List.cons_append] at hdigits ⊢
    rw [fraction,if_pos rfl]
    exact (if_pos (by decide)).trans hdigits
  have hliteral : literal (54 :: 48 :: 46 :: ([49,48,48,48,48,48] ++ m)) = .done (freqLiteral,m) := by
    rw [literal,if_neg (by decide),hwhole]
    simp only [Outcome.done_bind,hfraction,exponent_ends hm]
    rfl
  rw [htext]
  exact ValueAt.number (Or.inr (by decide)) hliteral

/-- The document that the generator prints, as it is parsed. -/
def loaded (hwInfo : HwInfo) (n : ℕ) : CJson :=
  .mk .object none 0 0 none
    ((numberItem (p.ieee lm) freqLiteral).named (CString.lit "freq_sec") :: rootMembers hwInfo n)

theorem parse_generated (hwInfo : HwInfo) (nChNum : UInt16) :
    cJSONParse (p.ieee lm) ((usrGenrateProcJson (p.ieee lm) hwInfo nChNum 0).1 ++ [0]) =
      .done (loaded p lm hwInfo nChNum.toNat) := by
  have hn : nChNum.toNat < 2^31 := lt_trans nChNum.toNat_lt (by decide)
  have hprint : CJson.printValue (p.ieee lm) true 1
      ((CJson.createDouble 60.10).named (CString.lit "freq_sec")) = utf8 "60.100000" := freq_text
  have hvalue : ValueAt (CJson.printValue (p.ieee lm) true 1
      ((CJson.createDouble 60.10).named (CString.lit "freq_sec")) ++
        valueTail (p.ieee lm) true 0 (rootMembers hwInfo nChNum.toNat) [0]) (.number freqLiteral)
      (valueTail (p.ieee lm) true 0 (rootMembers hwInfo nChNum.toNat) [0]) := by
    rw [hprint]
    exact freq_valueAt (numberEnds_valueTail _ _ _ _ _)
  simp only [usrGenrateProcJson,root_eq]
  exact cJSONParse_print_first (p.ieee lm) (CJson.named_string _ _)
    (rootMembers_printable p lm hwInfo hn) hvalue

/-- The channel with index `i` after loading. -/
structure Generated (kind : HwDevKind) (i : ℕ) (pd : HwCache) : Prop where
  kks : cstr pd.kks.1 = (kksText (i + 1)).bytes
  ref : cstr pd.ref.1 = (refText (i + 1)).bytes
  port : kind ≠ .env → pd.gpio.io.toNat = i + 1
  noPort : kind = .env → pd.gpio = HwCache.zero.gpio
  sensor : kind = .ase ∨ kind = .pse →
    pd.rangeI = (4,20) ∧ pd.rangeD = (0,100) ∧ pd.valType = .tbd
  other : ¬ (kind = .ase ∨ kind = .pse) →
    pd.rangeI = HwCache.zero.rangeI ∧ pd.rangeD = HwCache.zero.rangeD ∧
      pd.valType = Hardware.initValType kind i

theorem loaded_members (hwInfo : HwInfo) {n i : ℕ} (hi : i < n) :
    members (loaded p lm hwInfo n) i = paramMembers hwInfo.kind i := by
  have hfilter : (loaded p lm hwInfo n).child.filter
      (fun next => strcasecmp CONF_PARAM_FIELD next.string) =
        [(paramsArray hwInfo.kind n).named (CString.lit "params")] := by
    obtain ⟨kind⟩ := hwInfo
    cases kind <;> rfl
  rw [members,hfilter]
  simp [elementMembers,paramsArray,paramObject,CJson.named,CJson.child,hi]

theorem kksText_length {i : ℕ} (hi : i < 65536) : (kksText i).length < 64 := by
  have h := decimal_length (show i < 10^5 by omega)
  have hlit : (CString.lit "_TBD_kks编码-").bytes.length = 15 := by decide
  rw [CString.length,kksText,CString.append_bytes,List.length_append,hlit]
  simp only
  omega

theorem refText_length {i : ℕ} (hi : i < 65536) : (refText i).length < 128 := by
  have h := decimal_length (show i < 10^5 by omega)
  have hlit : (CString.lit "_TBD_ref/机组.类型").bytes.length = 22 := by decide
  rw [CString.length,refText,CString.append_bytes,List.length_append,hlit]
  simp only
  omega

theorem generated_storeParam (kind : HwDevKind) {i : ℕ} (hi : i + 1 < 65536) :
    Generated kind i (storeParam (paramMembers kind i) (freshCache kind i)) where
  kks := by
    have hlast : last (given (utf8 "kks") (text 64)) (paramMembers kind i) =
        some (CharArray.strncpyFrom 64 (kksText (i + 1))) := by cases kind <;> rfl
    simp only [storeParam,hlast,Option.getD_some]
    exact cstr_strncpy (kksText_length hi)
  ref := by
    have hlast : last (given (utf8 "ref") (text 128)) (paramMembers kind i) =
        some (CharArray.strncpyFrom 128 (refText (i + 1))) := by cases kind <;> rfl
    simp only [storeParam,hlast,Option.getD_some]
    exact cstr_strncpy (refText_length hi)
  port := by
    intro hkind
    have hlast : last (given (utf8 "port") port) (paramMembers kind i) =
        some (toPort (CJson.createDouble (ofInt (i + 1 : ℕ))).valueint) := by
      cases kind <;> first | rfl | exact absurd rfl hkind
    have hvalue : (CJson.createDouble (ofInt (i + 1 : ℕ))).valueint = (i + 1 : ℕ) := by
      rw [createDouble_ofInt (by omega)]
      rfl
    have hfits : ((toPort (i + 1 : ℕ)).toNat : ℤ) = (i + 1 : ℕ) := toPort_of_fits (by omega)
    simp only [storeParam,hlast,Option.getD_some,hvalue]
    exact_mod_cast hfits
  noPort := by
    rintro rfl
    rfl
  sensor := by
    intro hkind
    have hvalue (n : ℕ) (hn : n < 2^31) :
        toInt32 (CJson.createDouble (ofInt n)).valueint = n := by
      rw [createDouble_ofInt (by omega)]
      exact toInt32_of_fits (by simp only [CJson.createNumber,CJson.valueint]; omega)
    have hi₀ : last (given (utf8 "rangeI") (bound 0)) (paramMembers kind i) =
        some (toInt32 (CJson.createDouble (ofInt (4 : ℕ))).valueint) := by
      rcases hkind with rfl | rfl <;> rfl
    have hi₁ : last (given (utf8 "rangeI") (bound 1)) (paramMembers kind i) =
        some (toInt32 (CJson.createDouble (ofInt (20 : ℕ))).valueint) := by
      rcases hkind with rfl | rfl <;> rfl
    have hd₀ : last (given (utf8 "rangeD") (bound 0)) (paramMembers kind i) =
        some (toInt32 (CJson.createDouble (ofInt (0 : ℕ))).valueint) := by
      rcases hkind with rfl | rfl <;> rfl
    have hd₁ : last (given (utf8 "rangeD") (bound 1)) (paramMembers kind i) =
        some (toInt32 (CJson.createDouble (ofInt (100 : ℕ))).valueint) := by
      rcases hkind with rfl | rfl <;> rfl
    have htype : last (given (utf8 "vtype") typeName) (paramMembers kind i) = some .tbd := by
      rcases hkind with rfl | rfl <;> rfl
    simp only [storeParam,hi₀,hi₁,hd₀,hd₁,htype,Option.getD_some]
    rw [hvalue 4 (by decide),hvalue 20 (by decide),hvalue 0 (by decide),hvalue 100 (by decide)]
    exact ⟨rfl,rfl,trivial⟩
  other := by
    intro hkind
    cases kind <;> first | exact ⟨rfl,rfl,rfl⟩ | exact absurd (by decide) hkind

theorem paramMembers_hasText (kind : HwDevKind) (i : ℕ) :
    ∀ t ∈ paramMembers kind i, HasText paramTextKeys t := by
  have hstring (s name : CString) : HasText paramTextKeys ((CJson.createString s).named name) :=
    fun _ _ _ => rfl
  have hport (t : CJson) : HasText paramTextKeys (t.named (CString.lit "port")) :=
    hasText_of_other (CJson.named_string _ t) (by decide)
  have hrangeI (t : CJson) : HasText paramTextKeys (t.named (CString.lit "rangeI")) :=
    hasText_of_other (CJson.named_string _ t) (by decide)
  have hrangeD (t : CJson) : HasText paramTextKeys (t.named (CString.lit "rangeD")) :=
    hasText_of_other (CJson.named_string _ t) (by decide)
  cases kind <;> simp [paramMembers,hstring,hport,hrangeI,hrangeD]

theorem loaded_hasText (hwInfo : HwInfo) (n : ℕ) :
    ∀ t ∈ (loaded p lm hwInfo n).child, HasText infoTextKeys t := by
  have hstring (s name : CString) : HasText infoTextKeys ((CJson.createString s).named name) :=
    fun _ _ _ => rfl
  have hfreq (t : CJson) : HasText infoTextKeys (t.named (CString.lit "freq_sec")) :=
    hasText_of_other (CJson.named_string _ t) (by decide)
  have hdisable (t : CJson) : HasText infoTextKeys (t.named (CString.lit "disable")) :=
    hasText_of_other (CJson.named_string _ t) (by decide)
  have hparams (t : CJson) : HasText infoTextKeys (t.named (CString.lit "params")) :=
    hasText_of_other (CJson.named_string _ t) (by decide)
  simp only [loaded,CJson.child,rootMembers]
  split <;> simp [hstring,hfreq,hdisable,hparams]

def portOf (hw : Hardware) (i : ℕ) : ℕ := hw.pCache[i]?.elim 0 fun pd => pd.gpio.io.toNat

/-- The generated document, parsed and loaded into fresh caches, sets every channel from its own
element, and the ports are `1` to `nChNum`. -/
theorem generated_configuration (hwInfo info : HwInfo) (nChNum : UInt16) :
    ∃ json hw',
      cJSONParse (p.ieee lm) ((usrGenrateProcJson (p.ieee lm) hwInfo nChNum 0).1 ++ [0]) = .done json ∧
      cJSONParseMainInfo json ⟨info,freshCaches hwInfo.kind nChNum.toNat⟩ = some hw' ∧
      hw'.nChNum = nChNum.toNat ∧
      (∀ i < nChNum.toNat, ∃ pd, hw'.pCache[i]? = some pd ∧ Generated hwInfo.kind i pd) ∧
      (hwInfo.kind ≠ .env →
        Set.BijOn (portOf hw') (Set.Iio nChNum.toNat) (Set.Icc 1 nChNum.toNat)) := by
  have hsome : (cJSONParseMainInfo (loaded p lm hwInfo nChNum.toNat)
      ⟨info,freshCaches hwInfo.kind nChNum.toNat⟩).isSome = true := by
    refine cJSONParseMainInfo_isSome.mpr ⟨loaded_hasText p lm hwInfo nChNum.toNat,?_⟩
    intro i pd hpd
    have hi : i < nChNum.toNat := by
      simpa [freshCaches] using (List.getElem?_eq_some_iff.mp hpd).1
    rw [loaded_members p lm hwInfo hi]
    exact paramMembers_hasText hwInfo.kind i
  obtain ⟨hw',hload⟩ := Option.isSome_iff_exists.mp hsome
  obtain ⟨-,-,hps⟩ := cJSONParseMainInfo_iff.mp hload
  have hchannel : ∀ i < nChNum.toNat, ∃ pd, hw'.pCache[i]? = some pd ∧ Generated hwInfo.kind i pd := by
    intro i hi
    have hlt := nChNum.toNat_lt
    refine ⟨_,?_,generated_storeParam hwInfo.kind (by omega)⟩
    rw [hps i,loaded_members p lm hwInfo hi]
    simp [freshCaches,hi]
  refine ⟨_,hw',parse_generated p lm hwInfo nChNum,hload,?_,hchannel,fun hkind => ?_⟩
  · have h := (cJSONParseMainInfo_measured hload).2.length_eq
    rw [Hardware.nChNum,← h]
    simp [freshCaches]
  · have hport : ∀ i < nChNum.toNat, portOf hw' i = i + 1 := by
      intro i hi
      obtain ⟨pd,hpd,hgen⟩ := hchannel i hi
      rw [portOf,hpd]
      exact hgen.port hkind
    refine ⟨fun i hi => ?_,fun i hi j hj hij => ?_,fun k hk => ?_⟩
    · rw [Set.mem_Iio] at hi
      rw [hport i hi,Set.mem_Icc]
      omega
    · rw [hport i hi,hport j hj] at hij
      omega
    · rw [Set.mem_Icc] at hk
      exact ⟨k - 1,by rw [Set.mem_Iio]; omega,by rw [hport (k - 1) (by omega)]; omega⟩

end GenerateJson
end WddProc
