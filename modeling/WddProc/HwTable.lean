import WddProc.CJsonNumber
import WddProc.DeviceKind
import WddProc.ReportedValues
import WddProc.TableTokens

/-!
# The table on the console

`show_hw_table` joins the fields of a channel with commas in an array of 25 bytes and
has the text split again into the cells of its row.
-/

namespace WddProc
namespace StringTable

variable {separ : UInt8}

theorem length_of_mem_tokens {n : ℕ} {values : Bytes} {v : CString} (h : v ∈ tokens separ n values) :
    v.length ≤ values.length := by
  induction n generalizing values with
  | zero => cases h
  | succ n ih =>
    have hskip : ((values.dropWhile (· ≠ separ)).dropWhile (· = separ)).length ≤ values.length :=
      ((List.dropWhile_sublist _).trans (List.dropWhile_sublist _)).length_le
    rcases List.mem_cons.mp h with rfl | h
    · exact ((List.takeWhile_prefix _).trans (List.takeWhile_prefix _)).length_le
    · split at h
      · cases h
      · exact (ih h).trans hskip

theorem separ_of_mem_tokens {n : ℕ} {values : Bytes} {v : CString} (h : v ∈ tokens separ n values) :
    separ ∉ v.bytes := by
  induction n generalizing values with
  | zero => cases h
  | succ n ih =>
    rcases List.mem_cons.mp h with rfl | h
    · intro hmem
      simpa using List.mem_takeWhile_imp ((List.takeWhile_prefix _).subset hmem)
    · split at h
      · cases h
      · exact ih h

theorem tokens_head {b : UInt8} (hsep : b ≠ separ) (h0 : b ≠ 0) (n : ℕ) (bs : Bytes) :
    ∃ v vs, tokens separ (n + 1) (b :: bs) = v :: vs ∧ v.bytes.head? = some b := by
  refine ⟨_,_,rfl,?_⟩
  rw [CString.ofMem_bytes,List.takeWhile_cons_of_pos (by simpa using hsep),cstr,
    List.takeWhile_cons_of_pos (by simpa using h0)]
  rfl

def tokenBytes (vs : List CString) (c : ℕ) : Bytes := (vs[c]?.map CString.bytes).getD []

theorem mem_padCell {w : ℕ} {v : Bytes} {b : UInt8} (hb : b ≠ 32) : b ∈ padCell w v ↔ b ∈ v := by
  rw [padCell,List.mem_append,List.mem_replicate]
  exact or_iff_left fun h => hb h.2

theorem padCell_ne_nil {w : ℕ} {v : Bytes} {b : UInt8} (hhead : v.head? = some b) (hb : b ≠ 32) :
    padCell w v ≠ padCell w [] := by
  intro h
  have hmem : b ∈ padCell w v := (mem_padCell hb).mpr (List.mem_of_head? hhead)
  rw [h,mem_padCell hb] at hmem
  cases hmem

def joinedFields (separ : UInt8) (y kks ref vtype val time : CString) : Bytes :=
  y.bytes ++ separ :: (kks.bytes ++ separ :: (ref.bytes ++ separ :: (vtype.bytes ++
    separ :: (val.bytes ++ separ :: time.bytes))))

theorem ne_zero_of_head {v : CString} {b : UInt8} (h : b ∈ v.bytes.head?) : b ≠ 0 := by
  rintro rfl
  exact v.nulFree (List.mem_of_head? h)

theorem tokens_head_append {b : UInt8} {v : CString} (hb : b ∈ v.bytes.head?) (hsep : b ≠ separ) (n : ℕ)
    (r : Bytes) : ∃ u us, tokens separ (n + 1) (v.bytes ++ r) = u :: us ∧ u.bytes.head? = some b := by
  obtain ⟨bs,hbs⟩ := List.head?_eq_some_iff.mp hb
  rw [hbs,List.cons_append]
  exact tokens_head hsep (ne_zero_of_head hb) n _

theorem tokens_joinedFields {y kks ref vtype val time : CString} (hy : Token separ y)
    (hkks : Token separ kks) (href : Token separ ref) (hvtype : Token separ vtype)
    (hval : Token separ val) (htime : separ ∉ time.bytes) :
    tokens separ 6 (joinedFields separ y kks ref vtype val time) =
      if time.bytes = [] then [y,kks,ref,vtype,val] else [y,kks,ref,vtype,val,time] := by
  by_cases hnone : time.bytes = []
  · have hjoined : Joined separ [y,kks,ref,vtype,val]
        (joinedFields separ y kks ref vtype val time) := by
      rw [joinedFields,hnone]
      exact Joined.cons y 0 (Joined.cons kks 0 (Joined.cons ref 0 (Joined.cons vtype 0
        (Joined.last val 1))))
    rw [tokens_joined hjoined (by simp [hy,hkks,href,hvtype,hval]) 6,if_pos hnone]
    rfl
  · have hlast : Joined separ [time] time.bytes := by
      simpa using @Joined.last separ time 0
    have hjoined : Joined separ [y,kks,ref,vtype,val,time]
        (joinedFields separ y kks ref vtype val time) :=
      Joined.cons y 0 (Joined.cons kks 0 (Joined.cons ref 0 (Joined.cons vtype 0
        (Joined.cons val 0 hlast))))
    have hshown : Token separ time := ⟨hnone,htime⟩
    rw [tokens_joined hjoined (by simp [hy,hkks,href,hvtype,hval,hshown]) 6,if_neg hnone]
    rfl

theorem separ_notMem_of_shown (hsep : separ ≠ 32) {n w c : ℕ} {values : Bytes} {v : CString}
    (h : padCell w (tokenBytes (tokens separ n values) c) = padCell w v.bytes) : separ ∉ v.bytes := by
  intro hmem
  rw [← @mem_padCell w _ _ hsep,← h,mem_padCell hsep,tokenBytes] at hmem
  cases hget : (tokens separ n values)[c]? with
  | none => simp [hget] at hmem
  | some u =>
    rw [hget] at hmem
    exact separ_of_mem_tokens (List.mem_of_getElem? hget) hmem

section fields

variable {y kks ref vtype val time : CString} {w : ℕ}

theorem kks_ne_nil_of_shown (hy : separ ∉ y.bytes) {b : UInt8} (hb : b ∈ ref.bytes.head?)
    (hbs : b ≠ separ) (hb32 : b ≠ 32)
    (h : padCell w (tokenBytes (tokens separ 6 (joinedFields separ y kks ref vtype val time)) 1) =
      padCell w kks.bytes) : kks.bytes ≠ [] := by
  intro hnil
  let rest := separ :: (vtype.bytes ++ separ :: (val.bytes ++ separ :: time.bytes))
  have htext : joinedFields separ y kks ref vtype val time =
      y.bytes ++ (List.replicate (1 + 1) separ ++ (ref.bytes ++ rest)) := by
    rw [joinedFields,hnil]
    rfl
  obtain ⟨hne,hskip⟩ := skip_head hb hbs rest
  obtain ⟨u,us,hus,hu⟩ := tokens_head_append hb hbs 4 rest
  rw [htext,tokens_cons hy hne hskip 1 5,hus,hnil] at h
  exact padCell_ne_nil hu hb32 h

theorem vtype_ne_nil_of_shown (hy : separ ∉ y.bytes) (hkks : Token separ kks)
    (href : Token separ ref) {b : UInt8} (hb : b ∈ val.bytes.head?) (hbs : b ≠ separ) (hb32 : b ≠ 32)
    (h : padCell w (tokenBytes (tokens separ 6 (joinedFields separ y kks ref vtype val time)) 3) =
      padCell w vtype.bytes) : vtype.bytes ≠ [] := by
  intro hnil
  let rest := List.replicate (1 + 1) separ ++ (val.bytes ++ separ :: time.bytes)
  have htext : joinedFields separ y kks ref vtype val time =
      y.bytes ++ (List.replicate (0 + 1) separ ++ (kks.bytes ++ (List.replicate (0 + 1) separ ++
        (ref.bytes ++ rest)))) := by
    rw [joinedFields,hnil]
    rfl
  obtain ⟨a,ha,has⟩ := hkks.head
  obtain ⟨c,hc,hcs⟩ := href.head
  obtain ⟨hne₁,hskip₁⟩ := skip_head ha has (List.replicate (0 + 1) separ ++ (ref.bytes ++ rest))
  obtain ⟨hne₂,hskip₂⟩ := skip_head hc hcs rest
  obtain ⟨hne₃,hskip₃⟩ := skip_head hb hbs (separ :: time.bytes)
  obtain ⟨u,us,hus,hu⟩ := tokens_head_append hb hbs 2 (separ :: time.bytes)
  rw [htext,tokens_cons hy hne₁ hskip₁ 0 5,tokens_cons hkks.2 hne₂ hskip₂ 0 4,
    tokens_cons href.2 hne₃ hskip₃ 1 3,hus,hnil] at h
  exact padCell_ne_nil hu hb32 h

theorem fields_shown (hy : Token separ y) (hkks : Token separ kks) (href : Token separ ref)
    (hvtype : Token separ vtype) (hval : Token separ val) (htime : separ ∉ time.bytes) {c : ℕ}
    {v : CString} (hc : [y,kks,ref,vtype,val,time][c]? = some v) :
    tokenBytes (tokens separ 6 (joinedFields separ y kks ref vtype val time)) c = v.bytes := by
  rw [tokens_joinedFields hy hkks href hvtype hval htime]
  split
  · rename_i hnone
    match c, hc with
    | 0, hc => cases hc; rfl
    | 1, hc => cases hc; rfl
    | 2, hc => cases hc; rfl
    | 3, hc => cases hc; rfl
    | 4, hc => cases hc; rfl
    | 5, hc => cases hc; exact hnone.symm
    | c + 6, hc => cases hc
  · rw [tokenBytes,hc]
    rfl

/-- The cells of a row show the fields that were joined, one in each column, exactly when no
field is cut and none but the last one is empty. -/
theorem fields_shown_iff (hsep : separ ≠ 32) (hy : Token separ y)
    (href : ∃ b ∈ ref.bytes.head?, b ≠ separ ∧ b ≠ 32) (hvtype : separ ∉ vtype.bytes)
    (hval : Token separ val) (hhead : ∀ b ∈ val.bytes.head?, b ≠ 32) (htime : separ ∉ time.bytes) :
    (∀ c v, [y,kks,ref,vtype,val,time][c]? = some v →
      padCell w (tokenBytes (tokens separ 6 (joinedFields separ y kks ref vtype val time)) c) =
        padCell w v.bytes) ↔
      Token separ kks ∧ separ ∉ ref.bytes ∧ vtype.bytes ≠ [] := by
  obtain ⟨b,hb,hbs,hb32⟩ := href
  have hrefne : ref.bytes ≠ [] := List.ne_nil_of_mem (List.mem_of_head? hb)
  constructor
  · intro h
    have hkks : Token separ kks :=
      ⟨kks_ne_nil_of_shown hy.2 hb hbs hb32 (h 1 kks rfl),separ_notMem_of_shown hsep (h 1 kks rfl)⟩
    have hfree : separ ∉ ref.bytes := separ_notMem_of_shown hsep (h 2 ref rfl)
    obtain ⟨d,hd,hds⟩ := hval.head
    exact ⟨hkks,hfree,vtype_ne_nil_of_shown hy.2 hkks ⟨hrefne,hfree⟩ hd hds (hhead d hd)
      (h 3 vtype rfl)⟩
  · rintro ⟨hkks,hfree,hvt⟩ c v hc
    rw [fields_shown hy hkks ⟨hrefne,hfree⟩ ⟨hvt,hvtype⟩ hval htime hc]

end fields

end StringTable

namespace HwTable

open StringTable LastWrite Hardware PrintNumber Config MainLoop

/-- `%f` of the magnitude with a biased exponent and a fraction. -/
def printMagnitude (e f : ℕ) : Bytes :=
  if e = 255 then if f = 0 then utf8 "inf" else utf8 "nan"
  else if e = 0 then fixed 6 f (-149)
  else fixed 6 (f + 2 ^ 23) (e - 150)

/-- `%f` of a `float`, which is passed as the `double` of the same value. -/
def printFloat (val : F32) : Bytes :=
  (if val.bits.toNat / 2 ^ 31 = 0 then [] else [45]) ++
    printMagnitude (val.bits.toNat / 2 ^ 23 % 256) (val.bits.toNat % 2 ^ 23)

def Solid (bs : Bytes) : Prop := ∀ b ∈ bs, b ≠ 0 ∧ b ≠ 32 ∧ b ≠ 44

theorem solid_of_notMem {bs : Bytes} (h : 0 ∉ bs ∧ 32 ∉ bs ∧ 44 ∉ bs) : Solid bs := fun _ hb =>
  ⟨fun h0 => h.1 (h0 ▸ hb),fun h0 => h.2.1 (h0 ▸ hb),fun h0 => h.2.2 (h0 ▸ hb)⟩

theorem solid_natText (n : ℕ) : Solid (natText n) := by
  intro b hb
  have hdigit := natText_isDigit n b hb
  refine ⟨?_,?_,?_⟩ <;>
    · rintro rfl
      exact absurd hdigit (by decide)

theorem solid_padded (w n : ℕ) : Solid (padded w n) := by
  intro b hb
  rcases List.mem_append.mp hb with h | h
  · rw [List.eq_of_mem_replicate h]
    decide
  · exact solid_natText n b h

theorem Solid.append {bs cs : Bytes} (h : Solid bs) (h' : Solid cs) : Solid (bs ++ cs) := fun b hb =>
  (List.mem_append.mp hb).elim (h b) (h' b)

theorem solid_fixed (m : ℕ) (e : ℤ) : Solid (fixed 6 m e) := by
  apply (solid_natText _).append
  intro b hb
  rcases List.mem_cons.mp hb with rfl | hb
  · decide
  · exact solid_padded _ _ b hb

theorem solid_printMagnitude (e f : ℕ) : Solid (printMagnitude e f) := by
  have hinf : Solid (utf8 "inf") := solid_of_notMem (by decide)
  have hnan : Solid (utf8 "nan") := solid_of_notMem (by decide)
  unfold printMagnitude
  split_ifs
  · exact hinf
  · exact hnan
  · exact solid_fixed _ _
  · exact solid_fixed _ _

theorem solid_printFloat (val : F32) : Solid (printFloat val) := by
  have hminus : Solid [45] := solid_of_notMem (by decide)
  apply Solid.append
  · split
    · exact fun b hb => nomatch hb
    · exact hminus
  · exact solid_printMagnitude _ _

theorem printMagnitude_ne_nil (e f : ℕ) : printMagnitude e f ≠ [] := by
  have hinf : utf8 "inf" ≠ [] := by decide
  have hnan : utf8 "nan" ≠ [] := by decide
  unfold printMagnitude
  split_ifs
  · exact hinf
  · exact hnan
  · exact List.append_ne_nil_of_left_ne_nil (natText_ne_nil _) _
  · exact List.append_ne_nil_of_left_ne_nil (natText_ne_nil _) _

theorem printFloat_ne_nil (val : F32) : printFloat val ≠ [] :=
  List.append_ne_nil_of_right_ne_nil _ (printMagnitude_ne_nil _ _)

def WS_VAL_STRLEN_MAX : ℕ := 256

theorem roundScaled_le {m : ℕ} {e : ℤ} (hm : m < 2 ^ 24) (he : e ≤ 104) :
    roundScaled m e 6 ≤ 2 ^ 128 * 10 ^ 6 := by
  have hscale : 2 ^ e.toNat ≤ 2 ^ 104 := Nat.pow_le_pow_right (by decide) (by omega)
  have hprod : m * 10 ^ 6 * 2 ^ e.toNat < 2 ^ 24 * 10 ^ 6 * 2 ^ 104 := by
    calc m * 10 ^ 6 * 2 ^ e.toNat ≤ m * 10 ^ 6 * 2 ^ 104 := Nat.mul_le_mul_left _ hscale
      _ < 2 ^ 24 * 10 ^ 6 * 2 ^ 104 := by omega
  have hquotient := Nat.div_le_self (m * 10 ^ 6 * 2 ^ e.toNat) (2 ^ (-e).toNat)
  unfold roundScaled
  dsimp only
  split <;> omega

theorem fixed_six (m : ℕ) (e : ℤ) : fixed 6 m e =
    natText (roundScaled m e 6 / 10 ^ 6) ++ 46 :: padded 6 (roundScaled m e 6 % 10 ^ 6) := by
  rw [fixed,if_neg (by decide)]

theorem fixed_length {m : ℕ} {e : ℤ} (hm : m < 2 ^ 24) (he : e ≤ 104) : (fixed 6 m e).length ≤ 46 := by
  have hround := roundScaled_le hm he
  have hwhole : (natText (roundScaled m e 6 / 10 ^ 6)).length ≤ 39 :=
    (natText_length_le_iff (by decide)).mpr (by omega)
  have hfraction : (padded 6 (roundScaled m e 6 % 10 ^ 6)).length = 6 :=
    padded_length (by decide) (Nat.mod_lt _ (by decide))
  rw [fixed_six,List.length_append,List.length_cons,hfraction]
  omega

theorem printMagnitude_length {e f : ℕ} (he : e < 256) (hf : f < 2 ^ 23) :
    (printMagnitude e f).length ≤ 46 := by
  have hinf : (utf8 "inf").length ≤ 46 := by decide
  have hnan : (utf8 "nan").length ≤ 46 := by decide
  unfold printMagnitude
  split_ifs
  · exact hinf
  · exact hnan
  · exact fixed_length (by omega) (by decide)
  · exact fixed_length (by omega) (by omega)

theorem printFloat_length (val : F32) : (printFloat val).length < WS_VAL_STRLEN_MAX := by
  have hsign : (if val.bits.toNat / 2 ^ 31 = 0 then [] else [45] : Bytes).length ≤ 1 := by
    split <;> decide
  have hmagnitude := @printMagnitude_length (val.bits.toNat / 2 ^ 23 % 256) (val.bits.toNat % 2 ^ 23)
    (Nat.mod_lt _ (by decide)) (Nat.mod_lt _ (by decide))
  rw [printFloat,List.length_append]
  unfold WS_VAL_STRLEN_MAX
  omega

theorem zero_notMem_printFloat (val : F32) : 0 ∉ printFloat val := fun h =>
  (solid_printFloat val 0 h).1 rfl

/-- What `hw_var2string` leaves in its array. -/
def hwVar2string (val : F32) : CString := ⟨printFloat val,zero_notMem_printFloat val⟩

def varBuffer (val : F32) : Option Bytes :=
  sprintfAt (List.replicate WS_VAL_STRLEN_MAX 0) 0 (hwVar2string val).bytes

def maxWidth : ℕ := 25

/-- `sprintf` into one of the arrays of a row, which start as zeros. -/
def rowBuffer (text : Bytes) : Option Bytes := sprintfAt (List.replicate maxWidth 0) 0 text

/-- One round of the loop of `show_hw_table`; `y` is always `i + 1`, and `x` is always 0. -/
def showRow (hw : Hardware) (table : STable) (i : ℕ) (pcache : HwCache) : Option STable := do
  let vtype ← rowBuffer (getHwNameByType pcache.valType).bytes
  let ref ← rowBuffer (utf8 "xx/" ++ cstr vtype ++ utf8 "." ++ hw.hwInfo.kindStr.bytes ++
    decimal pcache.gpio.io.toNat)
  let val ← varBuffer pcache.val
  let str ← rowBuffer (decimal (i + 1) ++ 44 :: (pcache.kksStr.bytes ++ 44 :: (cstr ref ++
    44 :: (cstr vtype ++ 44 :: (cstr val ++ 44 :: pcache.paramTimeStr.bytes)))))
  let r ← sTableValuesetxs table (i + 1) 0 (CString.ofMem str) 44
  some r.2

def showRows (hw : Hardware) : ℕ → List HwCache → STable → Option STable
  | _, [], table => some table
  | i, pcache :: ps, table => do
    let table ← showRow hw table i pcache
    showRows hw (i + 1) ps table

/-- `show_hw_table` up to the table that it prints; `none` is a write outside an array. -/
def showHwTable (hw : Hardware) : Option STable :=
  match sTableCreate0 (CString.lit "hardware data") 6 (2 + hw.nChNum) maxWidth with
  | .done table => do
    let r ← sTableValuesetxs table 0 1 (CString.lit "kks ref vtype val t") 32
    let r ← sTableValuesetys r.2 0 1 (CString.lit "1 2 3 4 5 6") 32
    showRows hw 0 hw.pCache r.2
  | _ => none

def refField (hw : Hardware) (pd : HwCache) : CString :=
  CString.lit "xx/" ++ getHwNameByType pd.valType ++ CString.lit "." ++ hw.hwInfo.kindStr ++
    ⟨decimal pd.gpio.io.toNat,zero_notMem_decimal _⟩

/-- What the row of channel `i` is to show, column by column. -/
def fields (hw : Hardware) (i : ℕ) (pd : HwCache) : List CString :=
  [⟨decimal (i + 1),zero_notMem_decimal _⟩,pd.kksStr,refField hw pd,getHwNameByType pd.valType,
    hwVar2string pd.val,pd.paramTimeStr]

/-- No array is overrun, and every row shows its fields. -/
def ShowsRows (hw : Hardware) : Prop :=
  ∃ t, showHwTable hw = some t ∧ ∀ i pd, hw.pCache[i]? = some pd →
    ∀ c v, (fields hw i pd)[c]? = some v → t.cellText c (i + 1) = some (padCell maxWidth v.bytes)

/-- What every object of a run meets: a `uint16_t` of channels, a kind of at most three bytes, and
times that are empty or were set by `get_sys_time`. -/
structure Showable (hw : Hardware) : Prop where
  channels : hw.nChNum < 2^16
  kind : hw.hwInfo.kindStr.length ≤ 3
  time : ∀ pd ∈ hw.pCache, pd.paramTimeStr.bytes = [] ∨ ∃ now : SysTime, pd.paramTimeStr = now.text

/-- All texts and nine other bytes fit into `str`; no comma stands in the texts that could
have one, and none but the time is empty. -/
structure RowFits (hw : Hardware) (i : ℕ) (pd : HwCache) : Prop where
  short : (decimal (i + 1)).length + pd.kksStr.length + 2 * (getHwNameByType pd.valType).length +
    hw.hwInfo.kindStr.length + (decimal pd.gpio.io.toNat).length + (hwVar2string pd.val).length +
    pd.paramTimeStr.length + 9 < maxWidth
  kks : Token 44 pd.kksStr
  kind : 44 ∉ hw.hwInfo.kindStr.bytes
  vtype : (getHwNameByType pd.valType).bytes ≠ []

def rowText (hw : Hardware) (i : ℕ) (pd : HwCache) : Bytes :=
  joinedFields 44 ⟨decimal (i + 1),zero_notMem_decimal _⟩ pd.kksStr (refField hw pd)
    (getHwNameByType pd.valType) (hwVar2string pd.val) pd.paramTimeStr

theorem zero_notMem_rowText (hw : Hardware) (i : ℕ) (pd : HwCache) : 0 ∉ rowText hw i pd := by
  simp [rowText,joinedFields,CString.nulFree,zero_notMem_decimal]

def rowString (hw : Hardware) (i : ℕ) (pd : HwCache) : CString :=
  ⟨rowText hw i pd,zero_notMem_rowText hw i pd⟩

theorem typeName_cases (vtype : HwDevType) : (getHwNameByType vtype).length ≤ 12 ∧
    44 ∉ (getHwNameByType vtype).bytes ∧
    ((getHwNameByType vtype).bytes = [] ∨ 4 ≤ (getHwNameByType vtype).length) := by
  cases vtype <;> decide

theorem gpioText_length (gpio : UInt16) : (decimal gpio.toNat).length ≤ 5 := by
  have hlt := gpio.toNat_lt
  exact decimal_length (by omega)

theorem refField_length (hw : Hardware) (pd : HwCache) : (refField hw pd).length =
    4 + (getHwNameByType pd.valType).length + hw.hwInfo.kindStr.length +
      (decimal pd.gpio.io.toNat).length := by
  have hxx : (CString.lit "xx/").bytes.length = 3 := by decide
  have hdot : (CString.lit ".").bytes.length = 1 := by decide
  simp only [refField,CString.length,CString.append_bytes,List.length_append,hxx,hdot]
  omega

theorem rowText_length (hw : Hardware) (i : ℕ) (pd : HwCache) : (rowText hw i pd).length =
    (decimal (i + 1)).length + pd.kksStr.length + 2 * (getHwNameByType pd.valType).length +
      hw.hwInfo.kindStr.length + (decimal pd.gpio.io.toNat).length + (hwVar2string pd.val).length +
      pd.paramTimeStr.length + 9 := by
  have href := refField_length hw pd
  simp only [rowText,joinedFields,List.length_append,List.length_cons]
  simp only [CString.length] at href ⊢
  omega

theorem refField_fits {hw : Hardware} (hkind : hw.hwInfo.kindStr.length ≤ 3) (pd : HwCache) :
    (refField hw pd).length < maxWidth := by
  have hname := (typeName_cases pd.valType).1
  have hio := gpioText_length pd.gpio.io
  rw [refField_length]
  unfold maxWidth
  omega

theorem rowBuffer_eq (s : CString) : rowBuffer s.bytes = if s.length < maxWidth then
    some (s.bytes ++ 0 :: (List.replicate maxWidth 0).drop (s.length + 1)) else none := by
  have hlen : (List.replicate maxWidth (0 : UInt8)).length = maxWidth := List.length_replicate
  have hfits := sprintfAt_zero_isSome_iff (List.replicate maxWidth 0) s.bytes
  rw [hlen] at hfits
  split
  · rename_i h
    exact sprintfAt_zero (hlen.symm ▸ h)
  · rename_i h
    exact Option.not_isSome_iff_eq_none.mp fun hsome => h (hfits.mp hsome)

theorem varBuffer_eq (val : F32) : varBuffer val = some ((hwVar2string val).bytes ++
    0 :: (List.replicate WS_VAL_STRLEN_MAX 0).drop ((hwVar2string val).length + 1)) :=
  sprintfAt_zero (by rw [List.length_replicate]; exact printFloat_length val)

def rowCall (hw : Hardware) (i : ℕ) (pd : HwCache) : Call :=
  .valuesetxs (i + 1) 0 (rowString hw i pd) 44

theorem showRow_eq {hw : Hardware} (hkind : hw.hwInfo.kindStr.length ≤ 3) (t : STable) (i : ℕ)
    (pd : HwCache) : showRow hw t i pd =
      if (rowString hw i pd).length < maxWidth then ((rowCall hw i pd).run t).map Prod.snd
      else none := by
  have hname : (getHwNameByType pd.valType).length < maxWidth :=
    ((typeName_cases pd.valType).1).trans_lt (by decide)
  have href : utf8 "xx/" ++ (getHwNameByType pd.valType).bytes ++ utf8 "." ++
      hw.hwInfo.kindStr.bytes ++ decimal pd.gpio.io.toNat = (refField hw pd).bytes := rfl
  have hstr : decimal (i + 1) ++ 44 :: (pd.kksStr.bytes ++ 44 :: ((refField hw pd).bytes ++
      44 :: ((getHwNameByType pd.valType).bytes ++ 44 :: ((hwVar2string pd.val).bytes ++
        44 :: pd.paramTimeStr.bytes)))) = (rowString hw i pd).bytes := rfl
  rw [showRow,rowBuffer_eq,if_pos hname,Option.bind_eq_bind,Option.bind_some,
    cstr_append_nul (CString.nulFree _),href,rowBuffer_eq,if_pos (refField_fits hkind pd),
    Option.bind_eq_bind,Option.bind_some,varBuffer_eq,Option.bind_some,
    cstr_append_nul (CString.nulFree _),cstr_append_nul (CString.nulFree _),hstr,rowBuffer_eq]
  split
  · rw [Option.bind_some,CString.ofMem_append_nul,CString.ofMem_self,Option.map_eq_bind]
    rfl
  · rfl

def rowCalls (hw : Hardware) (i : ℕ) (ps : List HwCache) : List Call :=
  ps.mapIdx fun j pd => rowCall hw (i + j) pd

theorem rowCalls_cons (hw : Hardware) (i : ℕ) (pd : HwCache) (ps : List HwCache) :
    rowCalls hw i (pd :: ps) = rowCall hw i pd :: rowCalls hw (i + 1) ps := by
  simp only [rowCalls,List.mapIdx_cons,Nat.add_zero,Nat.add_assoc,Nat.add_comm 1]

def RowsShort (hw : Hardware) (i : ℕ) (ps : List HwCache) : Prop :=
  ∀ j pd, ps[j]? = some pd → (rowString hw (i + j) pd).length < maxWidth

theorem rowsShort_cons {hw : Hardware} {i : ℕ} {pd : HwCache} {ps : List HwCache} :
    RowsShort hw i (pd :: ps) ↔ (rowString hw i pd).length < maxWidth ∧ RowsShort hw (i + 1) ps := by
  constructor
  · intro h
    refine ⟨h 0 pd rfl,fun j pd' hj => ?_⟩
    rw [Nat.add_right_comm]
    exact h (j + 1) pd' hj
  · rintro ⟨hpd,hps⟩ j pd' hj
    cases j with
    | zero =>
      cases hj
      exact hpd
    | succ j =>
      have hshort := hps j pd' hj
      rw [Nat.add_right_comm] at hshort
      exact hshort

theorem showRows_eq {hw : Hardware} (hkind : hw.hwInfo.kindStr.length ≤ 3) (i : ℕ)
    (ps : List HwCache) (t : STable) :
    (RowsShort hw i ps → showRows hw i ps t = runCalls t (rowCalls hw i ps)) ∧
      (¬ RowsShort hw i ps → showRows hw i ps t = none) := by
  induction ps generalizing i t with
  | nil => exact ⟨fun _ => rfl,fun h => absurd (fun _ _ hj => by cases hj) h⟩
  | cons pd ps ih =>
    have hloop : showRows hw i (pd :: ps) t =
        (showRow hw t i pd).bind fun t' => showRows hw (i + 1) ps t' := rfl
    rw [hloop,rowsShort_cons,rowCalls_cons,showRow_eq hkind]
    constructor
    · rintro ⟨hpd,hps⟩
      rw [if_pos hpd,funext fun t' => (ih (i + 1) t').1 hps]
      rfl
    · intro h
      split
      · rename_i hpd
        have hps : ¬ RowsShort hw (i + 1) ps := fun hps => h ⟨hpd,hps⟩
        rw [funext fun t' => (ih (i + 1) t').2 hps]
        exact Option.bind_fun_none _
      · rfl

def headerCalls : List Call :=
  [.valuesetxs 0 1 (CString.lit "kks ref vtype val t") 32,
    .valuesetys 0 1 (CString.lit "1 2 3 4 5 6") 32]

def tableCalls (hw : Hardware) : List Call := headerCalls ++ rowCalls hw 0 hw.pCache

theorem showHwTable_eq {hw : Hardware} (hkind : hw.hwInfo.kindStr.length ≤ 3) {t : STable}
    (hcreate : sTableCreate0 (CString.lit "hardware data") 6 (2 + hw.nChNum) maxWidth = .done t) :
    (RowsShort hw 0 hw.pCache → showHwTable hw = runCalls t (tableCalls hw)) ∧
      (¬ RowsShort hw 0 hw.pCache → showHwTable hw = none) := by
  let header (rows : STable → Option STable) : Option STable :=
    (sTableValuesetxs t 0 1 (CString.lit "kks ref vtype val t") 32).bind fun r =>
      (sTableValuesetys r.2 0 1 (CString.lit "1 2 3 4 5 6") 32).bind fun r => rows r.2
  have hshow : showHwTable hw = header (showRows hw 0 hw.pCache) := by
    unfold showHwTable
    rw [hcreate]
    simp only [Option.bind_eq_bind]
    with_reducible rfl
  have hruns : runCalls t (tableCalls hw) = header fun t => runCalls t (rowCalls hw 0 hw.pCache) := by
    simp only [runCalls,tableCalls,headerCalls,List.cons_append,List.nil_append,List.foldlM_cons,
      Call.run,Option.bind_eq_bind,Option.bind_map,header,Function.comp_def]
  rw [hshow,hruns]
  constructor
  · intro h
    rw [funext fun t' => (showRows_eq hkind 0 hw.pCache t').1 h]
  · intro h
    rw [funext fun t' => (showRows_eq hkind 0 hw.pCache t').2 h]
    simp [header]

theorem valuesArgs_of_short {xy s : ℤ} {values : CString} {separ : UInt8}
    (hxy : -2^31 ≤ xy ∧ xy < 2^31) (hs : -2^31 ≤ s ∧ s < 2^31) (hsep : separ ≠ 0)
    (hlen : values.length ≤ MAX_COLWIDTH) : ValuesArgs xy s values separ :=
  ⟨hxy,hs,hsep,fun _ _ hv => (length_of_mem_tokens hv).trans hlen⟩

theorem tableCalls_admissible {hw : Hardware} (hn : hw.nChNum < 2^16)
    (hshort : RowsShort hw 0 hw.pCache) : ∀ call ∈ tableCalls hw, call.Admissible := by
  intro call hcall
  rcases List.mem_append.mp hcall with h | h
  · rcases List.mem_pair.mp h with rfl | rfl
    · exact valuesArgs_of_short (by decide) (by decide) (by decide) (by decide)
    · exact valuesArgs_of_short (by decide) (by decide) (by decide) (by decide)
  · obtain ⟨i,hi,rfl⟩ := List.mem_mapIdx.mp h
    have hrow := hshort i _ (List.getElem?_eq_getElem hi)
    have hlt : i < hw.nChNum := hi
    have hle : (rowString hw (0 + i) hw.pCache[i]).length ≤ MAX_COLWIDTH :=
      hrow.le.trans (by decide)
    exact valuesArgs_of_short (by push_cast; omega) (by decide) (by decide) hle

def rowValues (hw : Hardware) (i : ℕ) (pd : HwCache) : List CString := tokens 44 6 (rowText hw i pd)

theorem tokens_length_le (separ : UInt8) (n : ℕ) (values : Bytes) :
    (tokens separ n values).length ≤ n := by
  induction n generalizing values with
  | zero => exact Nat.le_refl 0
  | succ n ih =>
    rw [tokens,List.length_cons]
    split
    · exact Nat.succ_le_succ (Nat.zero_le n)
    · exact Nat.succ_le_succ (ih _)

theorem rowCall_writes {hw : Hardware} {i n : ℕ} (hi : i < n) {pd : HwCache}
    (hshort : (rowString hw i pd).length < maxWidth) :
    (rowCall hw i pd).writes 6 (2 + n) maxWidth =
      place (i + 1) false 0 (rowValues hw i pd) := by
  have htried : (rowCall hw i pd).tried 6 (2 + n) = place (i + 1) false 0 (rowValues hw i pd) := rfl
  rw [Call.writes,htried]
  apply List.takeWhile_eq_self_iff.mpr
  intro a ha
  obtain ⟨c,hc⟩ := List.mem_iff_getElem?.mp ha
  rw [getElem?_place] at hc
  obtain ⟨v,hv,rfl⟩ := Option.map_eq_some_iff.mp hc
  have hlt : c < 6 :=
    (List.getElem?_eq_some_iff.mp hv).1.trans_le (tokens_length_le 44 6 (rowText hw i pd))
  have hle : v.length ≤ maxWidth :=
    (length_of_mem_tokens (List.mem_of_getElem? hv)).trans hshort.le
  simp only [decide_eq_true_eq]
  exact ⟨by simp; omega,by simp; omega,hle⟩

theorem mem_header_tried {hw : Hardware} {call : Call} (hcall : call ∈ headerCalls) {a : Write}
    (ha : a ∈ call.tried 6 (2 + hw.nChNum)) : a.row = 0 ∨ a.col = 0 := by
  rcases List.mem_pair.mp hcall with rfl | rfl
  all_goals
    obtain ⟨c,hc⟩ := List.mem_iff_getElem?.mp ha
    rw [Call.tried,getElem?_place] at hc
    obtain ⟨v,-,rfl⟩ := Option.map_eq_some_iff.mp hc
  · exact Or.inl rfl
  · exact Or.inr rfl

theorem rowValues_zero (hw : Hardware) (i : ℕ) (pd : HwCache) : ∃ v, (rowValues hw i pd)[0]? = some v :=
  ⟨_,rfl⟩

section writes

variable {hw : Hardware} {i : ℕ} {pd : HwCache}

theorem row_writes (hshort : RowsShort hw 0 hw.pCache) (hpd : hw.pCache[i]? = some pd) :
    (rowCall hw i pd).writes 6 (2 + hw.nChNum) maxWidth =
      place (i + 1) false 0 (rowValues hw i pd) := by
  have hrow := hshort i pd hpd
  rw [Nat.zero_add] at hrow
  exact rowCall_writes (List.getElem?_eq_some_iff.mp hpd).1 hrow

theorem at_rowCalls (hshort : RowsShort hw 0 hw.pCache) (hpd : hw.pCache[i]? = some pd) {c : ℕ}
    {a : Write} {b : Bytes}
    (ha : a ∈ (rowCalls hw 0 hw.pCache).flatMap (Call.writes 6 (2 + hw.nChNum) maxWidth))
    (hb : a.at c (i + 1 : ℕ) = some b) : ∃ v, (rowValues hw i pd)[c]? = some v ∧ v.bytes = b := by
  obtain ⟨call,hcall,ha⟩ := List.mem_flatMap.mp ha
  obtain ⟨j,hj,rfl⟩ := List.mem_mapIdx.mp hcall
  rw [Nat.zero_add,row_writes hshort (List.getElem?_eq_getElem hj)] at ha
  obtain ⟨k,hk⟩ := List.mem_iff_getElem?.mp ha
  obtain ⟨hcell,v,hv,hvb⟩ := (at_place hk).mp hb
  simp only [IsCell,Bool.false_eq_true,if_false] at hcell
  obtain rfl : j = i := by omega
  obtain rfl : k = c := by omega
  rw [List.getElem?_eq_getElem hj,Option.some.injEq] at hpd
  rw [hpd] at hv
  exact ⟨v,hv,hvb⟩

theorem last_rowCalls (hshort : RowsShort hw 0 hw.pCache) (hpd : hw.pCache[i]? = some pd) {c : ℕ}
    {v : CString} (hv : (rowValues hw i pd)[c]? = some v) :
    last (Write.at c (i + 1 : ℕ))
      ((rowCalls hw 0 hw.pCache).flatMap (Call.writes 6 (2 + hw.nChNum) maxWidth)) = some v.bytes := by
  have hrow : rowCall hw i pd ∈ rowCalls hw 0 hw.pCache := by
    obtain ⟨hlt,hget⟩ := List.getElem?_eq_some_iff.mp hpd
    exact List.mem_mapIdx.mpr ⟨i,hlt,by rw [Nat.zero_add,hget]⟩
  have hplace : (place (i + 1) false 0 (rowValues hw i pd))[c]? = some ⟨(0 : ℤ) + c,i + 1,v⟩ := by
    rw [getElem?_place,hv]
    rfl
  have hmem := List.mem_of_getElem? hplace
  rw [← row_writes hshort hpd] at hmem
  have hat : Write.at c (i + 1 : ℕ) ⟨(0 : ℤ) + c,i + 1,v⟩ = some v.bytes :=
    (at_place hplace).mpr ⟨by simp [IsCell],v,hv,rfl⟩
  apply last_eq_some (List.mem_flatMap.mpr ⟨_,hrow,hmem⟩) hat
  intro a ha b hb
  obtain ⟨u,hu,hub⟩ := at_rowCalls hshort hpd ha hb
  rw [← hub,Option.some.inj (hu.symm.trans hv)]

/-- The last write to a cell of a row is the one of its own call. -/
theorem shown_row (hshort : RowsShort hw 0 hw.pCache) (hpd : hw.pCache[i]? = some pd) (c : ℕ) :
    shown ((tableCalls hw).flatMap (Call.writes 6 (2 + hw.nChNum) maxWidth)) c (i + 1 : ℕ) =
      tokenBytes (rowValues hw i pd) c := by
  rw [tableCalls,List.flatMap_append,shown,last_append,tokenBytes]
  cases hv : (rowValues hw i pd)[c]? with
  | some v =>
    rw [last_rowCalls hshort hpd hv]
    rfl
  | none =>
    have hc : c ≠ 0 := by
      rintro rfl
      obtain ⟨v,hsome⟩ := rowValues_zero hw i pd
      rw [hv] at hsome
      cases hsome
    have hrows : last (Write.at c (i + 1 : ℕ))
        ((rowCalls hw 0 hw.pCache).flatMap (Call.writes 6 (2 + hw.nChNum) maxWidth)) = none := by
      apply last_eq_none
      intro a ha
      cases hb : a.at c (i + 1 : ℕ) with
      | none => rfl
      | some b =>
        obtain ⟨u,hu,-⟩ := at_rowCalls hshort hpd ha hb
        rw [hv] at hu
        cases hu
    have hheader : last (Write.at c (i + 1 : ℕ))
        (headerCalls.flatMap (Call.writes 6 (2 + hw.nChNum) maxWidth)) = none := by
      apply last_eq_none
      intro a ha
      obtain ⟨call,hcall,hmem⟩ := List.mem_flatMap.mp ha
      have hzero := mem_header_tried hcall ((List.takeWhile_prefix _).subset hmem)
      rw [Write.at,if_neg]
      rintro ⟨hcol,hrow⟩
      omega
    rw [hrows,hheader]
    rfl

end writes

theorem create_hardware {hw : Hardware} (hn : hw.nChNum < 2^16) :
    (6 < 2^31 ∧ 2 + hw.nChNum < 2^31) ∧
      ∃ t, sTableCreate0 (CString.lit "hardware data") 6 (2 + hw.nChNum) maxWidth = .done t ∧
        Laid 6 (2 + hw.nChNum) maxWidth (CString.lit "hardware data").bytes (shown []) t := by
  have hsize : blockSize 6 (2 + hw.nChNum) maxWidth < 2^31 := by
    have hmeta : matedateSize = 96 := rfl
    have hwide : wide 6 maxWidth = 159 := rfl
    unfold blockSize
    rw [hmeta,hwide]
    omega
  exact ⟨dimensions_lt hsize,create_laid (by decide) hsize (by decide) (by decide)⟩

theorem showHwTable_short {hw : Hardware} (hhw : Showable hw) (hshort : RowsShort hw 0 hw.pCache) :
    ∃ t, showHwTable hw = some t ∧ ∀ i pd, hw.pCache[i]? = some pd → ∀ c < 6,
      t.cellText c (i + 1) = some (padCell maxWidth (tokenBytes (rowValues hw i pd) c)) := by
  obtain ⟨⟨hx,hy⟩,t₀,hcreate,hlaid⟩ := create_hardware hhw.channels
  obtain ⟨t,hruns,ht⟩ := runCalls_laid hx hy (tableCalls_admissible hhw.channels hshort) hlaid
  refine ⟨t,((showHwTable_eq hhw.kind hcreate).1 hshort).trans hruns,?_⟩
  intro i pd hpd c hc
  have hi : i < hw.nChNum := (List.getElem?_eq_some_iff.mp hpd).1
  rw [List.nil_append] at ht
  have hcell := ht.cellText hc (show i + 1 < 2 + hw.nChNum by omega)
    (shown_length (writes_accepted (tableCalls hw)) c (i + 1))
  rw [shown_row hshort hpd] at hcell
  exact hcell

/-- The row of a channel fits its array, and its cells show its fields. -/
def RowShown (hw : Hardware) (i : ℕ) (pd : HwCache) : Prop :=
  (rowString hw i pd).length < maxWidth ∧ ∀ c v, (fields hw i pd)[c]? = some v →
    padCell maxWidth (tokenBytes (rowValues hw i pd) c) = padCell maxWidth v.bytes

theorem showsRows_iff_rowShown {hw : Hardware} (hhw : Showable hw) :
    ShowsRows hw ↔ ∀ i pd, hw.pCache[i]? = some pd → RowShown hw i pd := by
  have hrow (i : ℕ) : 0 + i = i := Nat.zero_add i
  constructor
  · rintro ⟨t,ht,hcells⟩
    have hshort : RowsShort hw 0 hw.pCache := by
      by_contra hlong
      obtain ⟨-,t₀,hcreate,-⟩ := create_hardware hhw.channels
      rw [(showHwTable_eq hhw.kind hcreate).2 hlong] at ht
      cases ht
    obtain ⟨t',ht',hshown⟩ := showHwTable_short hhw hshort
    obtain rfl : t = t' := Option.some.inj (ht.symm.trans ht')
    intro i pd hpd
    refine ⟨hrow i ▸ hshort i pd hpd,fun c v hv => ?_⟩
    have hc : c < 6 := (List.getElem?_eq_some_iff.mp hv).1
    exact Option.some.inj ((hshown i pd hpd c hc).symm.trans (hcells i pd hpd c v hv))
  · intro h
    have hshort : RowsShort hw 0 hw.pCache := fun i pd hpd => (hrow i).symm ▸ (h i pd hpd).1
    obtain ⟨t,ht,hshown⟩ := showHwTable_short hhw hshort
    refine ⟨t,ht,fun i pd hpd c v hv => ?_⟩
    have hc : c < 6 := (List.getElem?_eq_some_iff.mp hv).1
    rw [hshown i pd hpd c hc,(h i pd hpd).2 c v hv]

theorem comma_notMem_decimal (n : ℕ) : 44 ∉ decimal (n : ℤ) := by
  intro h
  rcases decimal_mem h with h | h
  · exact absurd h (by decide)
  · exact absurd h (by decide)

theorem comma_notMem_text (now : SysTime) : 44 ∉ now.text.bytes := by
  have hfree (w n : ℕ) : 44 ∉ padded w n := fun h => (solid_padded w n 44 h).2.2 rfl
  simp [SysTime.text,hfree]

theorem comma_mem_refField (hw : Hardware) (pd : HwCache) :
    44 ∈ (refField hw pd).bytes ↔ 44 ∈ hw.hwInfo.kindStr.bytes := by
  have hxx : 44 ∉ (CString.lit "xx/").bytes := by decide
  have hdot : 44 ∉ (CString.lit ".").bytes := by decide
  have hname := (typeName_cases pd.valType).2.1
  have hio := comma_notMem_decimal pd.gpio.io.toNat
  simp [refField,hxx,hdot,hname,hio]

theorem decimal_ne_nil (n : ℕ) : decimal (n : ℤ) ≠ [] := by
  rw [decimal,if_neg (by omega)]
  exact natText_ne_nil _

theorem rowShown_iff {hw : Hardware} (hhw : Showable hw) {i : ℕ} {pd : HwCache}
    (hpd : pd ∈ hw.pCache) : RowShown hw i pd ↔ RowFits hw i pd := by
  have hy : Token 44 ⟨decimal (i + 1),zero_notMem_decimal _⟩ :=
    ⟨decimal_ne_nil (i + 1),comma_notMem_decimal (i + 1)⟩
  have href : ∃ b ∈ (refField hw pd).bytes.head?, b ≠ 44 ∧ b ≠ 32 := ⟨120,rfl,by decide,by decide⟩
  have hval : Token 44 (hwVar2string pd.val) :=
    ⟨printFloat_ne_nil pd.val,fun h => (solid_printFloat pd.val 44 h).2.2 rfl⟩
  have hhead : ∀ b ∈ (hwVar2string pd.val).bytes.head?, b ≠ 32 := fun b hb =>
    (solid_printFloat pd.val b (List.mem_of_head? hb)).2.1
  have htime : 44 ∉ pd.paramTimeStr.bytes := by
    rcases hhw.time pd hpd with hnone | ⟨now,hnow⟩
    · rw [hnone]
      exact List.not_mem_nil
    · rw [hnow]
      exact comma_notMem_text now
  have hcells := @fields_shown_iff 44 _ pd.kksStr _ _ _ _ maxWidth (by decide) hy href
    (typeName_cases pd.valType).2.1 hval hhead htime
  have hlen : (rowString hw i pd).length < maxWidth ↔
      (decimal (i + 1)).length + pd.kksStr.length + 2 * (getHwNameByType pd.valType).length +
        hw.hwInfo.kindStr.length + (decimal pd.gpio.io.toNat).length + (hwVar2string pd.val).length +
        pd.paramTimeStr.length + 9 < maxWidth := by
    rw [← rowText_length]
    rfl
  rw [comma_mem_refField] at hcells
  constructor
  · rintro ⟨hshort,hshown⟩
    obtain ⟨hkks,hkind,hvtype⟩ := hcells.mp hshown
    exact ⟨hlen.mp hshort,hkks,hkind,hvtype⟩
  · intro h
    exact ⟨hlen.mpr h.short,hcells.mpr ⟨h.kks,h.kind,h.vtype⟩⟩

theorem text_length_ge (now : SysTime) : 23 ≤ now.text.length := by
  have hle (w n : ℕ) : w ≤ (padded w n).length := by
    simp [padded]
    omega
  have hy := hle 4 now.year
  have hmon := hle 2 now.mon
  have hday := hle 2 now.mday
  have hhour := hle 2 now.hour
  have hmin := hle 2 now.min
  have hsec := hle 2 now.sec
  have hmilli := hle 3 now.millitm
  simp only [CString.length,SysTime.text,List.length_append,List.length_cons]
  omega

theorem booted_kindStr {hw : Hardware} (h : Booted hw) :
    0 ∈ hw.hwInfo.kindName.1 ∧ (cstr hw.hwInfo.kindName.1).length ≤ 3 := by
  have hinit (info : RtuInfo) (heap : HwInfo) : 0 ∈ (hwKindInit info heap).kindName.1 ∧
      (cstr (hwKindInit info heap).kindName.1).length ≤ 3 := by
    obtain ⟨hends,hkind⟩ := DeviceKind.hwKindInit_kindName info heap
    rw [hkind]
    exact ⟨hends,List.length_take_le 3 _⟩
  cases h with
  | init info heap => exact hinit info heap
  | configured h =>
    rw [(cJSONParseMainInfo_kind h).2]
    exact hinit _ _

theorem booted_nChNum {hw : Hardware} (h : Booted hw) : hw.nChNum < 2^16 := by
  cases h with
  | init info heap =>
    rw [hwInfoInit_nChNum]
    exact hwGetChannelSum_lt info _
  | @configured info heap _ _ h =>
    have hlen := (cJSONParseMainInfo_measured h).2.length_eq
    have hlt := hwGetChannelSum_lt info (hwKindInit info heap).kind
    rw [← hwInfoInit_nChNum] at hlt
    rw [nChNum,← hlen]
    exact hlt

variable (p : Platform)

theorem loopRound_kindName (hw : Hardware) (r : Round) :
    (loopRound p hw r).1.hwInfo.kindName = hw.hwInfo.kindName := by
  rw [loopRound_eq]
  split
  · simp only [SrvWebsocket.markSent,hwHeartbeat,hwParamMonitor]
  · simp only [hwHeartbeat,hwParamMonitor]

theorem objectAt_kindName (hw : Hardware) (rounds : ℕ → Round) (k : ℕ) :
    (objectAt p hw rounds k).hwInfo.kindName = hw.hwInfo.kindName := by
  induction k with
  | zero => rfl
  | succ k ih => rw [objectAt,loopRound_kindName,ih]

/-- A channel either has an empty time and the value 0, or a time from `get_sys_time`. -/
theorem objectAt_time {hw : Hardware} (hboot : Booted hw) (rounds : ℕ → Round) {k i : ℕ} {pd : HwCache}
    (hpd : (objectAt p hw rounds k).pCache[i]? = some pd) :
    pd.paramTimeStr.bytes = [] ∧ pd.val = F32.zero ∨ ∃ now : SysTime, pd.paramTimeStr = now.text := by
  cases k with
  | zero =>
    obtain ⟨hval,htime,-⟩ := hboot.measured (List.mem_of_getElem? hpd)
    exact Or.inl ⟨ReportedValues.paramTimeStr_zero htime,hval⟩
  | succ k =>
    have hsame := ReportedValues.objectAt_succ_get? p hw rounds k i
    rw [hpd,Option.map_some] at hsame
    obtain ⟨pd',hpd',heq⟩ := Option.map_eq_some_iff.mp hsame.symm
    obtain ⟨hval,htime⟩ := Prod.mk.inj heq
    rcases ReportedValues.monitoredAt_history p hboot rounds i k hpd' with ⟨j,-,hst⟩ | ⟨-,hzero,hempty⟩
    · refine Or.inr ⟨(rounds j).hb.stamp i,?_⟩
      rw [HwCache.paramTimeStr,← htime]
      exact hst.2.2
    · exact Or.inl ⟨ReportedValues.paramTimeStr_zero (htime ▸ hempty),hval ▸ hzero⟩

theorem objectAt_showable {hw : Hardware} (hboot : Booted hw) (rounds : ℕ → Round) (k : ℕ) :
    Showable (objectAt p hw rounds k) where
  channels := (objectAt_fixed p hw rounds k).2 ▸ booted_nChNum hboot
  kind := by
    obtain ⟨hends,hlen⟩ := booted_kindStr hboot
    rw [HwInfo.kindStr,CString.length,CString.ofMem_bytes,objectAt_kindName,List.append_assoc,
      cstr_append_of_mem hends]
    exact hlen
  time pd hpd := by
    obtain ⟨i,hi⟩ := List.mem_iff_getElem?.mp hpd
    exact (objectAt_time p hboot rounds hi).imp_left And.left

/-- The loop never comes to an object with a row that fits: its time alone is too long, or its
value is `0.000000`. -/
theorem objectAt_not_rowFits {hw : Hardware} (hboot : Booted hw) (rounds : ℕ → Round) {k i : ℕ}
    {pd : HwCache} (hpd : (objectAt p hw rounds k).pCache[i]? = some pd) :
    ¬ RowFits (objectAt p hw rounds k) i pd := by
  intro h
  have hshort := h.short
  unfold maxWidth at hshort
  have hname : 4 ≤ (getHwNameByType pd.valType).length :=
    (typeName_cases pd.valType).2.2.resolve_left h.vtype
  rcases objectAt_time p hboot rounds hpd with ⟨-,hzero⟩ | ⟨now,hnow⟩
  · have hval : (hwVar2string pd.val).length = 8 := by
      rw [hzero]
      decide
    omega
  · have htime := text_length_ge now
    rw [hnow] at hshort
    omega

/-- In a run of the loop the table is right only as long as there is nothing to show. -/
theorem objectAt_showsRows_iff {hw : Hardware} (hboot : Booted hw) (rounds : ℕ → Round) (k : ℕ) :
    ShowsRows (objectAt p hw rounds k) ↔ hw.nChNum = 0 := by
  rw [showsRows_iff_rowShown (objectAt_showable p hboot rounds k)]
  constructor
  · intro h
    by_contra hne
    obtain ⟨pd,hpd⟩ := ReportedValues.objectAt_get?_isSome p rounds (k := k) (Nat.pos_of_ne_zero hne)
    exact objectAt_not_rowFits p hboot rounds hpd ((rowShown_iff
      (objectAt_showable p hboot rounds k) (List.mem_of_getElem? hpd)).mp (h 0 pd hpd))
  · intro hzero i pd hpd
    rw [← (objectAt_fixed p hw rounds k).2] at hzero
    rw [List.eq_nil_of_length_eq_zero hzero] at hpd
    cases hpd

/-- No array is overrun and every row shows its fields exactly when every channel fits its row. -/
theorem rows_shown_iff {hw : Hardware} (hhw : Showable hw) :
    ShowsRows hw ↔ ∀ i pd, hw.pCache[i]? = some pd → RowFits hw i pd := by
  rw [showsRows_iff_rowShown hhw]
  constructor
  · intro h i pd hpd
    exact (rowShown_iff hhw (List.mem_of_getElem? hpd)).mp (h i pd hpd)
  · intro h i pd hpd
    exact (rowShown_iff hhw (List.mem_of_getElem? hpd)).mpr (h i pd hpd)

def shortChannel : HwCache :=
  { HwCache.zero with
    kks := CharArray.strncpyFrom 64 (CString.lit "k"),
    valType := .pm10,
    val := ⟨0x7F800000⟩ }

def shortHardware : Hardware := ⟨HwInfo.zero,[shortChannel]⟩

theorem rows_shown_short : ShowsRows shortHardware := by
  refine (rows_shown_iff ⟨by decide,by decide,?_⟩).mpr ?_
  · intro pd hpd
    rw [List.mem_singleton.mp hpd]
    exact Or.inl (by decide)
  · intro i pd hpd
    obtain ⟨rfl,rfl⟩ : i = 0 ∧ shortChannel = pd := by
      cases i with
      | zero => exact ⟨rfl,Option.some.inj hpd⟩
      | succ i => cases hpd
    exact ⟨by decide,by unfold Token; decide,by decide,by decide⟩

/-- The channel of a new device overruns `str`, here after one round of the loop. -/
theorem rows_not_always_shown : ¬ ∀ hw, Booted hw → ∀ (rounds : ℕ → Round) (k : ℕ),
    ShowsRows (objectAt .sample hw rounds k) := by
  intro h
  have hboot := Booted.init Measurement.curDevice .zero
  have hzero := (objectAt_showsRows_iff .sample hboot ReportedValues.zeroRounds 1).mp
    (h _ hboot ReportedValues.zeroRounds 1)
  exact absurd hzero (by decide)

end HwTable
end WddProc
