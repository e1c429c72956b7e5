import WddProc.LastWrite
import WddProc.TableLayout
import WddProc.TokenCopy

/-!
# Values in a table

A call sets a run of cells and stops at the first value that is not accepted. The
text of the table is always the picture of the last accepted value of every cell.
-/

namespace WddProc
namespace StringTable

open LastWrite TextGrid

def Call.tried (x y : ℕ) : Call → List Write
  | .valueset _ _ none => []
  | .valueset i j (some v) => [⟨i,j,v⟩]
  | .valuesetxs j s values separ => place j false s (tokens separ (x - s).toNat values.bytes)
  | .valuesetys i s values separ => place i true s (tokens separ (y - s).toNat values.bytes)

/-- Those that it sets: all before the first one that is not accepted. -/
def Call.writes (x y w : ℕ) (call : Call) : List Write :=
  (call.tried x y).takeWhile (Write.Accepted x y w)

def Write.at (i j : ℕ) (a : Write) : Option Bytes :=
  if a.col = i ∧ a.row = j then some a.value.bytes else none

/-- What a cell shows after some writes. -/
def shown (as : List Write) (i j : ℕ) : Bytes := (last (Write.at i j) as).getD []

variable {x y w : ℕ} {title : Bytes}

theorem shown_append_singleton (as : List Write) (a : Write) (i j : ℕ) :
    shown (as ++ [a]) i j = if a.col = i ∧ a.row = j then a.value.bytes else shown as i j := by
  rw [shown,last_append,last_singleton,Write.at]
  split <;> rfl

theorem cell_le {i : ℕ} (hi : i < x) : i * (w + 1) + 1 + w + 3 ≤ wide x w := by
  have hle : (i + 1) * (w + 1) ≤ x * (w + 1) := Nat.mul_le_mul_right (w + 1) hi
  rw [Nat.succ_mul,Nat.mul_comm x] at hle
  unfold wide
  omega

theorem cell_column {i c : ℕ} (h : i * (w + 1) + 1 ≤ c) (h' : c < i * (w + 1) + 1 + w) :
    c / (w + 1) = i ∧ c % (w + 1) = c - i * (w + 1) := by
  obtain ⟨o,rfl⟩ : ∃ o, c = o + i * (w + 1) := ⟨c - i * (w + 1),by omega⟩
  have ho : o < w + 1 := by omega
  constructor
  · rw [Nat.add_mul_div_right _ _ (Nat.succ_pos w),Nat.div_eq_of_lt ho,Nat.zero_add]
  · rw [Nat.add_mul_mod_self_right,Nat.mod_eq_of_lt ho,Nat.add_sub_cancel]

theorem picture_congr {cells cells' : ℕ → ℕ → Bytes} {k c : ℕ}
    (h : c + 1 ≠ wide x w → c + 2 ≠ wide x w → k % 2 ≠ 0 → k ≠ 1 → c % (w + 1) ≠ 0 →
      cells (c / (w + 1)) ((k - 3) / 2) = cells' (c / (w + 1)) ((k - 3) / 2)) :
    picture x w title cells k c = picture x w title cells' k c := by
  unfold picture cellLine
  by_cases h₁ : c + 1 = wide x w
  · rw [if_pos h₁,if_pos h₁]
  by_cases h₂ : c + 2 = wide x w
  · rw [if_neg h₁,if_neg h₁,if_pos h₂,if_pos h₂]
  by_cases h₃ : k % 2 = 0
  · rw [if_neg h₁,if_neg h₁,if_neg h₂,if_neg h₂,if_pos h₃,if_pos h₃]
  by_cases h₄ : k = 1
  · rw [if_neg h₁,if_neg h₁,if_neg h₂,if_neg h₂,if_neg h₃,if_neg h₃,if_pos h₄,if_pos h₄]
  rw [if_neg h₁,if_neg h₁,if_neg h₂,if_neg h₂,if_neg h₃,if_neg h₃,if_neg h₄,if_neg h₄]
  by_cases h₅ : c % (w + 1) = 0
  · rw [if_pos h₅,if_pos h₅]
  · rw [if_neg h₅,if_neg h₅]
    exact congrArg (List.getD · _ 32) (h h₁ h₂ h₃ h₄ h₅)

theorem write_cell {i j : ℕ} (hi : i < x) {v : Bytes} (hv : v.length ≤ w)
    {cells cells' : ℕ → ℕ → Bytes} (hself : cells' i j = v)
    (hother : ∀ i' j', ¬ (i' = i ∧ j' = j) → cells' i' j' = cells i' j') (k c : ℕ) :
    (Picture.write ((picture x w title cells).write (2 * j + 3) (i * (w + 1) + 1) (List.replicate w 32))
      (2 * j + 3) (i * (w + 1) + 1) v) k c = picture x w title cells' k c := by
  have hcell := cell_le (w := w) hi
  by_cases hin : k = 2 * j + 3 ∧ i * (w + 1) + 1 ≤ c ∧ c < i * (w + 1) + 1 + w
  · obtain ⟨rfl,hlo,hhi⟩ := hin
    obtain ⟨hdiv,hmod⟩ := cell_column hlo hhi
    have hrow : (2 * j + 3 - 3) / 2 = j := by omega
    have hplace : c - i * (w + 1) - 1 = c - (i * (w + 1) + 1) := by omega
    have hpicture : picture x w title cells' (2 * j + 3) c = v.getD (c - (i * (w + 1) + 1)) 32 := by
      rw [picture,if_neg (by omega),if_neg (by omega),if_neg (by omega),if_neg (by omega),cellLine,hdiv,
        hmod,if_neg (by omega),hrow,hself,hplace]
    rw [hpicture,Picture.write]
    by_cases hvc : c < i * (w + 1) + 1 + v.length
    · rw [if_pos ⟨rfl,hlo,hvc⟩,List.getD_eq_getElem?_getD,List.getD_eq_getElem?_getD,
        List.getElem?_eq_getElem (by omega)]
      rfl
    · rw [if_neg fun h => hvc h.2.2,Picture.write_replicate,if_pos ⟨rfl,hlo,hhi⟩,
        List.getD_eq_getElem?_getD,List.getElem?_eq_none (by omega)]
      rfl
  · rw [Picture.write,if_neg fun h => hin ⟨h.1,h.2.1,by omega⟩,Picture.write_replicate,if_neg hin]
    apply picture_congr
    intro h₁ h₂ h₃ h₄ h₅
    have hmod : c % (w + 1) < w + 1 := Nat.mod_lt _ (Nat.succ_pos w)
    have hdiv : c / (w + 1) * (w + 1) + c % (w + 1) = c := Nat.div_add_mod' c (w + 1)
    have hne : ¬ (c / (w + 1) = i ∧ (k - 3) / 2 = j) := by
      rintro ⟨rfl,rfl⟩
      exact hin ⟨by omega,by omega,by omega⟩
    exact (hother _ _ hne).symm

theorem lines_write_cell {i : ℕ} (hi : i < x) (j : ℕ) {v : CString} (hv : v.bytes.length ≤ w)
    (as : List Write) (n : ℕ) :
    lines (wide x w) n (Picture.write ((picture x w title (shown as)).write (2 * j + 3)
      (i * (w + 1) + 1) (List.replicate w 32)) (2 * j + 3) (i * (w + 1) + 1) v.bytes) =
      lines (wide x w) n (picture x w title (shown (as ++ [⟨i,j,v⟩]))) := by
  apply lines_congr
  intro k _ c _
  apply write_cell hi hv
  · simp [shown_append_singleton]
  · intro i' j' hne
    rw [shown_append_singleton,if_neg]
    rintro ⟨hi',hj'⟩
    exact hne ⟨(Int.ofNat_inj.mp hi').symm,(Int.ofNat_inj.mp hj').symm⟩

theorem valueset_accepted {t : STable} {as : List Write} (h : Laid x y w title (shown as) t) {i j : ℕ}
    {v : CString} (ha : Write.Accepted x y w ⟨i,j,v⟩) :
    ∃ t', sTableValueset t i j (some v) = some (1,t') ∧
      Laid x y w title (shown (as ++ [⟨i,j,v⟩])) t' := by
  obtain ⟨⟨-,hi⟩,⟨-,hj⟩,hv⟩ := ha
  simp only [Int.ofNat_lt] at hi hj
  obtain ⟨rest,htext⟩ := h.text
  have hcell := cell_le (w := w) hi
  have hlen : v.bytes.length ≤ w := hv
  have hline : 2 * j + 3 < 2 * y + 3 := by omega
  have hspaces := poke_lines (picture x w title (shown as)) (0 :: rest) hline
    (show i * (w + 1) + 1 + (List.replicate w 32).length ≤ wide x w by
      rw [List.length_replicate]
      omega)
  have hvalue := poke_lines ((picture x w title (shown as)).write (2 * j + 3) (i * (w + 1) + 1)
    (List.replicate w 32)) (0 :: rest) hline
    (show i * (w + 1) + 1 + v.bytes.length ≤ wide x w by omega)
  rw [lines_write_cell hi j hlen] at hvalue
  have hpointer : t.table[sTableGet t j i]? = some (some (cellPlace x w i j)) := by
    rw [sTableGet,h.tableY]
    exact h.table i hi j hj
  have hin : ¬ (t.tableX ≤ i ∨ t.tableY ≤ j) := by
    rw [h.tableX,h.tableY]
    omega
  have hfits : ¬ w < v.length := Nat.not_lt.mpr hlen
  have hset : sTableValueset t i j (some v) = some (1,{ t with
      text := lines (wide x w) (2 * y + 3) (picture x w title (shown (as ++ [⟨i,j,v⟩]))) ++
        0 :: rest }) := by
    simp only [sTableValueset,if_neg hin,h.colwidth,if_neg hfits,hpointer,cellPlace,htext,
      Option.bind_eq_bind]
    rw [hspaces,Option.bind_some,hvalue,Option.bind_some]
  exact ⟨_,hset,h.tableX,h.tableY,h.colwidth,h.data,h.table,rest,rfl⟩

theorem valueset_rejected {t : STable} {as : List Write} (h : Laid x y w title (shown as) t) {i j : ℕ}
    {v : CString} (ha : ¬ Write.Accepted x y w ⟨i,j,v⟩) :
    sTableValueset t i j (some v) = some (0,t) := by
  rw [← h.tableX,← h.tableY,← h.colwidth] at ha
  exact sTableValueset_rejected ha

theorem laid_followsWrites (hx : x < 2^31) (hy : y < 2^31) :
    FollowsWrites x y w fun as t => Laid x y w title (shown as) t :=
  followsWrites_of hx hy (fun _ _ _ _ _ h ha => valueset_accepted h ha)
    fun _ _ _ _ _ h ha => valueset_rejected h ha

/-- Values that all fit the array that they are copied to. -/
theorem valuesLoop_laid (hx : x < 2^31) (hy : y < 2^31) {xy : ℤ} (hxy : -2^31 ≤ xy ∧ xy < 2^31)
    {separ : UInt8} (hsep : separ ≠ 0) (type : Bool) {n : ℕ} {s : ℤ} (hs : -2^31 ≤ s)
    (hn : s + n < 2^31) {values : Bytes} (hnul : 0 ∉ values)
    (hfit : ∀ v ∈ tokens separ n values, v.length ≤ MAX_COLWIDTH) {t : STable} {as : List Write}
    (h : Laid x y w title (shown as) t) (sum : ℕ) :
    ∃ t', valuesLoop xy separ type n t s values sum = some (sum +
        ((place xy type s (tokens separ n values)).takeWhile (Write.Accepted x y w)).length,t') ∧
      Laid x y w title (shown (as ++
        (place xy type s (tokens separ n values)).takeWhile (Write.Accepted x y w))) t' := by
  have hends : Ends x y w (fun as t => Laid x y w title (shown as) t) separ as sum
      (place xy type s (memTokens separ n (values ++ [0])))
      (InMemory.valuesLoop xy separ type n t s (values ++ [0]) sum) :=
    InMemory.valuesLoop_ends (laid_followsWrites hx hy) hxy type hs hn (fun _ => by simp) h
  rw [InMemory.memTokens_values hsep n hnul] at hends
  obtain ⟨t',hloop,h'⟩ := hends.of_short hsep fun a ha => hfit a.value (value_mem_of_mem_place ha)
  refine ⟨t',?_,h'⟩
  rw [InMemory.valuesLoop_values hsep xy type n t s hnul [],hloop]
  rfl

/-- The arguments of a call for several values: `int`s, a separator, and values that the loop
can copy. -/
structure ValuesArgs (xy s : ℤ) (values : CString) (separ : UInt8) : Prop where
  xy : -2^31 ≤ xy ∧ xy < 2^31
  s : -2^31 ≤ s ∧ s < 2^31
  nonNul : separ ≠ 0
  short : ∀ n, ∀ v ∈ tokens separ n values.bytes, v.length ≤ MAX_COLWIDTH

def Call.Admissible : Call → Prop
  | .valueset _ _ _ => True
  | .valuesetxs x s values separ => ValuesArgs x s values separ
  | .valuesetys y s values separ => ValuesArgs y s values separ

theorem valuesetxsEx_laid (hx : x < 2^31) (hy : y < 2^31) {xy s : ℤ} {values : CString} {separ : UInt8}
    (hargs : ValuesArgs xy s values separ) (type : Bool) {t : STable} {as : List Write}
    (h : Laid x y w title (shown as) t) :
    let as' := (place xy type s (tokens separ ((if type then y else x : ℕ) - s).toNat
      values.bytes)).takeWhile (Write.Accepted x y w)
    ∃ t', sTableValuesetxsEx t xy s values separ type = some (as'.length,t') ∧
      Laid x y w title (shown (as ++ as')) t' := by
  have hwide : (if type then t.tableY else t.tableX) = if type then y else x := by
    rw [h.tableX,h.tableY]
  have hend : s + ((if type then y else x : ℕ) - s).toNat < 2^31 := by
    have hlt : (if type then y else x) < 2^31 := by
      split <;> assumption
    have hs := hargs.s.2
    omega
  obtain ⟨t',hloop,hlaid⟩ := valuesLoop_laid hx hy hargs.xy hargs.nonNul type hargs.s.1 hend
    values.nulFree (hargs.short _) h 0
  rw [Nat.zero_add] at hloop
  refine ⟨t',?_,hlaid⟩
  rw [sTableValuesetxsEx,hwide]
  exact hloop

/-- A call returns how many values it has set, and the table shows them. -/
theorem call_laid (hx : x < 2^31) (hy : y < 2^31) {call : Call} (hcall : call.Admissible)
    {t : STable} {as : List Write} (h : Laid x y w title (shown as) t) :
    ∃ t', call.run t = some ((call.writes x y w).length,t') ∧
      Laid x y w title (shown (as ++ call.writes x y w)) t' := by
  cases call with
  | valueset i j value =>
    cases value with
    | none => exact ⟨t,rfl,by simpa [Call.writes,Call.tried] using h⟩
    | some v =>
      have hwrites : Call.writes x y w (.valueset i j (some v)) =
          [(⟨i,j,v⟩ : Write)].takeWhile (Write.Accepted x y w) := rfl
      by_cases ha : Write.Accepted x y w ⟨i,j,v⟩
      · rw [hwrites,List.takeWhile_cons_of_pos (by simpa using ha)]
        exact valueset_accepted h ha
      · rw [hwrites,List.takeWhile_cons_of_neg (by simpa using ha)]
        exact ⟨t,valueset_rejected h ha,by simpa using h⟩
  | valuesetxs j s values separ => exact valuesetxsEx_laid hx hy hcall false h
  | valuesetys i s values separ => exact valuesetxsEx_laid hx hy hcall true h

theorem runCalls_laid (hx : x < 2^31) (hy : y < 2^31) {calls : List Call}
    (hcalls : ∀ call ∈ calls, call.Admissible) {t : STable} {as : List Write}
    (h : Laid x y w title (shown as) t) :
    ∃ t', runCalls t calls = some t' ∧
      Laid x y w title (shown (as ++ calls.flatMap (Call.writes x y w))) t' := by
  induction calls generalizing t as with
  | nil => exact ⟨t,rfl,by simpa using h⟩
  | cons call calls ih =>
    obtain ⟨t₁,hrun,h₁⟩ := call_laid hx hy (hcalls call List.mem_cons_self) h
    obtain ⟨t₂,hruns,h₂⟩ := ih (fun c hc => hcalls c (List.mem_cons_of_mem call hc)) h₁
    refine ⟨t₂,?_,by simpa using h₂⟩
    rw [runCalls] at hruns
    rw [runCalls,List.foldlM_cons,hrun,Option.map_some,Option.bind_eq_bind,Option.bind_some]
    exact hruns

theorem getD_ne_zero {m : Bytes} (h : 0 ∉ m) (n : ℕ) {b : UInt8} (hb : b ≠ 0) : m.getD n b ≠ 0 := by
  rw [List.getD_eq_getElem?_getD]
  cases hn : m[n]? with
  | none => exact hb
  | some c =>
    rintro rfl
    exact h (List.mem_of_getElem? hn)

theorem zero_notMem_shown (as : List Write) (i j : ℕ) : 0 ∉ shown as i j := by
  unfold shown
  cases h : last (Write.at i j) as with
  | none => simp
  | some bs =>
    obtain ⟨a,-,ha⟩ := mem_of_last h
    unfold Write.at at ha
    split at ha <;> cases ha
    exact a.value.nulFree

theorem picture_ne_zero {cells : ℕ → ℕ → Bytes} (htitle : 0 ∉ title) (hcells : ∀ i j, 0 ∉ cells i j)
    (k c : ℕ) : picture x w title cells k c ≠ 0 := by
  unfold picture titleLine cellLine
  split_ifs
  · decide
  · decide
  · decide
  · decide
  · rename_i h
    have hlt : c - titleColumn x w title.length < title.length := by omega
    rw [List.getD_eq_getElem?_getD,List.getElem?_eq_getElem hlt]
    rintro h0
    exact htitle (h0 ▸ List.getElem_mem hlt)
  · decide
  · decide
  · exact getD_ne_zero (hcells _ _) _ (by decide)

theorem zero_notMem_lines {L n : ℕ} {f : Picture} (h : ∀ k c, f k c ≠ 0) : 0 ∉ lines L n f := by
  simp only [lines,row,List.mem_flatMap,List.mem_map,not_exists,not_and]
  intro k _ c _
  exact h k c

theorem stringGet_laid (htitle : 0 ∉ title) {t : STable} {as : List Write}
    (h : Laid x y w title (shown as) t) : ∃ s, sTableStringGet t = some s ∧
      s.bytes = lines (wide x w) (2 * y + 3) (picture x w title (shown as)) := by
  obtain ⟨rest,htext⟩ := h.text
  have hfree := zero_notMem_lines (L := wide x w) (n := 2 * y + 3)
    (picture_ne_zero (x := x) (w := w) htitle (zero_notMem_shown as))
  refine ⟨CString.ofMem t.text,by rw [sTableStringGet,h.data]; rfl,?_⟩
  rw [CString.ofMem_bytes,htext,cstr_append_nul hfree]

theorem lines_slice {L n k a s : ℕ} (f : Picture) (hk : k < n) (ha : a + s ≤ L) :
    ((lines L n f).drop (k * L + a)).take s = (List.range s).map fun o => f k (a + o) := by
  apply List.ext_getElem?
  intro o
  by_cases ho : o < s
  · have hplace : k * L + a + o = k * L + (a + o) := Nat.add_assoc _ _ _
    rw [List.getElem?_take_of_lt ho,List.getElem?_drop,hplace,getElem?_lines f hk (by omega)]
    simp [ho]
  · rw [List.getElem?_eq_none (by rw [List.length_take]; omega),List.getElem?_eq_none (by simp; omega)]

theorem shown_length {as : List Write} (h : ∀ a ∈ as, a.Accepted x y w) (i j : ℕ) :
    (shown as i j).length ≤ w := by
  unfold shown
  cases hl : last (Write.at i j) as with
  | none => simp
  | some bs =>
    obtain ⟨a,ha,hat⟩ := mem_of_last hl
    unfold Write.at at hat
    split at hat <;> cases hat
    exact (h a ha).2.2

theorem cell_slice {i j : ℕ} (hi : i < x) (hj : j < y) {cells : ℕ → ℕ → Bytes}
    (hlen : (cells i j).length ≤ w) :
    ((lines (wide x w) (2 * y + 3) (picture x w title cells)).drop (cellPlace x w i j)).take w =
      cells i j ++ List.replicate (w - (cells i j).length) 32 := by
  have hcell := cell_le (w := w) hi
  rw [cellPlace,lines_slice _ (by omega) (by omega)]
  apply List.ext_getElem?
  intro o
  by_cases ho : o < w
  · obtain ⟨hdiv,hmod⟩ := cell_column (i := i) (w := w) (c := i * (w + 1) + 1 + o) (by omega) (by omega)
    have hplace : i * (w + 1) + 1 + o - i * (w + 1) - 1 = o := by omega
    have hrow : (2 * j + 3 - 3) / 2 = j := by omega
    have hpicture : picture x w title cells (2 * j + 3) (i * (w + 1) + 1 + o) =
        (cells i j).getD o 32 := by
      rw [picture,if_neg (by omega),if_neg (by omega),if_neg (by omega),if_neg (by omega),cellLine,hdiv,
        hmod,if_neg (by omega),hrow,hplace]
    rw [List.getElem?_map,List.getElem?_range ho,Option.map_some,hpicture,List.getD_eq_getElem?_getD]
    by_cases hin : o < (cells i j).length
    · rw [List.getElem?_append_left hin,List.getElem?_eq_getElem hin,Option.getD_some]
    · rw [List.getElem?_append_right (by omega),List.getElem?_eq_none (by omega),
        List.getElem?_replicate_of_lt (by omega),Option.getD_none]
  · rw [List.getElem?_eq_none (by simp; omega),List.getElem?_eq_none (by simp; omega)]

theorem frame_eq {n : ℕ}
    (hn : ∀ i < x, ∀ j < y, ¬ (cellPlace x w i j ≤ n ∧ n < cellPlace x w i j + w))
    (cells : ℕ → ℕ → Bytes) :
    (lines (wide x w) (2 * y + 3) (picture x w title cells))[n]? =
      (lines (wide x w) (2 * y + 3) (picture x w title fun _ _ => []))[n]? := by
  have h3 := three_le_wide x w
  have hwide : wide x w = (w + 1) * x + 3 := rfl
  rcases Nat.lt_or_ge n ((2 * y + 3) * wide x w) with hlt | hge
  · obtain ⟨k,c,hc,rfl⟩ : ∃ k c, c < wide x w ∧ n = k * wide x w + c :=
      ⟨n / wide x w,n % wide x w,Nat.mod_lt n (by omega),(Nat.div_add_mod' n _).symm⟩
    have hk : k < 2 * y + 3 := by
      by_contra hge
      have hle : (2 * y + 3) * wide x w ≤ k * wide x w := Nat.mul_le_mul_right _ (by omega)
      omega
    rw [getElem?_lines _ hk hc,getElem?_lines _ hk hc]
    congr 1
    apply picture_congr
    intro h₁ h₂ h₃ h₄ h₅
    -- the place is in a cell
    exfalso
    have hmod : c % (w + 1) < w + 1 := Nat.mod_lt _ (Nat.succ_pos w)
    have hdiv : c / (w + 1) * (w + 1) + c % (w + 1) = c := Nat.div_add_mod' c (w + 1)
    have hne : c ≠ (w + 1) * x := by
      rintro rfl
      exact h₅ (Nat.mul_mod_right _ _)
    have hi : c / (w + 1) < x := Nat.div_lt_of_lt_mul (by omega)
    refine hn (c / (w + 1)) hi ((k - 3) / 2) (by omega) ?_
    rw [cellPlace,show 2 * ((k - 3) / 2) + 3 = k by omega]
    omega
  · rw [List.getElem?_eq_none (by rw [lines_length]; exact hge),
      List.getElem?_eq_none (by rw [lines_length]; exact hge)]

/-- The string of a table in which these values were accepted. -/
structure Rendered (x y w : ℕ) (title : Bytes) (as : List Write) (s : Bytes) : Prop where
  /-- `2*y+3` lines of the same length that end in a newline. -/
  lines : ∃ ls : List Bytes, s = ls.flatten ∧ ls.length = 2 * y + 3 ∧
    ∀ l ∈ ls, l.length = (w + 1) * x + 3 ∧ l.getLast? = some 10
  /-- Every cell shows the last value for it, or spaces. -/
  cells : ∀ i < x, ∀ j < y, (s.drop (cellPlace x w i j)).take w =
    shown as i j ++ List.replicate (w - (shown as i j).length) 32
  /-- Everything else is as in the new table: borders, separators and the title. -/
  frame : ∀ n, (∀ i < x, ∀ j < y, ¬ (cellPlace x w i j ≤ n ∧ n < cellPlace x w i j + w)) →
    s[n]? = (TextGrid.lines (wide x w) (2 * y + 3) (picture x w title fun _ _ => []))[n]?

theorem rendered_lines (as : List Write) (hall : ∀ a ∈ as, a.Accepted x y w) :
    Rendered x y w title as (lines (wide x w) (2 * y + 3) (picture x w title (shown as))) where
  lines := by
    refine ⟨(List.range (2 * y + 3)).map fun k => row (wide x w) (picture x w title (shown as) k),
      rfl,by simp,?_⟩
    intro l hl
    obtain ⟨k,-,rfl⟩ := List.mem_map.mp hl
    refine ⟨row_length _ _,?_⟩
    have hrange : List.range (wide x w) = List.range (wide x w - 1) ++ [wide x w - 1] := by
      rw [← List.range_succ]
      rfl
    have hlast : wide x w - 1 + 1 = wide x w := rfl
    rw [row,hrange,List.map_append,List.map_singleton,List.getLast?_concat,picture,if_pos hlast]
  cells i hi j hj := cell_slice hi hj (shown_length hall i j)
  frame n hn := frame_eq hn (shown as)

theorem writes_accepted (calls : List Call) :
    ∀ a ∈ calls.flatMap (Call.writes x y w), a.Accepted x y w := by
  intro a ha
  obtain ⟨call,-,hmem⟩ := List.mem_flatMap.mp ha
  simpa using List.mem_takeWhile_imp hmem

theorem dimensions_lt (h : blockSize x y w < 2^31) : x < 2^31 ∧ y < 2^31 := by
  have h3 := three_le_wide x w
  have hx : x ≤ (w + 1) * x := Nat.le_mul_of_pos_left x (Nat.succ_pos w)
  have hy : 3 * (2 * y + 3) ≤ wide x w * (2 * y + 3) := Nat.mul_le_mul_right _ h3
  have hwide : wide x w = (w + 1) * x + 3 := rfl
  unfold blockSize at h
  constructor <;> omega

/-- After any sequence of calls on a new table, no write has left its part of the block. The
string is made of equal lines, with the frame and the title of the new table and in every cell
the last value that was accepted for it, and a value that is not accepted changes nothing. -/
theorem table_rendering {x y w : ℕ} (hw : 1 ≤ w) (hsize : blockSize x y w < 2^31) {title : CString}
    (h63 : title.length ≤ 63) (hfit : title.length + 4 ≤ (w + 1) * x) {calls : List Call}
    (hcalls : ∀ call ∈ calls, call.Admissible) :
    ∃ t t' s, sTableCreate0 title x y w = .done t ∧ runCalls t calls = some t' ∧
      sTableStringGet t' = some s ∧
      Rendered x y w title.bytes (calls.flatMap (Call.writes x y w)) s.bytes ∧
      ∀ i j v, ¬ Write.Accepted x y w ⟨(i : ℕ),(j : ℕ),v⟩ →
        sTableValueset t' i j (some v) = some (0,t') := by
  obtain ⟨hx,hy⟩ := dimensions_lt hsize
  obtain ⟨t,hcreate,h⟩ := create_laid hw hsize h63 hfit
  have hempty : Laid x y w title.bytes (shown []) t := h
  obtain ⟨t',hruns,h'⟩ := runCalls_laid hx hy hcalls hempty
  rw [List.nil_append] at h'
  obtain ⟨s,hs,hbytes⟩ := stringGet_laid title.nulFree h'
  refine ⟨t,t',s,hcreate,hruns,hs,?_,fun i j v ha => valueset_rejected h' ha⟩
  rw [hbytes]
  exact rendered_lines _ (writes_accepted calls)

def sampleCalls : List Call :=
  [.valuesetxs 1 0 (CString.lit "x,,yy") 44,.valueset 0 0 (some (CString.lit "too long"))]

theorem sampleCalls_admissible : ∀ call ∈ sampleCalls, call.Admissible := by
  have hshort (n : ℕ) : ∀ v ∈ tokens 44 n (CString.lit "x,,yy").bytes, v.length ≤ MAX_COLWIDTH := by
    rcases n with _ | _ | n
    · decide
    · decide
    · have htokens : tokens 44 (n + 2) (CString.lit "x,,yy").bytes =
          [CString.lit "x",CString.lit "yy"] := rfl
      rw [htokens]
      decide
  intro call hcall
  rcases List.mem_pair.mp hcall with rfl | rfl
  · exact ⟨by decide,by decide,by decide,hshort⟩
  · trivial

theorem table_rendering_small : ∃ t t' s, sTableCreate0 (CString.lit "ab") 2 2 4 = .done t ∧
    runCalls t sampleCalls = some t' ∧ sTableStringGet t' = some s ∧
    Rendered 2 2 4 (CString.lit "ab").bytes [⟨0,1,CString.lit "x"⟩,⟨1,1,CString.lit "yy"⟩] s.bytes := by
  obtain ⟨t,t',s,hcreate,hruns,hs,hrendered,-⟩ := @table_rendering 2 2 4 (by decide) (by decide)
    (CString.lit "ab") (by decide) (by decide) sampleCalls sampleCalls_admissible
  have hwrites : sampleCalls.flatMap (Call.writes 2 2 4) =
      [⟨0,1,CString.lit "x"⟩,⟨1,1,CString.lit "yy"⟩] := by decide
  rw [hwrites] at hrendered
  exact ⟨t,t',s,hcreate,hruns,hs,hrendered⟩

end StringTable
end WddProc
