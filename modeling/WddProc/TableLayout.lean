import WddProc.StringTable
import WddProc.TextGrid

/-!
# What a new table looks like

The phases of `s_table_tableinit` as updates of a picture of `2*y+3` lines, and the
place of every cell in it.
-/

namespace WddProc
namespace StringTable

open TextGrid

def wide (x w : ℕ) : ℕ := (w + 1) * x + 3

def titleColumn (x w n : ℕ) : ℕ := 1 + (wide x w - 2) / 2 - n / 2

def titleLine (x w : ℕ) (title : Bytes) (c : ℕ) : UInt8 :=
  if c = 0 ∨ c = (w + 1) * x then 124
  else if titleColumn x w title.length ≤ c ∧ c < titleColumn x w title.length + title.length then
    title.getD (c - titleColumn x w title.length) 0
  else 32

def cellLine (w : ℕ) (cell : ℕ → Bytes) (c : ℕ) : UInt8 :=
  if c % (w + 1) = 0 then 124 else (cell (c / (w + 1))).getD (c % (w + 1) - 1) 32

/-- A table with a title and with bytes in its cells: row `j` is on line `2*j+3`. -/
def picture (x w : ℕ) (title : Bytes) (cells : ℕ → ℕ → Bytes) : Picture := fun k c =>
  if c + 1 = wide x w then 10
  else if c + 2 = wide x w then 32
  else if k % 2 = 0 then 61
  else if k = 1 then titleLine x w title c
  else cellLine w (fun i => cells i ((k - 3) / 2)) c

def cellPlace (x w i j : ℕ) : ℕ := (2 * j + 3) * wide x w + (i * (w + 1) + 1)

/-- A table whose text is the picture with these cells. -/
structure Laid (x y w : ℕ) (title : Bytes) (cells : ℕ → ℕ → Bytes) (t : STable) : Prop where
  tableX : t.tableX = x
  tableY : t.tableY = y
  colwidth : t.colwidth = w
  data : t.data = some 0
  table : ∀ i < x, ∀ j < y, t.table[i * y + j]? = some (some (cellPlace x w i j))
  text : ∃ rest, t.text = lines (wide x w) (2 * y + 3) (picture x w title cells) ++ 0 :: rest

variable {x y w : ℕ}

theorem three_le_wide (x w : ℕ) : 3 ≤ wide x w := Nat.le_add_left 3 _

def blankLine (x w k c : ℕ) : UInt8 :=
  if c + 1 = wide x w then 10 else if c + 2 = wide x w then 32 else if k % 2 = 0 then 61 else 32

theorem initLine_eq {md : STable} (hL : md.relLineNum = wide x w) (htype : md.typeValue = 0)
    (f : Picture) (rest : Bytes) {n k : ℕ} (hk : k < n) :
    initLine md (lines (wide x w) n f ++ rest) k =
      some (lines (wide x w) n (Function.update f k (blankLine x w k)) ++ rest) := by
  have h3 := three_le_wide x w
  let tmp : UInt8 := if k % 2 = 0 then 61 else 32
  let spaced (c : ℕ) : UInt8 := if c + 2 = wide x w then 32 else tmp
  have hfill : poke (lines (wide x w) n f ++ rest) (k * wide x w) (List.replicate (wide x w) tmp) =
      some (lines (wide x w) n (Function.update f k fun _ => tmp) ++ rest) := by
    refine poke_line 0 _ rest (fun _ => tmp) hk (by simp) fun c hc => ?_
    rw [Picture.write_replicate,if_pos ⟨rfl,by omega,by omega⟩]
  have hspace : poke (lines (wide x w) n (Function.update f k fun _ => tmp) ++ rest)
      (k * wide x w + (wide x w - 2)) [32] =
      some (lines (wide x w) n (Function.update f k spaced) ++ rest) := by
    rw [poke_line _ [32] rest spaced hk (by simp; omega) fun c hc => ?_,Function.update_idem]
    rw [Picture.write_singleton,Function.update_self]
    exact if_congr (by omega) rfl rfl
  have hend : poke (lines (wide x w) n (Function.update f k spaced) ++ rest)
      (k * wide x w + (wide x w - 1)) [10] =
      some (lines (wide x w) n (Function.update f k (blankLine x w k)) ++ rest) := by
    rw [poke_line _ [10] rest (blankLine x w k) hk (by simp; omega) fun c hc => ?_,
      Function.update_idem]
    rw [Picture.write_singleton,Function.update_self]
    exact if_congr (by omega) rfl rfl
  simp only [initLine,hL,htype,gLineBreak,gTbDefaultValue,Option.bind_eq_bind,Option.bind_some]
  rw [hfill,Option.bind_some,hspace,Option.bind_some,hend]

theorem initLines_eq {md : STable} (hy : md.tableY = y) (hL : md.relLineNum = wide x w)
    (htype : md.typeValue = 0) (f : Picture) (b : UInt8) (rest : Bytes) :
    initLines md (lines (wide x w) (2 * y + 3) f ++ b :: rest) =
      some (lines (wide x w) (2 * y + 3) (blankLine x w) ++ 0 :: rest) := by
  have hend := poke_append (lines (wide x w) (2 * y + 3) (blankLine x w)) (b :: rest) [0]
  rw [lines_length,if_pos (by simp)] at hend
  rw [initLines,hy,foldlM_lines (fun k _ => blankLine x w k)
    (fun f k hk => initLine_eq hL htype f (b :: rest) hk) f]
  simp only [Option.bind_eq_bind,Option.bind_some,hL,gTbDefaultValue]
  rw [hend]
  simp

def separated (x w k : ℕ) (line : ℕ → UInt8) (c : ℕ) : UInt8 :=
  if c < wide x w - 2 ∧ c % (w + 1) = 0 then (if k % 2 = 0 then 61 else 124) else line c

theorem initColumn_eq {md : STable} (hw : md.colwidth = w) (hL : md.relLineNum = wide x w)
    (f : Picture) (rest : Bytes) {n k : ℕ} (hk : k < n) :
    initColumn md (lines (wide x w) n f ++ rest) k =
      some (lines (wide x w) n (Function.update f k (separated x w k (f k))) ++ rest) := by
  have h3 := three_le_wide x w
  let tmp : UInt8 := if k % 2 = 0 then 61 else 124
  have htmp : gTbDefaultValue (if k % 2 = 0 then .intersectionSymbol else .lineSeparator) = tmp := by
    unfold tmp
    split <;> rfl
  let upTo (j c : ℕ) : UInt8 := if c < j ∧ c % (w + 1) = 0 then tmp else f k c
  let reached (j : ℕ) : Bytes := lines (wide x w) n (Function.update f k (upTo j)) ++ rest
  have hzero : reached 0 = lines (wide x w) n f ++ rest := by
    have h0 : upTo 0 = f k := by
      funext c
      simp [upTo]
    rw [show reached 0 = lines (wide x w) n (Function.update f k (upTo 0)) ++ rest from rfl,h0,
      Function.update_eq_self]
  have hrun : ∃ m, initColumn md (lines (wide x w) n f ++ rest) k = some m ∧
      m = reached (wide x w - 2) := by
    rw [initColumn,htmp,hw,hL]
    refine foldlM_range (P := fun j m => m = reached j) (fun j hj m hm => ?_) hzero.symm
    subst hm
    have hnext (h : j % (w + 1) ≠ 0) : upTo (j + 1) = upTo j := by
      funext c
      have hiff : (c < j + 1 ∧ c % (w + 1) = 0) ↔ c < j ∧ c % (w + 1) = 0 := by
        constructor
        · rintro ⟨hc,h0⟩
          have hne : c ≠ j := fun hcj => h (hcj ▸ h0)
          exact ⟨by omega,h0⟩
        · rintro ⟨hc,h0⟩
          exact ⟨by omega,h0⟩
      simp only [upTo,hiff]
    by_cases h0 : j % (w + 1) = 0
    · refine ⟨reached (j + 1),?_,rfl⟩
      rw [if_pos h0]
      have hpoke := poke_line (f := Function.update f k (upTo j)) j [tmp] rest (upTo (j + 1)) hk
        (show j + 1 ≤ wide x w by omega) (fun c hc => by
          rw [Picture.write_singleton,Function.update_self]
          by_cases hcj : c = j
          · simp [upTo,hcj,h0]
          · have hiff : c < j + 1 ↔ c < j := by omega
            simp [upTo,hcj,hiff])
      rw [Function.update_idem] at hpoke
      exact hpoke
    · refine ⟨reached j,if_neg h0,?_⟩
      rw [show reached (j + 1) = lines (wide x w) n (Function.update f k (upTo (j + 1))) ++ rest
        from rfl,hnext h0]
  obtain ⟨m,hm,rfl⟩ := hrun
  exact hm

theorem initColumns_eq {md : STable} (hy : md.tableY = y) (hw : md.colwidth = w)
    (hL : md.relLineNum = wide x w) (f : Picture) (rest : Bytes) :
    initColumns md (lines (wide x w) (2 * y + 3) f ++ rest) =
      some (lines (wide x w) (2 * y + 3) (fun k => separated x w k (f k)) ++ rest) := by
  rw [initColumns,hy]
  exact foldlM_lines (separated x w) (fun f k hk => initColumn_eq hw hL f rest hk) f

def titled (x w : ℕ) (title : Bytes) (line : ℕ → UInt8) (c : ℕ) : UInt8 :=
  if titleColumn x w title.length ≤ c ∧ c < titleColumn x w title.length + title.length then
    title.getD (c - titleColumn x w title.length) 0
  else if 2 ≤ c ∧ c < (w + 1) * x then 32 else line c

theorem titleColumn_bounds {n : ℕ} (h : n + 4 ≤ (w + 1) * x) :
    2 ≤ titleColumn x w n ∧ titleColumn x w n + n ≤ (w + 1) * x := by
  unfold titleColumn wide
  omega

theorem initTitle_eq {md : STable} {title : Bytes} (hL : md.relLineNum = wide x w)
    (hname : md.nameText = title) (hstart : 2 ≤ titleColumn x w title.length)
    (hstop : titleColumn x w title.length + title.length ≤ (w + 1) * x) (f : Picture)
    (rest : Bytes) {n : ℕ} (hn : 1 < n) :
    initTitle md (lines (wide x w) n f ++ rest) =
      some (lines (wide x w) n (Function.update f 1 (titled x w title (f 1))) ++ rest) := by
  have hwide : wide x w = (w + 1) * x + 3 := rfl
  let cleared (c : ℕ) : UInt8 := if 2 ≤ c ∧ c < (w + 1) * x then 32 else f 1 c
  have hclear : poke (lines (wide x w) n f ++ rest) (1 * wide x w + 2)
      (List.replicate (wide x w - 5) 32) =
      some (lines (wide x w) n (Function.update f 1 cleared) ++ rest) := by
    refine poke_line 2 _ rest cleared hn (by rw [List.length_replicate]; omega) fun c hc => ?_
    rw [Picture.write_replicate]
    exact if_congr (by omega) rfl rfl
  have hwrite : poke (lines (wide x w) n (Function.update f 1 cleared) ++ rest)
      (1 * wide x w + titleColumn x w title.length) title =
      some (lines (wide x w) n (Function.update f 1 (titled x w title (f 1))) ++ rest) := by
    rw [poke_line _ title rest (titled x w title (f 1)) hn (by omega) fun c hc => ?_,
      Function.update_idem]
    rw [Picture.write,Function.update_self]
    exact if_congr (by omega) rfl rfl
  have hplace : wide x w + 1 + (wide x w - 2) / 2 - title.length / 2 =
      1 * wide x w + titleColumn x w title.length := by
    unfold titleColumn
    omega
  have hfive : ¬ wide x w < 5 := by omega
  rw [initTitle,hL,if_neg hfive,hname,hplace,show wide x w + 1 + 1 = 1 * wide x w + 2 by omega,hclear]
  exact hwrite

theorem setPointer_eq {table : List (Option ℕ)} {i : ℕ} (h : i < table.length) (p : ℕ) :
    setPointer table i p = some (table.set i (some p)) := if_pos h

/-- The pointers of the rows before `j`, and those of row `j` before column `i`. -/
def Pointed (x y w j i : ℕ) (table : List (Option ℕ)) : Prop :=
  table.length = x * y ∧ ∀ i' < x, ∀ j' < y, j' < j ∨ j' = j ∧ i' < i →
    table[i' * y + j']? = some (some (cellPlace x w i' j'))

theorem initRow_pointed {md : STable} (hx : md.tableX = x) (hy : md.tableY = y)
    (hw : md.colwidth = w) (hL : md.relLineNum = wide x w) {j : ℕ} (hj : j < y)
    {table : List (Option ℕ)} (h : Pointed x y w j 0 table) :
    ∃ table', initRow md table j = some table' ∧ Pointed x y w (j + 1) 0 table' := by
  have hrun : ∃ table', initRow md table j = some table' ∧ Pointed x y w j x table' := by
    rw [initRow,hx,hL,hw]
    refine foldlM_range (P := fun i table => Pointed x y w j i table) (fun i hi table ht => ?_) h
    have hlt : sTableGet md j i < table.length := by
      rw [sTableGet,hy,ht.1]
      exact place_lt hi hj
    refine ⟨_,setPointer_eq hlt _,by rw [List.length_set]; exact ht.1,fun i' hi' j' hj' hdone => ?_⟩
    have hget : sTableGet md j i = i * y + j := by rw [sTableGet,hy]
    rw [hget]
    by_cases heq : i' = i ∧ j' = j
    · obtain ⟨rfl,rfl⟩ := heq
      rw [List.getElem?_set_self (by rw [← hget]; exact hlt)]
      rfl
    · have hplace : (i * y + j ≤ i' * y + j' ∧ i' * y + j' < i * y + j + 1) ↔
          i' = i ∧ j ≤ j' ∧ j' < j + 1 := place_mem_iff hj hj'
      rw [List.getElem?_set_ne (by omega)]
      exact ht.2 i' hi' j' hj' (by omega)
  obtain ⟨table',hrow,hlen,hall⟩ := hrun
  exact ⟨table',hrow,hlen,fun i' hi' j' hj' hdone => hall i' hi' j' hj' (by omega)⟩

theorem initPointers_eq {md : STable} (hx : md.tableX = x) (hy : md.tableY = y)
    (hw : md.colwidth = w) (hL : md.relLineNum = wide x w) {table : List (Option ℕ)}
    (h : table.length = x * y) :
    ∃ table', initPointers md table = some table' ∧
      ∀ i < x, ∀ j < y, table'[i * y + j]? = some (some (cellPlace x w i j)) := by
  have hrun : ∃ table', initPointers md table = some table' ∧ Pointed x y w y 0 table' := by
    rw [initPointers,hy]
    exact foldlM_range (P := fun j table => Pointed x y w j 0 table)
      (fun j hj table ht => initRow_pointed hx hy hw hL hj ht) ⟨h,fun i _ j _ hno => by omega⟩
  obtain ⟨table',hinit,-,hall⟩ := hrun
  exact ⟨table',hinit,fun i hi j hj => hall i hi j hj (Or.inl hj)⟩

theorem phases_titleLine (hw : 1 ≤ w) {title : Bytes} (hstart : 2 ≤ titleColumn x w title.length)
    (hstop : titleColumn x w title.length + title.length ≤ (w + 1) * x) (cells : ℕ → ℕ → Bytes)
    {c : ℕ} (hc : c < wide x w) :
    titled x w title (separated x w 1 (blankLine x w 1)) c = picture x w title cells 1 c := by
  have hwide : wide x w = (w + 1) * x + 3 := rfl
  have hborder : (w + 1) * x % (w + 1) = 0 := Nat.mul_mod_right _ _
  have hodd : ¬ 1 % 2 = 0 := by decide
  by_cases ht : titleColumn x w title.length ≤ c ∧ c < titleColumn x w title.length + title.length
  · rw [titled,if_pos ht,picture,if_neg (by omega),if_neg (by omega),if_neg hodd,if_pos rfl,
      titleLine,if_neg (by omega),if_pos ht]
  rw [titled,if_neg ht]
  by_cases h2 : 2 ≤ c ∧ c < (w + 1) * x
  · rw [if_pos h2,picture,if_neg (by omega),if_neg (by omega),if_neg hodd,if_pos rfl,titleLine,
      if_neg (by omega),if_neg ht]
  rw [if_neg h2]
  by_cases hb : c = 0 ∨ c = (w + 1) * x
  · have hmod : c % (w + 1) = 0 := by
      rcases hb with rfl | rfl
      · exact Nat.zero_mod _
      · exact hborder
    rw [separated,if_pos ⟨by omega,hmod⟩,if_neg hodd,picture,if_neg (by omega),if_neg (by omega),
      if_neg hodd,if_pos rfl,titleLine,if_pos hb]
  by_cases h1 : c = 1
  · have hmod : ¬ (c < wide x w - 2 ∧ c % (w + 1) = 0) := by
      rw [h1,Nat.mod_eq_of_lt (by omega)]
      omega
    rw [separated,if_neg hmod,blankLine,if_neg (by omega),if_neg (by omega),if_neg hodd,picture,
      if_neg (by omega),if_neg (by omega),if_neg hodd,if_pos rfl,titleLine,if_neg hb,if_neg ht]
  · rw [separated,if_neg (by omega),blankLine,picture]
    by_cases hend : c + 1 = wide x w
    · rw [if_pos hend,if_pos hend]
    · rw [if_neg hend,if_neg hend,if_pos (by omega),if_pos (by omega)]

theorem phases_otherLine (title : Bytes) {k c : ℕ} (hk : k ≠ 1) (hc : c < wide x w) :
    separated x w k (blankLine x w k) c = picture x w title (fun _ _ => []) k c := by
  simp only [separated,picture,blankLine,cellLine,List.getD_nil,if_neg hk]
  by_cases h₁ : c + 1 = wide x w
  · rw [if_neg (by omega),if_pos h₁,if_pos h₁]
  by_cases h₂ : c + 2 = wide x w
  · rw [if_neg (by omega),if_neg h₁,if_pos h₂,if_neg h₁,if_pos h₂]
  have hlt : c < wide x w - 2 := by omega
  simp only [h₁,h₂,hlt,if_false,true_and]
  split <;> split <;> rfl

/-- The phases together give the table without values. -/
theorem phases_picture (hw : 1 ≤ w) {title : Bytes} (hstart : 2 ≤ titleColumn x w title.length)
    (hstop : titleColumn x w title.length + title.length ≤ (w + 1) * x) (n : ℕ) :
    lines (wide x w) n (Function.update (fun k => separated x w k (blankLine x w k)) 1
      (titled x w title (separated x w 1 (blankLine x w 1)))) =
      lines (wide x w) n (picture x w title fun _ _ => []) := by
  apply lines_congr
  intro k _ c hc
  by_cases hk : k = 1
  · subst hk
    rw [Function.update_self]
    exact phases_titleLine hw hstart hstop _ hc
  · rw [Function.update_of_ne hk]
    exact phases_otherLine title hk hc

theorem copyName_eq {title : Bytes} (hfree : 0 ∉ title) (h : title.length ≤ 64)
    (x y w num relLineNum : ℕ) :
    ∃ name, (emptyTable x y w num relLineNum).copyName title =
        some { emptyTable x y w num relLineNum with name := name } ∧
      cstr (name.1 ++ List.replicate 4 0) = title := by
  have hzero : (emptyTable x y w num relLineNum).name.1 ++ (emptyTable x y w num relLineNum).tableType.1 =
      List.replicate 68 0 := rfl
  have hpoke := poke_append [] (List.replicate 68 0) title
  rw [List.length_replicate,if_pos (by omega),List.nil_append,List.nil_append,List.length_nil,
    List.drop_replicate] at hpoke
  have htotal : (title ++ List.replicate (68 - title.length) 0).length =
      MAX_TABLE_NAME + 4 := by
    rw [List.length_append,List.length_replicate]
    unfold MAX_TABLE_NAME
    omega
  have hdrop : (title ++ List.replicate (68 - title.length) 0).drop MAX_TABLE_NAME =
      List.replicate 4 0 := by
    have hfour : 68 - title.length - (MAX_TABLE_NAME - title.length) = 4 := by
      unfold MAX_TABLE_NAME
      omega
    rw [List.drop_append,List.drop_eq_nil_of_le (by unfold MAX_TABLE_NAME; omega),
      List.drop_replicate,hfour,List.nil_append]
  have htype (hd) : (⟨(title ++ List.replicate (68 - title.length) 0).drop MAX_TABLE_NAME,
      hd⟩ : CharArray 4) = CharArray.zero 4 := Subtype.ext hdrop
  refine ⟨⟨(title ++ List.replicate (68 - title.length) 0).take MAX_TABLE_NAME,
    by rw [List.length_take,htotal]; rfl⟩,?_,?_⟩
  · rw [STable.copyName,hzero,hpoke,Option.bind_eq_bind,Option.bind_some,dif_pos htotal,htype]
    rfl
  · obtain ⟨n,hn⟩ : ∃ n, 68 - title.length = n + 1 := ⟨67 - title.length,by omega⟩
    have hall := List.take_append_drop MAX_TABLE_NAME
      (title ++ List.replicate (68 - title.length) 0)
    rw [hdrop] at hall
    rw [hall,hn,List.replicate_succ]
    exact cstr_append_nul hfree _

theorem tableinit_laid {md : STable} {title : Bytes} (hw : 1 ≤ w)
    (hstart : 2 ≤ titleColumn x w title.length)
    (hstop : titleColumn x w title.length + title.length ≤ (w + 1) * x) (hx : md.tableX = x) (hy : md.tableY = y)
    (hcw : md.colwidth = w) (hL : md.relLineNum = wide x w) (htype : md.typeValue = 0)
    (hname : md.nameText = title) (htable : md.table.length = x * y) {rest : Bytes}
    (htext : md.text = List.replicate ((2 * y + 3) * wide x w) 0 ++ 0 :: rest) :
    ∃ t, sTableTableinit md = some t ∧ Laid x y w title (fun _ _ => []) t := by
  obtain ⟨table,hpointers,hall⟩ := initPointers_eq hx hy hcw hL htable
  rw [← lines_zero] at htext
  have htitle := initTitle_eq hL hname hstart hstop (fun k => separated x w k (blankLine x w k)) (0 :: rest)
    (show 1 < 2 * y + 3 by omega)
  rw [phases_picture hw hstart hstop] at htitle
  have hinit : sTableTableinit md = some { md with
      text := lines (wide x w) (2 * y + 3) (picture x w title fun _ _ => []) ++ 0 :: rest
      table := table
      data := some 0 } := by
    rw [sTableTableinit,htext,initLines_eq hy hL htype]
    simp only [Option.bind_eq_bind,Option.bind_some]
    rw [initColumns_eq hy hcw hL,Option.bind_some,htitle,Option.bind_some,hpointers,Option.bind_some]
  exact ⟨_,hinit,hx,hy,hcw,rfl,hall,rest,rfl⟩

/-- The size of the block that `s_table_create_0` asks for. -/
def blockSize (x y w : ℕ) : ℕ := matedateSize + 8 * x * y + wide x w + (wide x w * (2 * y + 3) + 1)

theorem int_eq {n : ℕ} (h : n < 2^31) : int n = some n := if_pos h

theorem sizeCompute_eq (h : blockSize x y w < 2^31) :
    sTableSizeCompute x y w = some (blockSize x y w : ℤ) := by
  have hwide : (w + 1) * x + 1 + 2 = wide x w := rfl
  unfold blockSize at h
  have hcells : toInt32 (8 * (x : ℤ) * y) = 8 * x * y := by
    have hsmall := toInt32_small (show 8 * x * y < 2^31 by omega)
    push_cast at hsmall
    exact hsmall
  have hsize : (matedateSize : ℤ) + 8 * x * y + wide x w + (wide x w * (2 * y + 3) + 1 : ℕ) =
      blockSize x y w := by
    rw [blockSize]
    push_cast
    ring
  simp only [sTableSizeCompute,hwide,hcells,Option.bind_eq_bind]
  rw [int_eq (by omega),Option.bind_some,int_eq (by omega),Option.bind_some,hsize,if_pos]
  unfold blockSize
  exact_mod_cast h

theorem title_accepted {n : ℕ} (h63 : n ≤ 63) (hfit : n + 4 ≤ (w + 1) * x) :
    ¬ ((MAX_TABLE_NAME : ℤ) < (n : ℤ) - 1 ∨ (wide x w : ℤ) - 5 < (n : ℤ) - 1) := by
  unfold MAX_TABLE_NAME wide
  omega

theorem space_le (x y w : ℕ) : (x * (w + 1) + 1) * (y + 2) ≤ wide x w * (2 * y + 3) := by
  rw [Nat.mul_comm x (w + 1)]
  exact Nat.mul_le_mul (by unfold wide; omega) (by omega)

/-- The bytes of a block that a table needs. -/
def needed (x y w : ℕ) : ℕ := matedateSize + 8 * x * y + ((2 * y + 3) * wide x w + 1)

theorem space_lt_needed (x y w : ℕ) :
    matedateSize + 8 * x * y + (x * (w + 1) + 1) * (y + 2) < needed x y w := by
  have hle := space_le x y w
  rw [Nat.mul_comm (wide x w)] at hle
  unfold needed
  omega

theorem needed_le_blockSize (x y w : ℕ) : needed x y w ≤ blockSize x y w := by
  rw [needed,blockSize,Nat.mul_comm (wide x w)]
  omega

theorem text_eq {num : ℕ} (h : needed x y w ≤ num) : ∃ n,
    List.replicate (num - matedateSize - 8 * x * y) (0 : UInt8) =
      List.replicate ((2 * y + 3) * wide x w) 0 ++ 0 :: List.replicate n 0 := by
  unfold needed at h
  refine ⟨num - needed x y w,?_⟩
  have hlen : num - matedateSize - 8 * x * y =
      (2 * y + 3) * wide x w + (num - needed x y w + 1) := by
    unfold needed
    omega
  rw [hlen,← List.replicate_append_replicate,List.replicate_succ]

theorem sTableCreate_eq {num : ℕ} (hspace : needed x y w ≤ num) (hnum : num < 2^31) {title : CString}
    {n : ℕ} (hname : toInt32 (title.length : ℤ) = n)
    (haccepted : ¬ ((MAX_TABLE_NAME : ℤ) < (n : ℤ) - 1 ∨ (wide x w : ℤ) - 5 < (n : ℤ) - 1))
    {md t : STable}
    (hcopy : (emptyTable x y w num (wide x w)).copyName (title.bytes.take n) = some md)
    (hinit : sTableTableinit md = some t) : sTableCreate title x y w num = .done t := by
  have hless := space_lt_needed x y w
  have hwide : wide x w ≤ (2 * y + 3) * wide x w := Nat.le_mul_of_pos_left _ (by omega)
  have hlarge : wide x w < needed x y w := by
    unfold needed
    omega
  have hfits : ¬ num < matedateSize + 8 * x * y + (x * (w + 1) + 1) * (y + 2) := by omega
  have hspaceInt : int ((x * (w + 1) + 1) * (y + 2)) = some ((x * (w + 1) + 1) * (y + 2)) :=
    int_eq (by omega)
  have hwideInt : int ((w + 1) * x + 1 + 2) = some (wide x w) :=
    @int_eq (wide x w) (by omega)
  simp only [sTableCreate,hspaceInt,hwideInt,hname]
  rw [if_neg hfits,if_neg haccepted,if_neg (Int.not_lt.mpr (Int.natCast_nonneg n)),Int.toNat_natCast,
    hcopy,Option.bind_eq_bind,Option.bind_some,hinit]

/-- A new table shows its title and empty cells. -/
theorem create_laid (hw : 1 ≤ w) (hsize : blockSize x y w < 2^31) {title : CString}
    (h63 : title.length ≤ 63) (hfit : title.length + 4 ≤ (w + 1) * x) :
    ∃ t, sTableCreate0 title x y w = .done t ∧ Laid x y w title.bytes (fun _ _ => []) t := by
  have h64 : title.length ≤ 64 := by omega
  obtain ⟨name,hcopy,hname⟩ := copyName_eq title.nulFree h64 x y w (blockSize x y w) (wide x w)
  obtain ⟨n,hzeros⟩ := text_eq (needed_le_blockSize x y w)
  obtain ⟨hstart,hstop⟩ := titleColumn_bounds hfit
  have hnamed : STable.nameText { emptyTable x y w (blockSize x y w) (wide x w) with name := name } =
      title.bytes := hname
  obtain ⟨t,hinit,hlaid⟩ := tableinit_laid hw hstart hstop rfl rfl rfl rfl rfl hnamed
    List.length_replicate hzeros
  have hall : title.bytes.take title.length = title.bytes := List.take_of_length_le (le_refl _)
  rw [← hall] at hcopy
  have hcreate := sTableCreate_eq (needed_le_blockSize x y w) hsize (toInt32_small (by omega))
    (title_accepted h63 hfit) hcopy hinit
  refine ⟨t,?_,hlaid⟩
  simp only [sTableCreate0,sizeCompute_eq hsize,Int.toNat_natCast]
  rw [if_neg (Int.not_lt.mpr (Int.natCast_nonneg _)),hcreate]

end StringTable
end WddProc
