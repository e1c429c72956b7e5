import WddProc.CJsonParse

/-!
# Text tables

`stringtable.c` keeps a table in one block: the fields of `s_t_matedate`, the `x*y`
pointers to the cells, and the text, into which the pointers are offsets. `none` is a
write outside the part that it is meant for, or arithmetic that overflows.
-/

namespace WddProc
namespace StringTable

def MAX_TABLE_NAME : ℕ := 64
def MAX_COLWIDTH : ℕ := 32

inductive TbAttribute
  | lineSeparator | columnSeparator | intersectionSymbol | stringEndSymbol
  deriving DecidableEq

def gTbDefaultValue : TbAttribute → UInt8
  | .lineSeparator => 124
  | .columnSeparator => 61
  | .intersectionSymbol => 61
  | .stringEndSymbol => 0

/-- `g_line_break`, which has two rows. -/
def gLineBreak : ℕ → Option (UInt8 × UInt8)
  | 0 => some (32,10)
  | 1 => some (13,10)
  | _ => none

/-- `s_t_matedate` and what follows it in the block. -/
structure STable where
  name : CharArray MAX_TABLE_NAME
  tableType : CharArray 4
  tableX : ℕ
  tableY : ℕ
  memNum : ℕ
  colwidth : ℕ
  relLineNum : ℕ
  data : Option ℕ
  table : List (Option ℕ)
  text : Bytes

def matedateSize : ℕ := 96

/-- An `int` result, unless it overflows. -/
def int (n : ℕ) : Option ℕ := if n < 2^31 then some n else none

def sTableSizeCompute (x y colwidth : ℕ) : Option ℤ := do
  let tableWide ← int ((colwidth + 1) * x + 1 + 2)
  let tableSize ← int (tableWide * (2 * y + 3) + 1)
  let size : ℤ := matedateSize + toInt32 (8 * x * y) + tableWide + tableSize
  if size < 2^31 then some size else none

namespace STable

def typeValue (t : STable) : ℕ := t.tableType.1.foldr (fun b n => b.toNat + 256 * n) 0

/-- `md->name` as `strlen` reads it, beyond the array where that has no NUL. -/
def nameText (t : STable) : Bytes := cstr (t.name.1 ++ t.tableType.1)

/-- `memcpy(md->name, …)`: what the array does not hold runs into `table_type`. -/
def copyName (t : STable) (bs : Bytes) : Option STable := do
  let m ← poke (t.name.1 ++ t.tableType.1) 0 bs
  if h : m.length = MAX_TABLE_NAME + 4 then
    some { t with
      name := ⟨m.take MAX_TABLE_NAME,by rw [List.length_take,h]; rfl⟩
      tableType := ⟨m.drop MAX_TABLE_NAME,by rw [List.length_drop,h]; rfl⟩ }
  else none

end STable

/-- `s_table_get`, as an index into the pointers. -/
def sTableGet (md : STable) (x y : ℕ) : ℕ := y * md.tableY + x

/-- One round of the first phase: line `y` and its end. -/
def initLine (md : STable) (m : Bytes) (y : ℕ) : Option Bytes := do
  let tmp := if y % 2 = 0 then gTbDefaultValue .columnSeparator else 32
  let m ← poke m (y * md.relLineNum) (List.replicate md.relLineNum tmp)
  let lineBreak ← gLineBreak md.typeValue
  let m ← poke m (y * md.relLineNum + (md.relLineNum - 2)) [lineBreak.1]
  poke m (y * md.relLineNum + (md.relLineNum - 1)) [lineBreak.2]

/-- First phase: the lines and the end of the text. -/
def initLines (md : STable) (m : Bytes) : Option Bytes := do
  let m ← (List.range (2 * md.tableY + 3)).foldlM (initLine md) m
  poke m ((2 * md.tableY + 3) * md.relLineNum) [gTbDefaultValue .stringEndSymbol]

/-- One round of the second phase: the column separators of line `y`. -/
def initColumn (md : STable) (m : Bytes) (y : ℕ) : Option Bytes :=
  let tmp := gTbDefaultValue (if y % 2 = 0 then .intersectionSymbol else .lineSeparator)
  (List.range (md.relLineNum - 2)).foldlM (fun m x =>
    if x % (md.colwidth + 1) = 0 then poke m (y * md.relLineNum + x) [tmp] else some m) m

def initColumns (md : STable) (m : Bytes) : Option Bytes :=
  (List.range (2 * md.tableY + 3)).foldlM (initColumn md) m

/-- Third phase: the title in the middle of line 1. -/
def initTitle (md : STable) (m : Bytes) : Option Bytes := do
  if md.relLineNum < 5 then none
  else
    let m ← poke m (md.relLineNum + 1 + 1) (List.replicate (md.relLineNum - 5) 32)
    poke m (md.relLineNum + 1 + (md.relLineNum - 2) / 2 - md.nameText.length / 2) md.nameText

def setPointer (table : List (Option ℕ)) (i p : ℕ) : Option (List (Option ℕ)) :=
  if i < table.length then some (table.set i (some p)) else none

/-- One round of the fourth phase: the pointers to the cells of row `y`, on line `2*y+3`. -/
def initRow (md : STable) (table : List (Option ℕ)) (y : ℕ) : Option (List (Option ℕ)) :=
  (List.range md.tableX).foldlM (fun table x =>
    setPointer table (sTableGet md y x)
      ((2 * y + 3) * md.relLineNum + (x * (md.colwidth + 1) + 1))) table

def initPointers (md : STable) (table : List (Option ℕ)) : Option (List (Option ℕ)) :=
  (List.range md.tableY).foldlM (initRow md) table

def sTableTableinit (md : STable) : Option STable := do
  let m ← initLines md md.text
  let m ← initColumns md m
  let m ← initTitle md m
  let table ← initPointers md md.table
  some { md with text := m, table := table, data := some 0 }

/-- `memset(memspace, 0x00, num)` and the fields of the empty table. -/
def emptyTable (x y gridWide num relLineNum : ℕ) : STable where
  name := CharArray.zero MAX_TABLE_NAME
  tableType := CharArray.zero 4
  tableX := x
  tableY := y
  memNum := num
  colwidth := gridWide
  relLineNum := relLineNum
  data := none
  table := List.replicate (x * y) none
  text := List.replicate (num - matedateSize - 8 * x * y) 0

/-- `s_table_create` in a block of `num` bytes. -/
def sTableCreate (tableName : CString) (x y gridWide num : ℕ) : Outcome STable :=
  let nameLen : ℤ := toInt32 tableName.length
  match int ((x * (gridWide + 1) + 1) * (y + 2)),int ((gridWide + 1) * x + 1 + 2) with
  | some space,some relLineNum =>
    if num < matedateSize + 8 * x * y + space then .null
    else if (MAX_TABLE_NAME : ℤ) < nameLen - 1 ∨ (relLineNum : ℤ) - 5 < nameLen - 1 then .null
    else if nameLen < 0 then .fault
    else
      match (emptyTable x y gridWide num relLineNum).copyName
          (tableName.bytes.take nameLen.toNat) >>= sTableTableinit with
      | some md => .done md
      | none => .fault
  | _,_ => .fault

/-- `s_table_create_0`: `malloc` has no block of negative size. -/
def sTableCreate0 (tableName : CString) (x y colwidth : ℕ) : Outcome STable :=
  match sTableSizeCompute x y colwidth with
  | some size => if size < 0 then .null else sTableCreate tableName x y colwidth size.toNat
  | none => .fault

/-- `s_table_valueset`, with its result and the table after it. -/
def sTableValueset (table : STable) (x y : ℕ) (value : Option CString) : Option (ℕ × STable) :=
  match value with
  | none => some (0,table)
  | some value =>
    if table.tableX ≤ x ∨ table.tableY ≤ y then some (0,table)
    else if table.colwidth < value.length then some (0,table)
    else
      match table.table[sTableGet table y x]? with
      | some (some p) => do
        let m ← poke table.text p (List.replicate table.colwidth 32)
        let m ← poke m p value.bytes
        some (1,{ table with text := m })
      | _ => none

/-- `s_table_values_get`: the next value, in an array of `MAX_COLWIDTH + 1` bytes, and the
rest behind its separators. A NUL as separator runs over the end of the values. -/
def sTableValuesGet (values : Bytes) (separ : UInt8) : Option (CString × Option Bytes) :=
  let value := values.takeWhile (· ≠ separ)
  let rest := (values.dropWhile (· ≠ separ)).dropWhile (· = separ)
  if separ = 0 ∨ MAX_COLWIDTH < value.length then none
  else some (CString.ofMem value,if rest = [] then none else some rest)

/-- The conversion of an `int` argument to `unsigned int`. -/
def toUnsigned (z : ℤ) : ℕ := (z % 2^32).toNat

/-- The place of a value in a row, or in a column if `type` is set. -/
def valuesSet (table : STable) (xy s : ℤ) (type : Bool) (value : CString) : Option (ℕ × STable) :=
  if type then sTableValueset table (toUnsigned xy) (toUnsigned s) (some value)
  else sTableValueset table (toUnsigned s) (toUnsigned xy) (some value)

/-- At most `n` more rounds of the loop of `s_table_valuesetxs_ex`. -/
def valuesLoop (xy : ℤ) (separ : UInt8) (type : Bool) :
    ℕ → STable → ℤ → Bytes → ℕ → Option (ℕ × STable)
  | 0, table, _, _, sum => some (sum,table)
  | n+1, table, s, values, sum => do
    let v ← sTableValuesGet values separ
    let r ← valuesSet table xy s type v.1
    if r.1 = 0 then some (sum,r.2)
    else
      match v.2 with
      | none => some (sum + r.1,r.2)
      | some rest => valuesLoop xy separ type n r.2 (s + 1) rest (sum + r.1)

def sTableValuesetxsEx (table : STable) (xy s : ℤ) (values : CString) (separ : UInt8) (type : Bool) :
    Option (ℕ × STable) :=
  let wide := if type then table.tableY else table.tableX
  valuesLoop xy separ type (wide - s).toNat table s values.bytes 0

def sTableValuesetxs (table : STable) (x s : ℤ) (values : CString) (separ : UInt8) :
    Option (ℕ × STable) := sTableValuesetxsEx table x s values separ false

def sTableValuesetys (table : STable) (y s : ℤ) (values : CString) (separ : UInt8) :
    Option (ℕ × STable) := sTableValuesetxsEx table y s values separ true

def sTableStringGet (table : STable) : Option CString :=
  table.data.map fun p => CString.ofMem (table.text.drop p)

inductive Call
  | valueset (x y : ℕ) (value : Option CString)
  | valuesetxs (x s : ℤ) (values : CString) (separ : UInt8)
  | valuesetys (y s : ℤ) (values : CString) (separ : UInt8)

def Call.run (table : STable) : Call → Option (ℕ × STable)
  | .valueset x y value => sTableValueset table x y value
  | .valuesetxs x s values separ => sTableValuesetxs table x s values separ
  | .valuesetys y s values separ => sTableValuesetys table y s values separ

def runCalls (table : STable) (calls : List Call) : Option STable :=
  calls.foldlM (fun table call => (call.run table).map Prod.snd) table

end StringTable
end WddProc
