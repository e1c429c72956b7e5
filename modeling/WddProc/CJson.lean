import WddProc.Platform

/-!
# cJSON trees and their text

A node keeps the fields of `struct cJSON`; the sibling chain of its children is
a list. Printing follows `print_value`, which fails on no well-typed tree.
-/

namespace WddProc

/-- `cJSON_False` to `cJSON_Object`. -/
inductive CJsonType
  | false | true | null | number | string | array | object
  deriving DecidableEq, Repr

inductive CJson
  | mk (type : CJsonType) (valuestring : Option CString) (valueint : ℤ) (valuedouble : F64)
      (string : Option CString) (child : List CJson)

namespace CJson

def type : CJson → CJsonType
  | .mk ty _ _ _ _ _ => ty
def valuestring : CJson → Option CString
  | .mk _ vs _ _ _ _ => vs
def valueint : CJson → ℤ
  | .mk _ _ vi _ _ _ => vi
def string : CJson → Option CString
  | .mk _ _ _ _ st _ => st
def child : CJson → List CJson
  | .mk _ _ _ _ _ ch => ch

def named (st : CString) : CJson → CJson
  | .mk ty vs vi vd _ ch => .mk ty vs vi vd (some st) ch

@[simp] theorem named_string (st : CString) (t : CJson) : (t.named st).string = some st := by
  cases t; rfl
@[simp] theorem named_child (st : CString) (t : CJson) : (t.named st).child = t.child := by
  cases t; rfl

def withChild (ch : List CJson) : CJson → CJson
  | .mk ty vs vi vd st _ => .mk ty vs vi vd st ch

@[simp] theorem withChild_child (ch : List CJson) (t : CJson) : (t.withChild ch).child = ch := by
  cases t; rfl
@[simp] theorem withChild_string (ch : List CJson) (t : CJson) :
    (t.withChild ch).string = t.string := by
  cases t; rfl
@[simp] theorem withChild_valuestring (ch : List CJson) (t : CJson) :
    (t.withChild ch).valuestring = t.valuestring := by
  cases t; rfl
@[simp] theorem withChild_type (ch : List CJson) (t : CJson) : (t.withChild ch).type = t.type := by
  cases t; rfl

def createString (s : CString) : CJson := .mk .string (some s) 0 0 none []
/-- `cJSON_CreateNumber` of a whole number; `num` is its `double`. -/
def createNumber (n : ℤ) (num : F64) : CJson := .mk .number none n num none []
def createArray : CJson := .mk .array none 0 0 none []
def createObject : CJson := .mk .object none 0 0 none []

def addItemToArray : CJson → CJson → CJson
  | .mk ty vs vi vd st ch, item => .mk ty vs vi vd st (ch ++ [item])

def addItemToObject (object : CJson) (string : CString) (item : CJson) : CJson :=
  object.addItemToArray (item.named string)

def addStringToObject (object : CJson) (name s : CString) : CJson :=
  object.addItemToObject name (createString s)

end CJson

def hexByte (d : UInt8) : UInt8 := if d < 10 then 48 + d else 87 + d

/-- One byte of a string value as `print_string_ptr` writes it. -/
def escapeByte (b : UInt8) : Bytes :=
  if 31 < b ∧ b ≠ 34 ∧ b ≠ 92 then [b]
  else
    92 :: (if b = 92 then [92]
      else if b = 34 then [34]
      else if b = 8 then [98]
      else if b = 12 then [102]
      else if b = 10 then [110]
      else if b = 13 then [114]
      else if b = 9 then [116]
      else [117,48,48,hexByte (b / 16),hexByte (b % 16)])

def escape (s : Bytes) : Bytes := s.flatMap escapeByte

/-- `print_string_ptr`: a NULL string prints as no text at all. -/
def printStringPtr : Option CString → Bytes
  | none => []
  | some s => 34 :: (escape s.bytes ++ [34])

namespace CJson

variable (p : Platform) (fmt : Bool)

def tabs (depth : ℕ) : Bytes := if fmt then List.replicate depth 9 else []
def newline : Bytes := if fmt then [10] else []

mutual

def printValue (depth : ℕ) : CJson → Bytes
  | .mk ty vs vi vd _ ch =>
    match ty with
    | .null => utf8 "null"
    | .false => utf8 "false"
    | .true => utf8 "true"
    | .number => (p.numberText vi vd).bytes
    | .string => printStringPtr vs
    | .array => 91 :: (printItems (depth + 1) ch ++ [93])
    | .object =>
      -- an empty object is indented by its own depth, any other by that of its parent
      if ch.isEmpty then 123 :: (newline fmt ++ tabs fmt (depth - 1) ++ [125])
      else 123 :: (newline fmt ++ printMembers (depth + 1) ch ++ tabs fmt depth ++ [125])

/-- The entries of `print_array`. -/
def printItems (depth : ℕ) : List CJson → Bytes
  | [] => []
  | t :: ts => printValue depth t ++ (if ts.isEmpty then [] else 44 :: (if fmt then [32] else [])) ++
      printItems depth ts

/-- The entries of `print_object`. -/
def printMembers (depth : ℕ) : List CJson → Bytes
  | [] => []
  | t :: ts => tabs fmt depth ++ printStringPtr t.string ++ 58 :: (if fmt then [9] else []) ++
      printValue depth t ++ (if ts.isEmpty then [] else [44]) ++ newline fmt ++ printMembers depth ts

end

/-- `cJSON_Print`. -/
def print (t : CJson) : Bytes := printValue p true 0 t

end CJson

theorem hexByte_ne_zero {d : UInt8} (h : d < 16) : hexByte d ≠ 0 := by
  have hall : ∀ n < 16, hexByte (UInt8.ofNat n) ≠ 0 := by decide
  simpa using hall d.toNat (by simpa using UInt8.lt_iff_toNat_lt.mp h)

theorem zero_notMem_escapeByte {b : UInt8} (hb : b ≠ 0) : 0 ∉ escapeByte b := by
  have hq : b / 16 < 16 := by
    rw [UInt8.lt_iff_toNat_lt,UInt8.toNat_div]
    have hlt := b.toNat_lt
    change b.toNat / 16 < 16
    omega
  have hr : b % 16 < 16 := by
    rw [UInt8.lt_iff_toNat_lt,UInt8.toNat_mod]
    exact Nat.mod_lt _ (by decide)
  unfold escapeByte
  split_ifs <;> simp [Ne.symm hb,(hexByte_ne_zero hq).symm,(hexByte_ne_zero hr).symm]

theorem zero_notMem_printStringPtr (s : Option CString) : 0 ∉ printStringPtr s := by
  cases s with
  | none => simp [printStringPtr]
  | some s =>
    simp only [printStringPtr,List.mem_cons,List.mem_append,escape,List.mem_flatMap,List.not_mem_nil,or_false]
    rintro (h | ⟨b,hb,h⟩ | h)
    · exact absurd h (by decide)
    · exact zero_notMem_escapeByte (fun h₀ => s.nulFree (h₀ ▸ hb)) h
    · exact absurd h (by decide)

namespace CJson

variable (p : Platform) (fmt : Bool)

theorem zero_notMem_tabs (depth : ℕ) : 0 ∉ tabs fmt depth := by
  cases fmt <;> simp [tabs]

theorem zero_notMem_newline : 0 ∉ newline fmt := by
  cases fmt <;> decide

mutual

theorem zero_notMem_printValue (depth : ℕ) (t : CJson) : 0 ∉ printValue p fmt depth t := by
  obtain ⟨ty,vs,vi,vd,st,ch⟩ := t
  cases ty with
  | null => exact (by decide : 0 ∉ utf8 "null")
  | false => exact (by decide : 0 ∉ utf8 "false")
  | true => exact (by decide : 0 ∉ utf8 "true")
  | number => exact (p.numberText vi vd).nulFree
  | string => exact zero_notMem_printStringPtr vs
  | array => simp [printValue,zero_notMem_printItems (depth + 1) ch]
  | object =>
    have h := zero_notMem_printMembers (depth + 1) ch
    simp only [printValue]
    split <;> simp [zero_notMem_tabs,zero_notMem_newline,h]

theorem zero_notMem_printItems (depth : ℕ) (ts : List CJson) : 0 ∉ printItems p fmt depth ts := by
  match ts with
  | [] => simp [printItems]
  | t :: ts =>
    have ht := zero_notMem_printValue depth t
    have hts := zero_notMem_printItems depth ts
    simp only [printItems,List.mem_append,ht,hts,or_false,false_or]
    cases fmt <;> cases ts <;> simp

theorem zero_notMem_printMembers (depth : ℕ) (ts : List CJson) : 0 ∉ printMembers p fmt depth ts := by
  match ts with
  | [] => simp [printMembers]
  | t :: ts =>
    have ht := zero_notMem_printValue depth t
    have hts := zero_notMem_printMembers depth ts
    simp only [printMembers,List.mem_append,List.mem_cons,ht,hts,zero_notMem_tabs,zero_notMem_newline,
      zero_notMem_printStringPtr,or_false,false_or]
    cases fmt <;> cases ts <;> simp

end
end CJson
end WddProc
