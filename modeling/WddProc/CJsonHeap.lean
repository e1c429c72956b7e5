import WddProc.OwnedHeap
import WddProc.DataDef
import WddProc.CJson

/-!
# cJSON items on the heap

The functions of `cJSON.c` that link, unlink and free items, over nodes with the
pointers of `struct cJSON`. Loops over a chain of siblings are bounded by fuel.
-/

namespace WddProc
namespace CJsonHeap

open OwnedHeap

abbrev Addr := ℕ
abbrev Ptr := Option Addr

/-- `struct cJSON`, with the flag `cJSON_IsReference` of its type apart. -/
structure Node where
  next : Ptr
  prev : Ptr
  child : Ptr
  type : CJsonType
  isReference : Bool
  valuestring : Ptr
  valueint : ℤ
  valuedouble : F64
  string : Ptr

def Node.zero : Node := ⟨none,none,none,.false,false,none,0,0,none⟩

/-- A node, a string, a table of at most `size` pointers with those written so far, or bytes. -/
inductive Block
  | node (n : Node)
  | text (s : CString)
  | pointers (size : ℕ) (ps : List Ptr)
  | buffer (m : Bytes)

abbrev Prog := OwnedHeap.Prog Addr Block
abbrev Cells := OwnedHeap.Cells Addr Block

def readNode : Ptr → Prog Node
  | none => Prog.fault
  | some a => do
    match ← Prog.load a with
    | .node n => pure n
    | _ => Prog.fault

def modifyNode (p : Ptr) (f : Node → Node) : Prog Unit :=
  match p with
  | none => Prog.fault
  | some a => do
    let n ← readNode (some a)
    Prog.store a (.node (f n))

/-- A `const char *` argument: text that is not in a block of the heap, or a block. -/
inductive CharPtr
  | outside (s : CString)
  | block (a : Addr)

def readString : CharPtr → Prog CString
  | .outside s => pure s
  | .block a => do
    match ← Prog.load a with
    | .text s => pure s
    | _ => Prog.fault

def freeIf : Ptr → Prog Unit
  | none => pure ()
  | some a => Prog.free a

def INT_MAX : ℕ := 2^31 - 1

/-- An `int` that is not negative; there is no value when the computation overflows. -/
def intOf (n : ℕ) : Prog ℕ := if n ≤ INT_MAX then pure n else Prog.fault

variable (al : Allocator Addr Block) (fuel : ℕ)

def strdup (str : CharPtr) : Prog Ptr := do
  let s ← readString str
  Prog.malloc al (.text s)

def newItem : Prog Ptr := Prog.malloc al (.node Node.zero)

/-- `cJSON_Delete`. -/
def delete : ℕ → Ptr → Prog Unit
  | 0, _ => Prog.fault
  | _+1, none => pure ()
  | f+1, some c => do
    let n ← readNode (some c)
    Prog.when (!n.isReference && n.child.isSome) (delete f n.child)
    let m ← readNode (some c)
    Prog.when (!m.isReference) (freeIf m.valuestring)
    freeIf m.string
    Prog.free c
    delete f n.next

/-- The loop of `cJSON_GetArraySize`. -/
def countItems : ℕ → Ptr → Prog ℕ
  | 0, _ => Prog.fault
  | _+1, none => pure 0
  | f+1, some c => do
    let n ← readNode (some c)
    let i ← countItems f n.next
    pure (i + 1)

def getArraySize (array : Ptr) : Prog ℕ := do
  let a ← readNode array
  let i ← countItems fuel a.child
  intOf i

/-- `while (c && which > 0) c = c->next, which--`. -/
def walk : ℕ → Ptr → ℤ → Prog Ptr
  | 0, _, _ => Prog.fault
  | _+1, none, _ => pure none
  | f+1, some c, which =>
    if 0 < which then do
      let n ← readNode (some c)
      walk f n.next (which - 1)
    else pure (some c)

def getArrayItem (array : Ptr) (item : ℤ) : Prog Ptr := do
  let a ← readNode array
  walk fuel a.child item

def sameName (name : Ptr) (string : CharPtr) : Prog Bool :=
  match name with
  | none => pure false
  | some a => do
    let s ← readString (.block a)
    let t ← readString string
    pure (strcaseEq s.bytes t.bytes)

/-- `while (c && cJSON_strcasecmp(c->string, string)) i++, c = c->next`. -/
def find (string : CharPtr) : ℕ → Ptr → ℕ → Prog (Ptr × ℕ)
  | 0, _, _ => Prog.fault
  | _+1, none, i => pure (none,i)
  | f+1, some c, i => do
    let n ← readNode (some c)
    if ← sameName n.string string then pure (some c,i)
    else find string f n.next (i + 1)

/-- The same loop with its count in an `int`. -/
def findIndex (string : CharPtr) (c : Ptr) : Prog (Ptr × ℕ) := do
  let r ← find string fuel c 0
  let i ← intOf r.2
  pure (r.1,i)

def getObjectItem (object : Ptr) (string : CharPtr) : Prog Ptr := do
  let o ← readNode object
  let r ← find string fuel o.child 0
  pure r.1

def suffixObject (prev item : Ptr) : Prog Unit := do
  modifyNode prev fun n => { n with next := item }
  modifyNode item fun n => { n with prev := prev }

def createReference (item : Ptr) : Prog Ptr := do
  match ← newItem al with
  | none => pure none
  | some ref =>
    let n ← readNode item
    modifyNode (some ref) fun _ =>
      { n with string := none, isReference := true, next := none, prev := none }
    pure (some ref)

/-- `while (c && c->next) c = c->next` from an item on. -/
def lastItem : ℕ → Addr → Prog Addr
  | 0, _ => Prog.fault
  | f+1, c => do
    let n ← readNode (some c)
    match n.next with
    | none => pure c
    | some d => lastItem f d

def addItemToArray (array item : Ptr) : Prog Unit := do
  let a ← readNode array
  match item with
  | none => pure ()
  | some i =>
    match a.child with
    | none => modifyNode array fun n => { n with child := some i }
    | some c => do
      let last ← lastItem fuel c
      suffixObject (some last) (some i)

def addItemToObject (object : Ptr) (string : CharPtr) (item : Ptr) : Prog Unit :=
  match item with
  | none => pure ()
  | some i => do
    let n ← readNode (some i)
    freeIf n.string
    let name ← strdup al string
    modifyNode (some i) fun n => { n with string := name }
    addItemToArray fuel object (some i)

def addItemReferenceToArray (array item : Ptr) : Prog Unit := do
  let ref ← createReference al item
  addItemToArray fuel array ref

def addItemReferenceToObject (object : Ptr) (string : CharPtr) (item : Ptr) : Prog Unit := do
  let ref ← createReference al item
  addItemToObject al fuel object string ref

def setNext (p q : Ptr) : Prog Unit :=
  Prog.when p.isSome (modifyNode p fun n => { n with next := q })

def setPrev (p q : Ptr) : Prog Unit :=
  Prog.when p.isSome (modifyNode p fun n => { n with prev := q })

def detachItemFromArray (array : Ptr) (which : ℤ) : Prog Ptr := do
  let a ← readNode array
  match ← walk fuel a.child which with
  | none => pure none
  | some c =>
    let n ← readNode (some c)
    setNext n.prev n.next
    setPrev n.next n.prev
    let a ← readNode array
    Prog.when (a.child = some c) (modifyNode array fun m => { m with child := n.next })
    modifyNode (some c) fun m => { m with prev := none, next := none }
    pure (some c)

def deleteItemFromArray (array : Ptr) (which : ℤ) : Prog Unit := do
  let c ← detachItemFromArray fuel array which
  delete fuel c

def detachItemFromObject (object : Ptr) (string : CharPtr) : Prog Ptr := do
  let o ← readNode object
  let r ← findIndex fuel string o.child
  if r.1.isSome then detachItemFromArray fuel object r.2 else pure none

def deleteItemFromObject (object : Ptr) (string : CharPtr) : Prog Unit := do
  let c ← detachItemFromObject fuel object string
  delete fuel c

def replaceItemInArray (array : Ptr) (which : ℤ) (newitem : Ptr) : Prog Unit := do
  let a ← readNode array
  match ← walk fuel a.child which with
  | none => pure ()
  | some c =>
    let n ← readNode (some c)
    modifyNode newitem fun m => { m with next := n.next, prev := n.prev }
    setPrev n.next newitem
    let a ← readNode array
    (if a.child = some c then modifyNode array fun m => { m with child := newitem }
    else modifyNode n.prev fun m => { m with next := newitem })
    modifyNode (some c) fun m => { m with next := none, prev := none }
    delete fuel (some c)

/-- The name that `newitem` had before is not freed. -/
def replaceItemInObject (object : Ptr) (string : CharPtr) (newitem : Ptr) : Prog Unit := do
  let o ← readNode object
  let r ← findIndex fuel string o.child
  Prog.when r.1.isSome do
    let name ← strdup al string
    modifyNode newitem fun m => { m with string := name }
    replaceItemInArray fuel object r.2 newitem

/-- The `cJSON_Create` functions: a new item whose fields are set if there is one. -/
def create (f : Node → Node) : Prog Ptr := do
  match ← newItem al with
  | none => pure none
  | some item =>
    modifyNode (some item) f
    pure (some item)

def createNull : Prog Ptr := create al fun n => { n with type := .null }
def createTrue : Prog Ptr := create al fun n => { n with type := .true }
def createFalse : Prog Ptr := create al fun n => { n with type := .false }
def createBool (b : Bool) : Prog Ptr := create al fun n => { n with type := if b then .true else .false }
/-- `cJSON_CreateNumber`; `valueint` is the value that the cast to `int` yields. -/
def createNumber (valueint : ℤ) (num : F64) : Prog Ptr :=
  create al fun n => { n with type := .number, valuedouble := num, valueint := valueint }
def createArray : Prog Ptr := create al fun n => { n with type := .array }
def createObject : Prog Ptr := create al fun n => { n with type := .object }

def createString (string : CharPtr) : Prog Ptr := do
  match ← newItem al with
  | none => pure none
  | some item =>
    modifyNode (some item) fun n => { n with type := .string }
    let s ← strdup al string
    modifyNode (some item) fun n => { n with valuestring := s }
    pure (some item)

/-- The loop of the `cJSON_Create…Array` functions from entry `i` on; `p` is the entry before. -/
def createEntries (a : Ptr) : ℕ → Ptr → List (Prog Ptr) → Prog Unit
  | _, _, [] => pure ()
  | i, p, create :: entries => do
    let n ← create
    (if i = 0 then modifyNode a fun m => { m with child := n } else suffixObject p n)
    createEntries a (i + 1) n entries

/-- The common body of the `cJSON_Create…Array` functions. -/
def createArrayOf (entries : List (Prog Ptr)) : Prog Ptr := do
  let a ← createArray al
  Prog.when a.isSome (createEntries a 0 none entries)
  pure a

def createIntArray (numbers : List (ℤ × F64)) : Prog Ptr :=
  createArrayOf al (numbers.map fun n => createNumber al n.1 n.2)

def createStringArray (strings : List CharPtr) : Prog Ptr :=
  createArrayOf al (strings.map fun s => createString al s)

end CJsonHeap
end WddProc
