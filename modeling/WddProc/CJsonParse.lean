import WddProc.CJson

/-!
# The cJSON parser

Every function reads a memory block from its pointer on. It returns a value with
the block at the new pointer, or NULL, or it reads or writes outside a block.
Recursion is bounded by fuel; `cJSONParse` supplies more than any text can use.
-/

namespace WddProc

/-- The result of a C function that walks over memory. -/
inductive Outcome (α : Type)
  | done (a : α)
  | null
  | fault
  deriving DecidableEq

namespace Outcome

variable {α β : Type}

protected def bind : Outcome α → (α → Outcome β) → Outcome β
  | .done a, f => f a
  | .null, _ => .null
  | .fault, _ => .fault

instance : Monad Outcome where
  pure := .done
  bind := Outcome.bind

@[simp] theorem done_bind (a : α) (f : α → Outcome β) : (Outcome.done a >>= f) = f a := rfl
@[simp] theorem null_bind (f : α → Outcome β) : ((Outcome.null : Outcome α) >>= f) = .null := rfl
@[simp] theorem fault_bind (f : α → Outcome β) : ((Outcome.fault : Outcome α) >>= f) = .fault := rfl
@[simp] theorem pure_eq (a : α) : (pure a : Outcome α) = .done a := rfl

end Outcome

namespace Parse

/-- Jump whitespace and control characters, but not the NUL. -/
def skip : Bytes → Outcome Bytes
  | [] => .fault
  | b :: m => if b ≠ 0 ∧ b ≤ 32 then skip m else .done (b :: m)

def startsWith : Bytes → Bytes → Outcome Bool
  | [], _ => .done true
  | _ :: _, [] => .fault
  | l :: ls, b :: m => if b = l then startsWith ls m else .done false

def hexVal (b : UInt8) : Option ℕ :=
  if 48 ≤ b ∧ b ≤ 57 then some (b.toNat - 48)
  else if 65 ≤ b ∧ b ≤ 70 then some (b.toNat - 55)
  else if 97 ≤ b ∧ b ≤ 102 then some (b.toNat - 87)
  else none

/-- `parse_hex4` with the digits still to read and the value so far. -/
def parseHex : ℕ → ℕ → Bytes → Outcome ℕ
  | 0, h, _ => .done h
  | _+1, _, [] => .fault
  | n+1, h, b :: m =>
    match hexVal b with
    | none => .done 0
    | some d => parseHex n (h * 16 + d) m

def contByte (uc : ℕ) : UInt8 := UInt8.ofNat ((uc ||| 0x80) &&& 0xBF)

/-- The UTF-8 bytes that `parse_string` stores for a code point. -/
def encodeUtf8 (uc : ℕ) : Bytes :=
  if uc < 0x80 then [UInt8.ofNat uc]
  else if uc < 0x800 then [UInt8.ofNat (uc >>> 6 ||| 0xC0),contByte uc]
  else if uc < 0x10000 then [UInt8.ofNat (uc >>> 12 ||| 0xE0),contByte (uc >>> 6),contByte uc]
  else [UInt8.ofNat (uc >>> 18 ||| 0xF0),contByte (uc >>> 12),contByte (uc >>> 6),contByte uc]

/-- The `\u` case of `parse_string`, from the byte after the `u`: the bytes stored
and the place where reading goes on, which may lie beyond the end of the text. -/
def unescapeUnicode (m : Bytes) : Outcome (Bytes × Bytes) := do
  let uc ← parseHex 4 0 m
  if 0xDC00 ≤ uc ∧ uc ≤ 0xDFFF ∨ uc = 0 then .done ([],m.drop 4)
  else if 0xD800 ≤ uc ∧ uc ≤ 0xDBFF then
    match m.drop 4 with
    | [] => .fault
    | b :: m₁ =>
      if b ≠ 92 then .done ([],m.drop 4)
      else match m₁ with
        | [] => .fault
        | c :: m₂ =>
          if c ≠ 117 then .done ([],m.drop 4)
          else do
            let uc₂ ← parseHex 4 0 m₂
            if uc₂ < 0xDC00 ∨ 0xDFFF < uc₂ then .done ([],m.drop 10)
            else .done (encodeUtf8 (0x10000 + ((uc &&& 0x3FF) <<< 10 ||| (uc₂ &&& 0x3FF))),m.drop 10)
  else .done (encodeUtf8 uc,m.drop 4)

/-- The first pass of `parse_string`: how many bytes it allocates. The code counts them in an
`int`, which holds the count of every text below 2^31 bytes. -/
def scanLen : Bytes → Outcome ℕ
  | [] => .fault
  | b :: m =>
    if b = 34 ∨ b = 0 then .done 0
    else if b = 92 then
      match m with
      | [] => .fault
      | _ :: m => do let n ← scanLen m; .done (n + 1)
    else do let n ← scanLen m; .done (n + 1)

/-- The second pass of `parse_string`: the bytes stored and the block at the
closing quote or the NUL. Every round reads a byte, which bounds the fuel. -/
def unescape : ℕ → Bytes → Outcome (Bytes × Bytes)
  | 0, _ => .fault
  | _+1, [] => .fault
  | f+1, b :: m =>
    if b = 34 ∨ b = 0 then .done ([],b :: m)
    else if b ≠ 92 then do
      let r ← unescape f m
      .done (b :: r.1,r.2)
    else match m with
      | [] => .fault
      | e :: m =>
        if e = 117 then do
          let u ← unescapeUnicode m
          let r ← unescape f u.2
          .done (u.1 ++ r.1,r.2)
        else do
          let r ← unescape f m
          .done ((if e = 98 then 8 else if e = 102 then 12 else if e = 110 then 10
            else if e = 114 then 13 else if e = 116 then 9 else e) :: r.1,r.2)

/-- `parse_string`. A text whose decoded form outgrows the first pass is written
past the end of its allocation. -/
def parseString : Bytes → Outcome (CString × Bytes)
  | [] => .fault
  | b :: m =>
    if b ≠ 34 then .null
    else do
      let len ← scanLen m
      let r ← unescape (m.length + 1) m
      if len < r.1.length then .fault
      else match r.2 with
        | [] => .fault
        | q :: m => .done (CString.ofMem r.1,if q = 34 then m else q :: m)

def digits : Bytes → Outcome (List ℕ × Bytes)
  | [] => .fault
  | b :: m =>
    if isDigit b then do
      let r ← digits m
      .done ((b.toNat - 48) :: r.1,r.2)
    else .done ([],b :: m)

def fraction : Bytes → Outcome (List ℕ × Bytes)
  | [] => .fault
  | b :: m =>
    if b = 46 then
      match m with
      | [] => .fault
      | d :: _ => if isDigit d then digits m else .done ([],b :: m)
    else .done ([],b :: m)

/-- The optional exponent of `parse_number`, as it is written. The code adds it up in an `int`; what
it makes of one that overflows is left to `Platform.toDouble`. -/
def exponent : Bytes → Outcome (ℤ × Bytes)
  | [] => .fault
  | b :: m =>
    if b = 101 ∨ b = 69 then
      match m with
      | [] => .fault
      | s :: m' => do
        let r ← digits (if s = 43 ∨ s = 45 then m' else m)
        .done ((if s = 45 then -1 else 1) * (r.1.foldl (fun a d => a * 10 + d) 0 : ℕ),r.2)
    else .done (0,b :: m)

variable (p : Platform)

def numberItem (l : Literal) : CJson :=
  .mk .number none (p.toLongLong (p.toDouble l)) (p.toDouble l) none []

def wholePart : Bytes → Outcome (List ℕ × Bytes)
  | [] => .fault
  | b :: m =>
    match (if b = 48 then m else b :: m) with
    | [] => .fault
    | c :: m => if 49 ≤ c ∧ c ≤ 57 then digits (c :: m) else .done ([],c :: m)

def parseNumber : Bytes → Outcome (CJson × Bytes)
  | [] => .fault
  | b :: m => do
    let w ← wholePart (if b = 45 then m else b :: m)
    let fr ← fraction w.2
    let ex ← exponent fr.2
    .done (numberItem p ⟨b == 45,w.1,fr.1,ex.1⟩,ex.2)

mutual

def parseValue : ℕ → Bytes → Outcome (CJson × Bytes)
  | 0, _ => .fault
  | f+1, m => do
    if ← startsWith (utf8 "null") m then .done (.mk .null none 0 0 none [],m.drop 4)
    else if ← startsWith (utf8 "false") m then .done (.mk .false none 0 0 none [],m.drop 5)
    else if ← startsWith (utf8 "true") m then .done (.mk .true none 1 0 none [],m.drop 4)
    else match m with
      | [] => .fault
      | b :: _ =>
        if b = 34 then do
          let r ← parseString m
          .done (.mk .string (some r.1) 0 0 none [],r.2)
        else if b = 45 ∨ isDigit b then parseNumber p m
        else if b = 91 then parseArray f m
        else if b = 123 then parseObject f m
        else .null

def parseArray : ℕ → Bytes → Outcome (CJson × Bytes)
  | 0, _ => .fault
  | _+1, [] => .fault
  | f+1, b :: m =>
    if b ≠ 91 then .null
    else do
      match ← skip m with
      | [] => .fault
      | c :: m =>
        if c = 93 then .done (.mk .array none 0 0 none [],m)
        else do
          let r ← parseValue f (← skip (c :: m))
          let rs ← parseItems f (← skip r.2)
          .done (.mk .array none 0 0 none (r.1 :: rs.1),rs.2)

/-- The loop of `parse_array` over the entries after the first. -/
def parseItems : ℕ → Bytes → Outcome (List CJson × Bytes)
  | 0, _ => .fault
  | _+1, [] => .fault
  | f+1, b :: m =>
    if b = 44 then do
      let r ← parseValue f (← skip m)
      let rs ← parseItems f (← skip r.2)
      .done (r.1 :: rs.1,rs.2)
    else if b = 93 then .done ([],m)
    else .null

def parseObject : ℕ → Bytes → Outcome (CJson × Bytes)
  | 0, _ => .fault
  | _+1, [] => .fault
  | f+1, b :: m =>
    if b ≠ 123 then .null
    else do
      match ← skip m with
      | [] => .fault
      | c :: m =>
        if c = 125 then .done (.mk .object none 0 0 none [],m)
        else do
          let r ← parseMember f (c :: m)
          let rs ← parseMembers f (← skip r.2)
          .done (.mk .object none 0 0 none (r.1 :: rs.1),rs.2)

/-- One `name : value` entry of `parse_object`. -/
def parseMember : ℕ → Bytes → Outcome (CJson × Bytes)
  | 0, _ => .fault
  | f+1, m => do
    let s ← parseString (← skip m)
    match ← skip s.2 with
    | [] => .fault
    | b :: m =>
      if b ≠ 58 then .null
      else do
        let r ← parseValue f (← skip m)
        .done (r.1.named s.1,r.2)

/-- The loop of `parse_object` over the entries after the first. -/
def parseMembers : ℕ → Bytes → Outcome (List CJson × Bytes)
  | 0, _ => .fault
  | _+1, [] => .fault
  | f+1, b :: m =>
    if b = 44 then do
      let r ← parseMember f m
      let rs ← parseMembers f (← skip r.2)
      .done (r.1 :: rs.1,rs.2)
    else if b = 125 then .done ([],m)
    else .null

end

/-- `cJSON_Parse` on the block at `value`; a failed parse yields NULL. -/
def cJSONParse (m : Bytes) : Outcome CJson := do
  let r ← parseValue p (3 * m.length + 3) (← skip m)
  .done r.1

end Parse
end WddProc
