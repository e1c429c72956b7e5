import WddProc.Decimal

/-!
# What the sources take from the platform

The signedness of `char` and the binary floating point of the target are
parameters; a `float` is its bit pattern with the comparison of IEEE 754.
-/

namespace WddProc

/-- The bit pattern of a `float`. -/
structure F32 where
  bits : UInt32
  deriving DecidableEq, Repr

namespace F32

def zero : F32 := ⟨0⟩
def negOne : F32 := ⟨0xBF800000⟩

def isNaN (v : F32) : Bool := v.bits &&& 0x7F800000 == 0x7F800000 && v.bits &&& 0x007FFFFF != 0
def isZero (v : F32) : Bool := v.bits &&& 0x7FFFFFFF == 0

/-- `==` on `float`: NaN equals nothing and both zeros are equal. -/
def feq (v w : F32) : Bool := !v.isNaN && !w.isNaN && (v == w || v.isZero && w.isZero)

end F32

/-- The bit pattern of a `double`. -/
abbrev F64 := UInt64

/-- The parts of a number literal as they are written. -/
structure Literal where
  neg : Bool
  whole : List ℕ
  frac : List ℕ
  subscale : ℤ
  deriving DecidableEq

/-- Implementation-defined and floating-point behaviour. -/
structure Platform where
  charSigned : Bool
  ofInt : ℤ → F32
  fadd : F32 → F32 → F32
  fsub : F32 → F32 → F32
  fmul : F32 → F32 → F32
  fdiv : F32 → F32 → F32
  /-- `%.1f`. -/
  printf1f : F32 → CString
  printf1f_length : ∀ v, (printf1f v).bytes.length ≤ 42
  /-- The `double` that `parse_number` computes for a literal, whatever becomes of an exponent
  that its `int` cannot hold. -/
  toDouble : Literal → F64
  /-- `(long long int) n`. -/
  toLongLong : F64 → ℤ
  /-- The text that `print_number` picks for an item. -/
  numberText : ℤ → F64 → CString

def Platform.charInt (p : Platform) (b : UInt8) : ℤ :=
  if p.charSigned ∧ 128 ≤ b then (b.toNat : ℤ) - 256 else b.toNat

theorem Platform.charInt_mod (p : Platform) (b : UInt8) : (p.charInt b % 256).toNat = b.toNat := by
  have hb := b.toNat_lt
  unfold charInt
  split <;> omega

/-- A platform with signed `char` that prints the readings 0 and -1 as the real one does. -/
def Platform.sample : Platform where
  charSigned := true
  ofInt _ := .zero
  fadd _ _ := .zero
  fsub _ _ := .zero
  fmul _ _ := .zero
  fdiv _ _ := .zero
  printf1f v := if v = .negOne then CString.lit "-1.0" else CString.lit "0.0"
  printf1f_length v := by split <;> decide
  toDouble _ := 0
  toLongLong _ := 0
  numberText n _ := ⟨decimal n,zero_notMem_decimal n⟩

/-- Wrap to a signed 32-bit `int`. -/
def toInt32 (z : ℤ) : ℤ := Int.bmod z (2^32)

theorem toInt32_of_fits {v : ℤ} (h : -2^31 ≤ v ∧ v < 2^31) : toInt32 v = v := by
  unfold toInt32
  rw [Int.bmod_eq_of_le]
  · omega
  · omega

theorem toInt32_small {n : ℕ} (h : n < 2^31) : toInt32 (n : ℤ) = n := toInt32_of_fits (by omega)

end WddProc
