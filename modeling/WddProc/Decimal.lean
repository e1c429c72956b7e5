import WddProc.CString

/-!
# Decimal text

`decimal` is what `%d` prints and `readInt` reads it back up to the first byte
that is no digit.
-/

namespace WddProc

def digitByte (d : ℕ) : UInt8 := UInt8.ofNat (48 + d)

def isDigit (b : UInt8) : Bool := 48 ≤ b && b ≤ 57

def natText (n : ℕ) : Bytes := (Nat.toDigits 10 n).map fun c => UInt8.ofNat c.toNat

/-- `%d`. -/
def decimal (z : ℤ) : Bytes := if z < 0 then 45 :: natText z.natAbs else natText z.natAbs

/-- `%0wd` of a value that is not negative. -/
def padded (w n : ℕ) : Bytes := List.replicate (w - (natText n).length) 48 ++ natText n

theorem digitChar_byte : ∀ d < 10, UInt8.ofNat (Nat.digitChar d).toNat = digitByte d := by decide

theorem isDigit_digitByte : ∀ d < 10, isDigit (digitByte d) = true := by decide

theorem digitByte_value : ∀ d < 10, (digitByte d).toNat - 48 = d := by decide

theorem natText_lt {n : ℕ} (h : n < 10) : natText n = [digitByte n] := by
  simp [natText,Nat.toDigits_of_lt_base h,digitChar_byte n h]

theorem natText_ge {n : ℕ} (h : 10 ≤ n) :
    natText n = natText (n / 10) ++ [digitByte (n % 10)] := by
  simp [natText,Nat.toDigits_of_base_le (by decide) h,digitChar_byte (n % 10) (by omega)]

theorem natText_ne_nil (n : ℕ) : natText n ≠ [] := by
  simp [natText,Nat.toDigits_ne_nil]

theorem natText_length_le_iff {n k : ℕ} (hk : 0 < k) : (natText n).length ≤ k ↔ n < 10^k := by
  simpa [natText] using Nat.length_toDigits_le_iff (b := 10) (by decide) hk

theorem natText_isDigit (n : ℕ) : ∀ b ∈ natText n, isDigit b = true := by
  induction n using Nat.strong_induction_on with
  | _ n ih =>
    intro b hb
    rcases Nat.lt_or_ge n 10 with h | h
    · rw [natText_lt h,List.mem_singleton] at hb
      rw [hb]
      exact isDigit_digitByte n h
    · rw [natText_ge h,List.mem_append,List.mem_singleton] at hb
      rcases hb with hb | hb
      · exact ih (n / 10) (by omega) b hb
      · rw [hb]
        exact isDigit_digitByte _ (by omega)

theorem natText_head {n : ℕ} (h : n ≠ 0) : (natText n).head? ≠ some 48 := by
  induction n using Nat.strong_induction_on with
  | _ n ih =>
    rcases Nat.lt_or_ge n 10 with h10 | h10
    · rw [natText_lt h10]
      interval_cases n <;> simp_all [digitByte]
    · rw [natText_ge h10,List.head?_append_of_ne_nil _ (natText_ne_nil _)]
      exact ih (n / 10) (by omega) (by omega)

theorem decimal_mem {z : ℤ} {b : UInt8} (hb : b ∈ decimal z) : b = 45 ∨ isDigit b = true := by
  unfold decimal at hb
  split at hb
  · rcases List.mem_cons.mp hb with hb | hb
    · exact Or.inl hb
    · exact Or.inr (natText_isDigit _ b hb)
  · exact Or.inr (natText_isDigit _ b hb)

theorem zero_notMem_decimal (z : ℤ) : 0 ∉ decimal z := by
  intro h
  rcases decimal_mem h with h | h <;> simp [isDigit] at h

theorem zero_notMem_natText (n : ℕ) : 0 ∉ natText n := by
  intro h
  simpa [isDigit] using natText_isDigit n 0 h

theorem decimal_length {i : ℕ} (hi : i < 10^5) : (decimal i).length ≤ 5 := by
  have h := (natText_length_le_iff (n := i) (k := 5) (by decide)).mpr hi
  rwa [decimal,if_neg (by omega)]

theorem padded_length {w n : ℕ} (hw : 0 < w) (h : n < 10^w) : (padded w n).length = w := by
  have hl := (natText_length_le_iff hw).mpr h
  simp [padded]
  omega

theorem padded_length_le {w k n : ℕ} (hw : 0 < k) (hk : w ≤ k) (h : n < 10^k) :
    (padded w n).length ≤ k := by
  have hl := (natText_length_le_iff hw).mpr h
  simp [padded]
  omega

theorem zero_notMem_padded (w n : ℕ) : 0 ∉ padded w n := by
  simp [padded,zero_notMem_natText]

def readDigits : ℕ → Bytes → ℕ × Bytes
  | acc, [] => (acc,[])
  | acc, b :: m => if isDigit b then readDigits (acc * 10 + (b.toNat - 48)) m else (acc,b :: m)

/-- The next byte, if any, continues no number. -/
def NoDigitAhead (m : Bytes) : Prop := ∀ b ∈ m.head?, isDigit b = false

theorem noDigitAhead_cons {b : UInt8} (h : isDigit b = false) (m : Bytes) : NoDigitAhead (b :: m) := by
  simpa [NoDigitAhead] using h

theorem readDigits_digits (ds : Bytes) (hd : ∀ b ∈ ds, isDigit b = true) (acc : ℕ) (m : Bytes) :
    readDigits acc (ds ++ m) = readDigits (ds.foldl (fun a b => a * 10 + (b.toNat - 48)) acc) m := by
  induction ds generalizing acc with
  | nil => rfl
  | cons b ds ih =>
    have hb := hd b (by simp)
    simp only [List.cons_append,readDigits,hb,if_true,List.foldl_cons]
    exact ih (fun c hc => hd c (by simp [hc])) _

theorem natText_value (n acc : ℕ) :
    (natText n).foldl (fun a b => a * 10 + (b.toNat - 48)) acc =
      acc * 10^(natText n).length + n := by
  induction n using Nat.strong_induction_on generalizing acc with
  | _ n ih =>
    rcases Nat.lt_or_ge n 10 with h | h
    · simp [natText_lt h,digitByte_value n h]
    · rw [natText_ge h,List.foldl_append,ih (n / 10) (by omega)]
      simp only [List.foldl_cons,List.foldl_nil,digitByte_value (n % 10) (by omega),
        List.length_append,List.length_singleton,pow_succ]
      have hn := Nat.div_add_mod n 10
      nlinarith

theorem readDigits_natText (n : ℕ) {m : Bytes} (hm : NoDigitAhead m) :
    readDigits 0 (natText n ++ m) = (n,m) := by
  rw [readDigits_digits _ (natText_isDigit n),natText_value]
  cases m with
  | nil => simp [readDigits]
  | cons b m => simp [readDigits,show isDigit b = false from hm b rfl]

/-- Read an optional minus sign and at least one digit. -/
def readInt : Bytes → Option (ℤ × Bytes)
  | [] => none
  | b :: m =>
    if b = 45 then
      match m with
      | [] => none
      | c :: m => if isDigit c then some (-(readDigits 0 (c :: m)).1,(readDigits 0 (c :: m)).2) else none
    else if isDigit b then some ((readDigits 0 (b :: m)).1,(readDigits 0 (b :: m)).2) else none

/-- The reader undoes `%d`. -/
theorem readInt_decimal (z : ℤ) {m : Bytes} (hm : NoDigitAhead m) :
    readInt (decimal z ++ m) = some (z,m) := by
  have hh := readDigits_natText z.natAbs hm
  obtain ⟨c,cs,hc⟩ := List.exists_cons_of_ne_nil (natText_ne_nil z.natAbs)
  have hd : isDigit c = true := natText_isDigit z.natAbs c (by simp [hc])
  have h45 : c ≠ 45 := by rintro rfl; simp [isDigit] at hd
  rw [hc,List.cons_append] at hh
  unfold decimal
  split
  · rw [hc]
    simp only [List.cons_append,readInt,if_true,hd,hh]
    simp only [Option.some.injEq,Prod.mk.injEq,and_true]
    omega
  · rw [hc]
    simp only [List.cons_append,readInt,if_neg h45,if_pos hd,hh]
    simp only [Option.some.injEq,Prod.mk.injEq,and_true]
    omega

example : decimal (-25) = utf8 "-25" := by decide

end WddProc
