import Mathlib.Tactic
import Mathlib.Data.Bool.AllAny
import Mathlib.Data.List.TakeWhile

/-!
# C strings and bounded writes

A memory block is the list of its bytes. Reading a C string stops at the first
NUL; a write that would leave its block has no result.
-/

namespace WddProc

abbrev Bytes := List UInt8

/-- The bytes of a literal in the UTF-8 encoding of the sources. -/
def utf8 (s : String) : Bytes := s.toList.flatMap String.utf8EncodeChar

/-- The C string at the start of a block, without its NUL. -/
def cstr (m : Bytes) : Bytes := m.takeWhile (· != 0)

def strlen (m : Bytes) : ℕ := (cstr m).length

@[simp] theorem cstr_nil : cstr [] = [] := rfl

@[simp] theorem cstr_zero_cons (m : Bytes) : cstr (0 :: m) = [] := by simp [cstr]

theorem zero_notMem_cstr (m : Bytes) : 0 ∉ cstr m := by
  intro h
  simpa using List.mem_takeWhile_imp h

theorem cstr_append {s : Bytes} (hs : 0 ∉ s) (r : Bytes) : cstr (s ++ r) = s ++ cstr r := by
  apply List.takeWhile_append_of_pos
  intro b hb
  simpa using fun h : b = 0 => hs (h ▸ hb)

theorem cstr_append_nul {s : Bytes} (hs : 0 ∉ s) (r : Bytes) : cstr (s ++ 0 :: r) = s := by
  simp [cstr_append hs]

theorem cstr_of_nulFree {s : Bytes} (hs : 0 ∉ s) : cstr s = s := by
  simpa using cstr_append hs []

theorem cstr_append_nul_block (s r : Bytes) : cstr (s ++ 0 :: r) = cstr s := by
  induction s with
  | nil => simp
  | cons b s ih =>
    by_cases hb : b = 0
    · simp [hb]
    · simp_all [cstr]

theorem cstr_append_of_mem {m : Bytes} (hm : 0 ∈ m) (r : Bytes) : cstr (m ++ r) = cstr m := by
  induction m with
  | nil => simp at hm
  | cons b m ih =>
    by_cases hb : b = 0
    · simp [hb]
    · have hm' : 0 ∈ m := by simpa [Ne.symm hb] using hm
      have hh := ih hm'
      simp_all [cstr]

theorem cstr_take (n : ℕ) (m : Bytes) : cstr ((cstr m).take n) = (cstr m).take n :=
  cstr_of_nulFree fun h => zero_notMem_cstr m (List.mem_of_mem_take h)

theorem cstr_split (m : Bytes) : m = cstr m ∨ ∃ rest, m = cstr m ++ 0 :: rest := by
  have hsplit : cstr m ++ m.dropWhile (· != 0) = m := List.takeWhile_append_dropWhile
  cases hd : m.dropWhile (· != 0) with
  | nil =>
    rw [hd,List.append_nil] at hsplit
    exact Or.inl hsplit.symm
  | cons b rest =>
    have hb : b = 0 := by
      have hhead := List.head?_dropWhile_not (· != 0) m
      rw [hd] at hhead
      simpa using hhead
    rw [hd,hb] at hsplit
    exact Or.inr ⟨rest,hsplit.symm⟩

theorem cstr_eq_nil_iff (m : Bytes) : cstr m = [] ↔ m = [] ∨ m[0]? = some 0 := by
  cases m with
  | nil => simp
  | cons b m => simp [cstr,List.takeWhile_cons]

/-- Bytes before the terminating NUL of a C string. -/
structure CString where
  bytes : Bytes
  nulFree : 0 ∉ bytes
  deriving DecidableEq

namespace CString

def length (s : CString) : ℕ := s.bytes.length

@[ext] theorem ext {s t : CString} (h : s.bytes = t.bytes) : s = t := by
  cases s; cases t; simp_all

/-- The string that `%s` or `strlen` sees at the start of a block. -/
def ofMem (m : Bytes) : CString := ⟨cstr m,zero_notMem_cstr m⟩

@[simp] theorem ofMem_bytes (m : Bytes) : (ofMem m).bytes = cstr m := rfl

def lit (s : String) : CString := ofMem (utf8 s)

@[simp] theorem cstr_bytes (s : CString) : cstr s.bytes = s.bytes := cstr_of_nulFree s.nulFree

theorem ofMem_append_nul (s r : Bytes) : ofMem (s ++ 0 :: r) = ofMem s := by
  ext1
  rw [ofMem_bytes,ofMem_bytes,cstr_append_nul_block]

@[simp] theorem ofMem_self (s : CString) : ofMem s.bytes = s := by ext1; simp

def append (s t : CString) : CString := ⟨s.bytes ++ t.bytes,by simp [s.nulFree,t.nulFree]⟩

instance : Append CString := ⟨append⟩

@[simp] theorem append_bytes (s t : CString) : (s ++ t).bytes = s.bytes ++ t.bytes := rfl

end CString

/-- Store bytes at an offset of a block; `none` when they would not fit. -/
def poke (m : Bytes) (pos : ℕ) (bs : Bytes) : Option Bytes :=
  if pos + bs.length ≤ m.length then some (m.take pos ++ bs ++ m.drop (pos + bs.length)) else none

theorem poke_isSome_iff (m : Bytes) (pos : ℕ) (bs : Bytes) :
    (poke m pos bs).isSome ↔ pos + bs.length ≤ m.length := by
  unfold poke
  split <;> simp_all

theorem poke_append (a b bs : Bytes) :
    poke (a ++ b) a.length bs =
      if bs.length ≤ b.length then some (a ++ bs ++ b.drop bs.length) else none := by
  simp only [poke,List.length_append,Nat.add_le_add_iff_left]
  split <;> simp [List.drop_append]

/-- `sprintf` at an offset: the text and its NUL. -/
def sprintfAt (m : Bytes) (pos : ℕ) (s : Bytes) : Option Bytes := poke m pos (s ++ [0])

theorem sprintfAt_append (a r s : Bytes) :
    sprintfAt (a ++ 0 :: r) a.length s =
      if s.length ≤ r.length then some (a ++ s ++ 0 :: r.drop s.length) else none := by
  simp [sprintfAt,poke_append]

theorem sprintfAt_zero {m s : Bytes} (h : s.length < m.length) :
    sprintfAt m 0 s = some (s ++ 0 :: m.drop (s.length + 1)) := by
  have hh := poke_append [] m (s ++ [0])
  rw [if_pos (by simp; omega)] at hh
  simpa [sprintfAt] using hh

theorem sprintfAt_zero_isSome_iff (m s : Bytes) :
    (sprintfAt m 0 s).isSome ↔ s.length < m.length := by
  rw [sprintfAt,poke_isSome_iff]
  simp

/-- `memset(p, 0, n)` on a block of at least `n` bytes. -/
def memset0 (m : Bytes) (n : ℕ) : Option Bytes := poke m 0 (List.replicate n 0)

theorem memset0_eq (m : Bytes) (n : ℕ) :
    memset0 m n = if n ≤ m.length then some (List.replicate n 0 ++ m.drop n) else none := by
  have h := poke_append [] m (List.replicate n 0)
  simpa [memset0] using h

def strncpy (n : ℕ) (src : Bytes) : Bytes :=
  (cstr src).take n ++ List.replicate (n - (cstr src).length) 0

@[simp] theorem strncpy_length (n : ℕ) (src : Bytes) : (strncpy n src).length = n := by
  simp [strncpy]
  omega

theorem cstr_strncpy_take (n : ℕ) (m : Bytes) : cstr (strncpy n m) = (cstr m).take n := by
  rw [strncpy]
  rcases Nat.eq_zero_or_pos (n - (cstr m).length) with h | h
  · rw [h,List.replicate_zero,List.append_nil,cstr_take]
  · obtain ⟨k,hk⟩ : ∃ k, n - (cstr m).length = k + 1 := ⟨n - (cstr m).length - 1,by omega⟩
    rw [hk,List.replicate_succ]
    exact cstr_append_nul (fun h => zero_notMem_cstr m (List.mem_of_mem_take h)) _

theorem zero_mem_strncpy (n : ℕ) (m : Bytes) : 0 ∈ strncpy n m ↔ (cstr m).length < n := by
  rw [strncpy,List.mem_append,List.mem_replicate]
  constructor
  · rintro (h | ⟨h,-⟩)
    · exact absurd (List.mem_of_mem_take h) (zero_notMem_cstr m)
    · omega
  · intro h
    exact Or.inr ⟨by omega,rfl⟩

/-- A `char` array of fixed size. -/
abbrev CharArray (n : ℕ) := {m : Bytes // m.length = n}

namespace CharArray

def zero (n : ℕ) : CharArray n := ⟨List.replicate n 0,by simp⟩

/-- `strncpy(dst, src, sizeof(dst))`. -/
def strncpyFrom (n : ℕ) (src : CString) : CharArray n := ⟨strncpy n src.bytes,by simp⟩

/-- `sprintf(dst, "%s", s)` into an array that the text fits. -/
def sprintfInto {n : ℕ} (a : CharArray n) (s : CString) (h : s.bytes.length < n) : CharArray n :=
  ⟨s.bytes ++ 0 :: a.1.drop (s.bytes.length + 1),by simp [a.2]; omega⟩

@[simp] theorem cstr_sprintfInto {n : ℕ} (a : CharArray n) (s : CString) (h : s.bytes.length < n) :
    cstr (a.sprintfInto s h).1 = s.bytes := cstr_append_nul s.nulFree _

end CharArray

/-- The little-endian bytes of a four-byte integer in memory. -/
def le32 (n : ℕ) : Bytes :=
  [UInt8.ofNat n,UInt8.ofNat (n / 256),UInt8.ofNat (n / 65536),UInt8.ofNat (n / 16777216)]

theorem le32_length (n : ℕ) : (le32 n).length = 4 := rfl

end WddProc
